import TableParsing.Proofs.Collection.Paths

/-!
# Lookaheads may follow

The lookahead of an item in a state may follow the left-hand side of the item
(`Linked.mayFollow_of_holds`). For the rules of the grammar this means that it is in the computed
FOLLOW set, and for the rule of the added start symbol that it is the end marker (`MayFollow`). The
lookaheads and the FOLLOW sets are found independently of each other, but both from the symbols that
stand behind a non-terminal in a body, so what an item calls for keeps the property
(`MayFollow.of_foretells`). Nothing is assumed of the grammar: the sets are closed under the
clauses, whether or not their members are ever derived.
-/

namespace TableParsing

open FirstFollow

variable {g : Grammar}

/-- What may come after the left-hand side of a rule: the end marker after the added start symbol,
and what is in the FOLLOW set of any other symbol. -/
def MayFollow (g : Grammar) (lhs following : Symbol) : Prop :=
  if lhs = g.augmentedStart then following = endMarker
  else following ∈ setOf (compute g).follow lhs

namespace MayFollow

/-- Only the end of the input comes after the added start symbol. -/
theorem augmentedStart_iff {following : Symbol} :
    MayFollow g g.augmentedStart following ↔ following = endMarker := by
  rw [MayFollow, if_pos rfl]

/-- What may come after a non-terminal is in its FOLLOW set. -/
theorem iff_mem_follow {p : Production} (hp : p ∈ g.productions) {following : Symbol} :
    MayFollow g p.lhs following ↔ following ∈ setOf (compute g).follow p.lhs := by
  rw [MayFollow, if_neg (Grammar.lhs_ne_augmentedStart hp)]

/-- What is foretold behind a non-terminal in a body may follow it. -/
theorem of_foretells {p q : Production} (hp : p ∈ g.allProductions) (hq : q ∈ g.productions)
    {before after : List Symbol} (hsplit : p.body = before ++ q.lhs :: after)
    {next following : Symbol} (hfollowing : MayFollow g p.lhs following)
    (h : Foretells (compute g).first after next following) : MayFollow g q.lhs next := by
  rw [iff_mem_follow hq]
  rcases List.mem_cons.mp hp with rfl | hp
  · -- The added rule has nothing behind the start symbol.
    obtain ⟨hstart, rfl⟩ := Grammar.eq_startSymbol_of_body_eq hsplit
    have hend := augmentedStart_iff.mp hfollowing
    rcases h with ⟨hmem, hne⟩ | ⟨-, rfl⟩
    · exact absurd (SymbolSet.mem_singleton.mp hmem) hne
    · rw [hstart, hend]
      exact (followInRange_compute g).start
  · rw [iff_mem_follow hp] at hfollowing
    exact mem_follow_of_foretells (Grammar.toRule_mem_rules hp) hsplit
      (Grammar.isNonTerminal_lhs (Grammar.toRule_mem_rules hq)) hfollowing h

end MayFollow

namespace ItemSystem

/-- An item of a production whose lookahead may follow the left-hand side. -/
def Follows (g : Grammar) (item : Item) : Prop :=
  ∃ p ∈ g.allProductions, ∃ place following,
    item = .dotted p.toRule place (some following) ∧ MayFollow g p.lhs following

/-- The item of the added start symbol is followed by the end of the input. -/
theorem Follows.start (g : Grammar) :
    Follows g (.dotted g.augmentedProduction.toRule 0 (computed g true).startLookahead) :=
  ⟨_, List.mem_cons_self, 0, endMarker, rfl, MayFollow.augmentedStart_iff.mpr rfl⟩

/-- Advancing keeps the left-hand side and the lookahead. -/
theorem Follows.advance {item : Item} (h : Follows g item) : Follows g item.advance := by
  obtain ⟨p, hp, place, following, rfl, hfollowing⟩ := h
  exact ⟨p, hp, place + 1, following, rfl, hfollowing⟩

/-- What an item calls for, and that the lookahead of it may follow the non-terminal. -/
theorem Follows.exists_called {item : Item} (h : Follows g item) {called : NumberedItem}
    (hcalled : called ∈ (computed g true).calledFor item) :
    ∃ q ∈ g.productions, ∃ following, item.next? = some q.lhs ∧
      called = .dotted q 0 (some following) ∧ MayFollow g q.lhs following := by
  obtain ⟨p, hp, place, following, rfl, hfollowing⟩ := h
  obtain ⟨q, hq, hnext, lookahead, hlookahead, rfl⟩ := mem_calledFor.mp hcalled
  obtain ⟨next, rfl, hforetells⟩ := (mem_lookaheads_dotted rfl).mp hlookahead
  exact ⟨q, hq, next, hnext, rfl,
    MayFollow.of_foretells hp hq (Item.body_eq_of_next? hnext) hfollowing hforetells⟩

/-- The lookaheads of called items may follow the non-terminal that is called for. -/
theorem Follows.called {item : Item} (h : Follows g item) {called : NumberedItem}
    (hcalled : called ∈ (computed g true).calledFor item) : Follows g called.toItem := by
  obtain ⟨q, hq, following, -, rfl, hfollowing⟩ := h.exists_called hcalled
  exact ⟨q, List.mem_cons_of_mem _ hq, 0, following, rfl, hfollowing⟩

end ItemSystem

namespace Collection.Linked

open ItemSystem NumberedItem

variable {states : List State} (h : Linked (computed g true) states.length [] states)
include h

/-- The items of the states are followed by their lookaheads. -/
theorem follows_of_holds {number : Int} {item : Item} (hholds : Holds states number item) :
    Follows g item := by
  obtain ⟨s, hs, rfl, hitem⟩ := hholds
  obtain ⟨symbols, hleads⟩ := h.exists_leads hs
  refine h.forall_holds_leads (P := fun _ => Follows g) (Follows.start g) ?_ ?_ hleads item
    ⟨s, hs, rfl, hitem⟩
  · intro symbols item hfollows symbol hnext
    exact hfollows.advance
  · intro symbols item hfollows called hcalled
    exact hfollows.called hcalled

/-- The lookahead of an item in a state may follow the left-hand side. -/
theorem mayFollow_of_holds {number : Int} {r : Rule} {place : Nat} {following : Symbol}
    (hholds : Holds states number (.dotted r place (some following))) :
    MayFollow g r.lhs following := by
  obtain ⟨p, -, place', following', hitem, hfollowing⟩ := h.follows_of_holds hholds
  obtain ⟨hlhs, -, -, hlookahead⟩ := Item.dotted_inj.mp hitem
  cases hlookahead
  rwa [hlhs]

end Collection.Linked

end TableParsing
