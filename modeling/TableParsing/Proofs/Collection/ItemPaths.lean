import TableParsing.Proofs.Collection.Follow

/-!
# From item to item

An item of a state has been reached from the item of the added start symbol: the items between them
advance over the symbols that lead to the state, and call for productions in between (`Reaches`,
`Linked.reaches_of_leads`).

Put trees in place of these symbols, and behind them a symbol that the reached item awaits
(`Item.Awaits`). Then what comes next before all of them is foretold by what is behind the dot of
any item on the way (`Reaches.foretells`). In particular every production that is called for on the
way predicts the first symbol of the input that is still before it (`Reaches.mem_predicted`).
-/

namespace TableParsing

open FirstFollow

/-- A symbol without rules comes next in an item: after its dot, or behind the complete item. -/
def Item.Awaits (g : Grammar) (item : Item) (symbol : Symbol) : Prop :=
  (item.next? = some symbol ∧ g.isNonTerminal symbol = false) ∨
    (item.next? = none ∧ item.lookahead = some symbol)

namespace ItemSystem

/-- With the same after its dot as in an item that awaits a symbol, an item calls for nothing. -/
theorem not_mem_calledFor {g : Grammar} {hasLookahead : Bool} {item other : Item} {symbol : Symbol}
    (h : item.Awaits g symbol) (hnext : other.next? = item.next?) (called : NumberedItem) :
    called ∉ (computed g hasLookahead).calledFor other := by
  intro hcalled
  obtain ⟨p, hp, hcall, -⟩ := mem_calledFor.mp hcalled
  rw [hnext] at hcall
  rcases h with ⟨hsymbol, hn⟩ | ⟨hnone, -⟩
  · rw [hsymbol] at hcall
    exact Grammar.lhs_ne_of_not_isNonTerminal hn (Grammar.toRule_mem_rules hp)
      (Option.some.inj hcall).symm
  · rw [hnone] at hcall
    cases hcall

/-- An item leads to another one along some symbols: it advances over them, and calls for
productions in between. -/
inductive Reaches (system : ItemSystem) : Item → List Symbol → Item → Prop
  | refl (item : Item) : Reaches system item [] item
  | advance {item last : Item} {symbol : Symbol} {symbols : List Symbol}
      (hnext : item.next? = some symbol) (rest : Reaches system item.advance symbols last) :
      Reaches system item (symbol :: symbols) last
  | call {item last : Item} {called : NumberedItem} {symbols : List Symbol}
      (hcalled : called ∈ system.calledFor item)
      (rest : Reaches system called.toItem symbols last) : Reaches system item symbols last

namespace Reaches

variable {system : ItemSystem} {item last : Item} {symbols : List Symbol}

/-- The reached item advances. -/
theorem append_advance (h : Reaches system item symbols last) {symbol : Symbol}
    (hnext : last.next? = some symbol) :
    Reaches system item (symbols ++ [symbol]) last.advance := by
  induction h with
  | refl item => exact .advance hnext (.refl _)
  | advance hnext' _ ih => exact .advance hnext' (ih hnext)
  | call hcalled _ ih => exact .call hcalled (ih hnext)

/-- The reached item calls for a production. -/
theorem append_call (h : Reaches system item symbols last) {called : NumberedItem}
    (hcalled : called ∈ system.calledFor last) : Reaches system item symbols called.toItem := by
  induction h with
  | refl item => exact .call hcalled (.refl _)
  | advance hnext _ ih => exact .advance hnext (ih hcalled)
  | call hcalled' _ ih => exact .call hcalled' (ih hcalled)

end Reaches

end ItemSystem

/-- The items that some symbols lead to are reached along these from the item of the added start
symbol. -/
theorem Collection.Linked.reaches_of_leads {system : ItemSystem} {states : List State}
    (h : Linked system states.length [] states) {symbols : List Symbol} {number : Int}
    (hleads : Leads states 0 symbols number) {item : Item} (hholds : Holds states number item) :
    system.Reaches (.dotted system.grammar.augmentedProduction.toRule 0 system.startLookahead)
      symbols item := by
  refine h.forall_holds_leads (.refl _) ?_ ?_ hleads item hholds
  · intro symbols item hreaches symbol hnext
    exact hreaches.append_advance hnext
  · intro symbols item hreaches called hcalled
    exact hreaches.append_call hcalled

/-! ## What comes next on the way -/

namespace ItemSystem.Reaches

variable {g : Grammar} (hε : g.isNonTerminal epsilon = false) {item last : Item}
  {symbols : List Symbol} {trees : List Tree} {next following : Symbol}
include hε

/-- What comes next before trees for the symbols, and then the awaited symbol, is foretold by what
is behind the dot of the first item. -/
theorem foretells (h : (computed g true).Reaches item symbols last) (hawaits : last.Awaits g next) :
    ∀ {r : Rule} {place : Nat} {following : Symbol} {trees : List Tree},
      item = .dotted r place (some following) → (∀ t ∈ trees, t.IsComplete g) →
        trees.map Tree.label = symbols →
          Foretells (compute g).first (r.body.drop place) (nextAfter trees next) following := by
  induction h with
  | refl item =>
      rintro r place following trees rfl - hlabels
      obtain rfl := List.map_eq_nil_iff.mp hlabels
      rw [nextAfter_nil]
      rcases hawaits with ⟨hnext, hn⟩ | ⟨hnone, hlookahead⟩
      · -- The symbol after the dot foretells itself.
        have hne : next ≠ epsilon := by
          apply Rule.ne_epsilon_of_mem_body (r := r)
          rw [Item.body_eq_of_next? hnext]
          simp
        rw [Item.drop_eq_of_next? hnext]
        refine Or.inl ⟨mem_firstOfSequence_cons.mpr (Or.inl ⟨?_, hne⟩), hne⟩
        rw [(firstInRange_compute g).other _ hn]
        exact SymbolSet.mem_singleton.mpr rfl
      · rw [Item.next?_dotted, List.getElem?_eq_none_iff] at hnone
        rw [List.drop_eq_nil_of_le hnone]
        exact Or.inr ⟨SymbolSet.mem_singleton.mpr rfl, (Option.some.inj hlookahead).symm⟩
  | advance hnext _ ih =>
      rintro r place following trees rfl htrees hlabels
      obtain ⟨t, rest, rfl, rfl, hrest⟩ := List.map_eq_cons_iff.mp hlabels
      have hforetells := ih hawaits rfl (fun u hu => htrees u (List.mem_cons_of_mem _ hu)) hrest
      rw [nextAfter_cons, Item.drop_eq_of_next? hnext]
      exact foretells_cons (foretells_tree hε (htrees t List.mem_cons_self) _) hforetells
  | call hcalled _ ih =>
      rintro r place following trees rfl htrees hlabels
      obtain ⟨q, hq, hnext, lookahead, hlookahead, rfl⟩ := mem_calledFor.mp hcalled
      obtain ⟨middle, rfl, hmiddle⟩ := (mem_lookaheads_dotted rfl).mp hlookahead
      have hbody := ih hawaits rfl htrees hlabels
      rw [List.drop_zero, Rule.body, foretells_filter (firstInRange_compute g) hε] at hbody
      rw [Item.drop_eq_of_next? hnext]
      exact foretells_cons (foretells_lhs hq hbody) hmiddle

/-- A production predicts what comes next, if its lookahead may follow it. -/
theorem mem_predicted {p : Production} (hp : p ∈ g.productions)
    (hfollowing : MayFollow g p.lhs following)
    (h : (computed g true).Reaches (.dotted p.toRule 0 (some following)) symbols last)
    (hawaits : last.Awaits g next) (htrees : ∀ t ∈ trees, t.IsComplete g)
    (hlabels : trees.map Tree.label = symbols) :
    nextAfter trees next ∈ Table.predicted (compute g) p := by
  have hforetells := h.foretells hε hawaits rfl htrees hlabels
  rw [List.drop_zero, Rule.body, foretells_filter (firstInRange_compute g) hε] at hforetells
  exact mem_predicted_of_foretells hforetells ((MayFollow.iff_mem_follow hp).mp hfollowing)

end ItemSystem.Reaches

end TableParsing
