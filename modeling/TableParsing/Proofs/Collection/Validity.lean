import TableParsing.Proofs.Collection.Built
import TableParsing.Proofs.Collection.Paths
import TableParsing.Proofs.FirstFollow.Soundness

/-!
# Viable prefixes and valid items

An item is valid for some symbols if they are what stands before its dot in a rightmost derivation
of the grammar with its added rule: the derivation reaches the left-hand side of the item with a
word behind it, and the symbols are those before it followed by those before the dot (`Valid`). The
lookahead, where items have one, is the first symbol of the word with the end marker behind it.

The automaton recognises exactly the symbols for which some item is valid, and the state it reaches
holds exactly the valid items (`holds_iff_valid`). In one direction, the first item is valid, and
advancing and calling keep validity (`valid_of_holds`). In the other, the induction is on the
rightmost derivation: the replaced symbol came up in the body of an earlier rule, whose item the
state before that body holds, and this item advances to the symbol and calls for its rules
(`exists_holds_of_rightDerives`).
-/

namespace TableParsing.Collection

open ItemSystem FirstFollow

variable {g : Grammar} {hasLookahead : Bool} {states : List State} {symbols w : List Symbol}
  {item : Item}

/-- The lookahead that belongs to a word behind a rule: its first symbol, or the end marker behind
it. -/
def lookaheadOf (hasLookahead : Bool) (w : List Symbol) : Option Symbol :=
  if hasLookahead then (w ++ [endMarker]).head? else none

/-- An item is valid for some symbols: a rightmost derivation reaches its left-hand side behind some
symbols and before a word, and with what is before the dot these are the given symbols. -/
def Valid (g : Grammar) (hasLookahead : Bool) (symbols : List Symbol) (item : Item) : Prop :=
  ∃ r ∈ g.augmented.rules, ∃ place ≤ r.body.length, ∃ before w : List Symbol,
    g.augmented.RightDerives [g.augmentedStart] (before ++ r.lhs :: w) ∧ g.IsWord w ∧
    symbols = before ++ r.body.take place ∧ item = .dotted r place (lookaheadOf hasLookahead w)

/-! ## Lookaheads and words -/

/-- The lookahead of a word, where items have one. -/
theorem lookaheadOf_true (w : List Symbol) : lookaheadOf true w = some (w.headD endMarker) := by
  cases w <;> rfl

/-- A word before another one has the lookahead of that one if it is empty. -/
theorem lookaheadOf_true_append (v w : List Symbol) :
    lookaheadOf true (v ++ w) = some (v.headD (w.headD endMarker)) := by
  cases v with
  | nil => exact lookaheadOf_true w
  | cons => rfl

/-- Called items have the lookaheads of the words that the symbols behind the dotted one derive,
with the word of the item behind them. -/
theorem mem_lookaheads_iff (hε : g.isNonTerminal epsilon = false) (hproductive : g.Productive)
    {r : Rule} {place : Nat} (hform : g.IsForm (r.body.drop (place + 1)))
    {lookahead : Option Symbol} :
    lookahead ∈ (computed g hasLookahead).lookaheads
        (.dotted r place (lookaheadOf hasLookahead w)) ↔
      ∃ v, g.IsWord v ∧ g.Derives (r.body.drop (place + 1)) v ∧
        lookahead = lookaheadOf hasLookahead (v ++ w) := by
  cases hasLookahead with
  | false =>
      rw [lookaheads_of_not rfl, List.mem_singleton]
      constructor
      · rintro rfl
        obtain ⟨v, hv, hderives⟩ := hproductive.exists_word _ hform
        exact ⟨v, hv, hderives, rfl⟩
      · rintro ⟨v, -, -, rfl⟩
        rfl
  | true =>
      rw [lookaheadOf_true, mem_lookaheads_dotted rfl]
      constructor
      · rintro ⟨s, rfl, hforetells⟩
        obtain ⟨v, hv, hderives, rfl⟩ := (foretells_iff hε hproductive hform).mp hforetells
        exact ⟨v, hv, hderives, (lookaheadOf_true_append v w).symm⟩
      · rintro ⟨v, hv, hderives, rfl⟩
        refine ⟨_, lookaheadOf_true_append v w, ?_⟩
        exact (foretells_iff hε hproductive hform).mpr ⟨v, hv, hderives, rfl⟩

/-! ## Held items are valid -/

/-- A body of the grammar with its added rule is a form. -/
theorem isForm_body_augmented {r : Rule} (hr : r ∈ g.augmented.rules) : g.IsForm r.body := by
  rcases List.mem_cons.mp hr with rfl | hr
  · intro s hs
    exact Grammar.isNonTerminal_or_mem_terminals_of_mem_body List.mem_cons_self hs
  · exact Grammar.isForm_body hr

/-- The item of the added start symbol is valid before anything is read. -/
theorem Valid.start : Valid g hasLookahead []
    (.dotted g.augmentedProduction.toRule 0 (computed g hasLookahead).startLookahead) := by
  refine ⟨_, List.mem_cons_self, 0, Nat.zero_le _, [], [], ?_, Grammar.isWord_nil, rfl, rfl⟩
  exact .refl [g.augmentedStart]

/-- An item advances over the symbol after its dot. -/
theorem Valid.advance (h : Valid g hasLookahead symbols item) {symbol : Symbol}
    (hnext : item.next? = some symbol) :
    Valid g hasLookahead (symbols ++ [symbol]) item.advance := by
  obtain ⟨r, hr, place, -, before, w, hderives, hw, rfl, rfl⟩ := h
  rw [Item.next?_dotted] at hnext
  have hplace : place + 1 ≤ r.body.length := (List.getElem?_eq_some_iff.mp hnext).1
  refine ⟨r, hr, place + 1, hplace, before, w, hderives, hw, ?_, rfl⟩
  rw [List.take_add_one, hnext, List.append_assoc]
  rfl

/-- What a valid item calls for is valid. -/
theorem Valid.called (hε : g.isNonTerminal epsilon = false) (hproductive : g.Productive)
    (h : Valid g hasLookahead symbols item) {called : NumberedItem}
    (hcalled : called ∈ (computed g hasLookahead).calledFor item) :
    Valid g hasLookahead symbols called.toItem := by
  obtain ⟨r, hr, place, -, before, w, hderives, hw, rfl, rfl⟩ := h
  obtain ⟨p, hp, hnext, lookahead, hlookahead, rfl⟩ := mem_calledFor.mp hcalled
  have hbody := isForm_body_augmented hr
  have hafter : g.IsForm (r.body.drop (place + 1)) := fun s hs => hbody s (List.mem_of_mem_drop hs)
  obtain ⟨v, hv, hrest, rfl⟩ := (mem_lookaheads_iff hε hproductive hafter).mp hlookahead
  have hsplit := Item.body_eq_of_next? hnext
  refine ⟨p.toRule, List.mem_cons_of_mem _ (Grammar.toRule_mem_rules hp), 0, Nat.zero_le _,
    before ++ r.body.take place, v ++ w, ?_, Grammar.isWord_append.mpr ⟨hv, hw⟩, by simp, rfl⟩
  -- The rule of the item, and then what is behind the non-terminal.
  have hstep : g.augmented.RightDerives [g.augmentedStart] (before ++ r.body ++ w) :=
    hderives.tail (.rewrite before w hr hw.not_isNonTerminal_augmented)
  have hright := (hrest.rightDerives hε hafter hv).augmented hafter
  have hcontext := hright.context (before ++ r.body.take place ++ [p.lhs])
    hw.not_isNonTerminal_augmented
  rw [hsplit] at hstep
  simp only [List.append_assoc, List.cons_append, List.nil_append] at hstep hcontext ⊢
  exact hstep.trans hcontext

/-- Symbols for which an item is valid, with what is behind its dot and then a word that has its
lookahead, are derived from the start symbol. -/
theorem Valid.exists_word (hε : g.isNonTerminal epsilon = false)
    (h : Valid g hasLookahead symbols item) :
    ∃ (r : Rule) (place : Nat) (w : List Symbol), g.IsWord w ∧
      item = .dotted r place (lookaheadOf hasLookahead w) ∧
      g.Derives [g.startSymbol] (symbols ++ (r.body.drop place ++ w)) := by
  obtain ⟨r, hr, place, -, before, w, hderives, hw, rfl, rfl⟩ := h
  refine ⟨r, place, w, hw, rfl, ?_⟩
  have hform : g.Derives [g.startSymbol] (before ++ r.body ++ w) := by
    rcases Grammar.rule_cases_augmented hr ((Grammar.rightDerives_augmented_iff hε).mp hderives)
      with ⟨rfl, rfl, rfl⟩ | ⟨hr, hderives⟩
    · rw [Grammar.body_augmentedProduction hε]
      exact .refl _
    · exact hderives.derives.trans (.of_step (.rewrite before w hr))
  have hsplit : before ++ r.body.take place ++ (r.body.drop place ++ w) =
      before ++ r.body ++ w := by
    rw [← List.append_assoc, List.append_assoc before, List.take_append_drop]
  rwa [hsplit]

/-- Symbols for which an item is valid are the beginning of a form that the start symbol derives. -/
theorem Valid.exists_derives (hε : g.isNonTerminal epsilon = false)
    (h : Valid g hasLookahead symbols item) :
    ∃ behind, g.Derives [g.startSymbol] (symbols ++ behind) := by
  obtain ⟨r, place, w, -, -, hderives⟩ := h.exists_word hε
  exact ⟨_, hderives⟩

/-- What the automaton reaches along some symbols is valid for them. -/
theorem valid_of_holds (hε : g.isNonTerminal epsilon = false) (hproductive : g.Productive)
    (h : Linked (computed g hasLookahead) states.length [] states) {number : Int}
    (hleads : Leads states 0 symbols number) :
    ∀ item, Holds states number item → Valid g hasLookahead symbols item := by
  refine h.forall_holds_leads Valid.start ?_ ?_ hleads
  · intro symbols item hvalid symbol hnext
    exact hvalid.advance hnext
  · intro symbols item hvalid called hcalled
    exact hvalid.called hε hproductive hcalled

/-! ## Valid items are held -/

/-- A state that holds an item holds the first items of the rules for the symbol after its dot, with
the lookaheads of the words behind it. -/
theorem holds_of_drop (hε : g.isNonTerminal epsilon = false) (hproductive : g.Productive)
    (h : Linked (computed g hasLookahead) states.length [] states) {number : Int} {r : Rule}
    (hr : r ∈ g.augmented.rules) {place : Nat}
    (hholds : Holds states number (.dotted r place (lookaheadOf hasLookahead w))) {q : Rule}
    (hq : q ∈ g.rules) {after v : List Symbol} (hdrop : r.body.drop place = q.lhs :: after)
    (hv : g.IsWord v) (hafter : g.Derives after v) :
    Holds states number (.dotted q 0 (lookaheadOf hasLookahead (v ++ w))) := by
  obtain ⟨p, hp, rfl⟩ := Grammar.exists_production hq
  have hdrop' : r.body.drop (place + 1) = after := by
    rw [List.drop_add_one_eq_tail_drop, hdrop, List.tail_cons]
  have hform : g.IsForm (r.body.drop (place + 1)) := fun s hs =>
    isForm_body_augmented hr s (List.mem_of_mem_drop hs)
  have hlookahead : lookaheadOf hasLookahead (v ++ w) ∈ (computed g hasLookahead).lookaheads
      (.dotted r place (lookaheadOf hasLookahead w)) :=
    (mem_lookaheads_iff hε hproductive hform).mpr ⟨v, hv, by rwa [hdrop'], rfl⟩
  exact h.holds_called hholds
    (mem_calledFor.mpr ⟨p, hp, Item.next?_dotted_of_drop hdrop, _, hlookahead, rfl⟩)

/-- If what is before a rule leads to a state with its first item, what is before a symbol of its
body leads to a state with the first items of the rules of that symbol. -/
theorem exists_holds_in_body (hε : g.isNonTerminal epsilon = false) (hproductive : g.Productive)
    (h : Linked (computed g hasLookahead) states.length [] states) {r q : Rule} (hr : r ∈ g.rules)
    (hq : q ∈ g.rules) {before left right v : List Symbol} {number : Int}
    (hbody : r.body = left ++ q.lhs :: right) (hleads : Leads states 0 before number)
    (hholds : Holds states number (.dotted r 0 (lookaheadOf hasLookahead w)))
    (hv : g.IsWord v) (hright : g.Derives right v) :
    ∃ next, Leads states 0 (before ++ left) next ∧
      Holds states next (.dotted q 0 (lookaheadOf hasLookahead (v ++ w))) := by
  have hplace : left.length ≤ r.body.length := by
    rw [hbody, List.length_append]
    omega
  obtain ⟨next, hpath, hadvanced⟩ := h.leads_take hholds left.length hplace
  have htake : r.body.take left.length = left := by rw [hbody, List.take_left]
  have hdrop : r.body.drop left.length = q.lhs :: right := by rw [hbody, List.drop_left]
  rw [htake] at hpath
  refine ⟨next, (leads_append before).mpr ⟨number, hleads, hpath⟩, ?_⟩
  exact holds_of_drop hε hproductive h (List.mem_cons_of_mem _ hr) hadvanced hq hdrop hv hright

/-- Wherever a rightmost derivation has a symbol with rules, what is before it leads to a state that
holds the first items of these, with the lookaheads of the words that the rest derives. -/
theorem exists_holds_of_rightDerives (hε : g.isNonTerminal epsilon = false)
    (hproductive : g.Productive)
    (h : Linked (computed g hasLookahead) states.length [] states) {form : List Symbol}
    (hderives : g.RightDerives [g.startSymbol] form) :
    ∀ q ∈ g.rules, ∀ before after v, form = before ++ q.lhs :: after → g.IsWord v →
      g.Derives after v → ∃ number, Leads states 0 before number ∧
        Holds states number (.dotted q 0 (lookaheadOf hasLookahead v)) := by
  induction hderives with
  | refl =>
      intro q hq before after v hform hv hafter
      obtain ⟨rfl, hlhs, rfl⟩ : before = [] ∧ q.lhs = g.startSymbol ∧ after = [] := by
        simpa [List.append_eq_singleton_iff] using hform.symm
      have hdrop : g.augmentedProduction.toRule.body.drop 0 = q.lhs :: [] := by
        rw [hlhs]
        exact Grammar.body_augmentedProduction hε
      have hholds := holds_of_drop hε hproductive h List.mem_cons_self (w := []) h.holds_start hq
        hdrop hv hafter
      rw [List.append_nil] at hholds
      exact ⟨0, rfl, hholds⟩
  | tail _ hstep ih =>
      intro q hq before after v hform hv hafter
      cases hstep with
      | @rewrite x y r hr hy =>
          rcases Grammar.append_eq_append_cons hform with
            ⟨middle, hfront, rfl⟩ | ⟨middle, -, rfl⟩
          · rcases Grammar.append_eq_append_cons hfront with
              ⟨rest, rfl, rfl⟩ | ⟨left, rfl, hbody⟩
            · -- The symbol was there before the step, and what is behind it derives the same.
              refine ih q hq before (rest ++ r.lhs :: y) v (by simp) hv ?_
              exact (Grammar.Derives.of_step (.rewrite rest y hr)).trans hafter
            · -- The symbol came up in the body of the rule.
              obtain ⟨v, v', rfl, hmiddle, hrest⟩ := hafter.exists_append
              obtain ⟨hv, hv'⟩ := Grammar.isWord_append.mp hv
              obtain ⟨number, hleads, hholds⟩ := ih r hr x y v' rfl hv' hrest
              exact exists_holds_in_body hε hproductive h hr hq hbody hleads hholds hv hmiddle
          · -- The symbols behind the replaced one have no rules.
            have hnone := hy q.lhs (by simp)
            rw [Grammar.isNonTerminal_lhs hq] at hnone
            exact Bool.noConfusion hnone

/-- A valid item is held by the state that its symbols lead to. -/
theorem exists_holds_of_valid (hε : g.isNonTerminal epsilon = false) (hproductive : g.Productive)
    (h : Linked (computed g hasLookahead) states.length [] states)
    (hvalid : Valid g hasLookahead symbols item) :
    ∃ number, Leads states 0 symbols number ∧ Holds states number item := by
  obtain ⟨r, hr, place, hplace, before, w, hderives, hw, rfl, rfl⟩ := hvalid
  obtain ⟨middle, hleads, hfirst⟩ : ∃ middle, Leads states 0 before middle ∧
      Holds states middle (.dotted r 0 (lookaheadOf hasLookahead w)) := by
    rcases Grammar.rule_cases_augmented hr ((Grammar.rightDerives_augmented_iff hε).mp hderives)
      with ⟨rfl, rfl, rfl⟩ | ⟨hr, hderives⟩
    · exact ⟨0, rfl, h.holds_start⟩
    · exact exists_holds_of_rightDerives hε hproductive h hderives r hr before w w rfl hw (.refl w)
  obtain ⟨number, hpath, hholds⟩ := h.leads_take hfirst place hplace
  exact ⟨number, (leads_append before).mpr ⟨middle, hleads, hpath⟩, hholds⟩

/-! ## The theorem -/

/-- The empty marker is not a left-hand side of the grammar, and every non-terminal derives a word.
Then the collection for any shift-reduce algorithm can be built, and some symbols lead on from its
first state iff an item is valid for them. The state that they lead to holds exactly the valid
items, with lookaheads for the algorithm that has them and without for the others. -/
theorem holds_iff_valid (g : Grammar) (hε : epsilon ∉ g.nonTerminals)
    (hproductive : g.Productive) {algorithm : Algorithm}
    (halgorithm : algorithm ∈ Algorithm.shiftReduce) :
    ∃ collection, build g (compute g) algorithm = .ok collection ∧
      ∀ symbols : List Symbol,
        ((∃ number, Leads collection.states 0 symbols number) ↔
          ∃ item, Valid g (algorithm = .lr1) symbols item) ∧
        ∀ number, Leads collection.states 0 symbols number →
          ∀ item, Holds collection.states number item ↔
            Valid g (algorithm = .lr1) symbols item := by
  have hε' := Grammar.not_isNonTerminal_epsilon hε
  obtain ⟨collection, hbuild, hbuilt⟩ := exists_built g halgorithm
  refine ⟨collection, hbuild, fun symbols => ⟨⟨?_, ?_⟩, fun number hleads item => ⟨?_, ?_⟩⟩⟩
  · rintro ⟨number, hleads⟩
    obtain ⟨item, hholds⟩ := hbuilt.linked.exists_holds_of_leads hleads
    exact ⟨item, valid_of_holds hε' hproductive hbuilt.linked hleads item hholds⟩
  · rintro ⟨item, h⟩
    obtain ⟨number, hleads, -⟩ := exists_holds_of_valid hε' hproductive hbuilt.linked h
    exact ⟨number, hleads⟩
  · intro hholds
    exact valid_of_holds hε' hproductive hbuilt.linked hleads item hholds
  · intro h
    obtain ⟨number', hleads', hholds⟩ := exists_holds_of_valid hε' hproductive hbuilt.linked h
    rwa [hbuilt.linked.leads_unique symbols hleads hleads']

/-- After an opening bracket the automaton expects the brackets inside it, and that the input ends
behind the closing one. -/
theorem holds_iff_valid_nested :
    epsilon ∉ Grammar.nested.nonTerminals ∧ Grammar.nested.Productive ∧
    ∃ collection, build .nested (compute .nested) .lr1 = .ok collection ∧
      ∃ number, Leads collection.states 0 ["a"] number ∧
        Holds collection.states number (.dotted ⟨"S", ["a", "S", "b"]⟩ 1 (some endMarker)) := by
  have hε : epsilon ∉ Grammar.nested.nonTerminals := by decide +kernel
  have hvalid :
      Valid .nested true ["a"] (.dotted ⟨"S", ["a", "S", "b"]⟩ 1 (some endMarker)) := by
    refine ⟨⟨"S", ["a", "S", "b"]⟩, by decide +kernel, 1, by decide +kernel, [], [], ?_, ?_,
      by decide +kernel, rfl⟩
    · exact (Grammar.rightDerives_augmented_iff (Grammar.not_isNonTerminal_epsilon hε)).mpr
        (Or.inr (.refl ["S"]))
    · intro s hs
      exact absurd hs List.not_mem_nil
  obtain ⟨collection, hbuild, h⟩ := holds_iff_valid .nested hε Grammar.productive_nested
    (show Algorithm.lr1 ∈ Algorithm.shiftReduce by decide)
  obtain ⟨number, hleads⟩ := (h ["a"]).1.mpr ⟨_, hvalid⟩
  exact ⟨hε, Grammar.productive_nested, collection, hbuild, number, hleads,
    ((h ["a"]).2 number hleads _).mpr hvalid⟩

end TableParsing.Collection
