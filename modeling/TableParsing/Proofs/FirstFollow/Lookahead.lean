import TableParsing.Proofs.Derivation.Tree
import TableParsing.Proofs.FirstFollow.Range
import TableParsing.Table.Predictive

/-!
# The next symbol of the input

FIRST and FOLLOW foretell the input. If complete derivation trees stand side by side and some input
comes after them, the next symbol is one with which their roots may begin, or the roots derive the
empty word together and the next symbol is that of the input after the trees
(`lookahead_of_forest`). From this, by the clauses that the computed sets satisfy: what comes after
a child of a node may follow it (`lookahead_mem_follow`), and the production of a node predicts what
comes next before the node (`lookahead_mem_predicted`).

Empty markers in a right-hand side make no difference, as long as the marker is not rewritten
(`mem_firstOfSequence_filter`). Where no computed FIRST set is empty (`EachBegins`), every sequence
foretells something, also if the marker is rewritten (`EachBegins.exists_foretells`).
-/

namespace TableParsing.FirstFollow

variable {g : Grammar} {first : SetMap}

/-- What a sequence followed by an input begins with: a symbol of its FIRST set, or that of the
input if the sequence derives the empty word. -/
def Foretells (first : SetMap) (symbols : List Symbol) (next following : Symbol) : Prop :=
  (next ∈ firstOfSequence first symbols ∧ next ≠ epsilon) ∨
    (epsilon ∈ firstOfSequence first symbols ∧ next = following)

/-- The empty marker begins with itself only. -/
theorem firstOf_epsilon (h : FirstInRange g first) (hε : g.isNonTerminal epsilon = false) :
    firstOf first epsilon = .singleton epsilon := h.other epsilon hε

/-- Empty markers add nothing to a FIRST set. -/
theorem mem_firstOfSequence_filter (h : FirstInRange g first)
    (hε : g.isNonTerminal epsilon = false) {x : Symbol} :
    (symbols : List Symbol) →
      (x ∈ firstOfSequence first (symbols.filter (· ≠ epsilon)) ↔ x ∈ firstOfSequence first symbols)
  | [] => Iff.rfl
  | s :: rest => by
      have ih := mem_firstOfSequence_filter h hε (x := x) rest
      by_cases hs : s = epsilon
      · rw [List.filter_cons_of_neg (by simpa using hs), ih, mem_firstOfSequence_cons, hs,
          firstOf_epsilon h hε, SymbolSet.mem_singleton, SymbolSet.mem_singleton,
          and_iff_right rfl, and_not_self_iff, false_or]
      · rw [List.filter_cons_of_pos (by simpa using hs), mem_firstOfSequence_cons,
          mem_firstOfSequence_cons, ih]

/-- What a right-hand side foretells is what its body does. -/
theorem foretells_filter (h : FirstInRange g first) (hε : g.isNonTerminal epsilon = false)
    {symbols : List Symbol} {next following : Symbol} :
    Foretells first (symbols.filter (· ≠ epsilon)) next following ↔
      Foretells first symbols next following := by
  rw [Foretells, Foretells, mem_firstOfSequence_filter h hε, mem_firstOfSequence_filter h hε]

/-- Empty markers take nothing from a FIRST set, also where the marker is rewritten. -/
theorem mem_firstOfSequence_of_filter {x : Symbol} :
    (symbols : List Symbol) →
      x ∈ firstOfSequence (compute g).first (symbols.filter (· ≠ epsilon)) →
        x ∈ firstOfSequence (compute g).first symbols
  | [], h => h
  | s :: rest, h => by
      by_cases hs : s = epsilon
      · rw [List.filter_cons_of_neg (by simpa using hs)] at h
        have hempty : epsilon ∈ firstOf (compute g).first s := hs ▸ epsilon_mem_firstOf_compute g
        exact mem_firstOfSequence_cons.mpr
          (Or.inr ⟨hempty, mem_firstOfSequence_of_filter rest h⟩)
      · rw [List.filter_cons_of_pos (by simpa using hs)] at h
        rw [mem_firstOfSequence_cons] at h ⊢
        exact h.imp_right (And.imp_right (mem_firstOfSequence_of_filter rest))

/-- What a rule shows foretells what its right-hand side does. -/
theorem foretells_shown (h : FirstInRange g first) (hε : g.isNonTerminal epsilon = false)
    {r : Rule} {next following : Symbol} :
    Foretells first r.shown next following ↔ Foretells first r.rhs next following := by
  rw [← foretells_filter h hε, Rule.filter_shown, Rule.body, foretells_filter h hε]

/-- A sequence of one symbol begins with what the symbol begins with. -/
theorem mem_firstOfSequence_singleton {s x : Symbol} :
    x ∈ firstOfSequence first [s] ↔ x ∈ firstOf first s := by
  rw [mem_firstOfSequence_cons, firstOfSequence, SymbolSet.mem_singleton]
  constructor
  · rintro (⟨hx, -⟩ | ⟨hε, rfl⟩)
    · exact hx
    · exact hε
  · intro hx
    by_cases hxε : x = epsilon
    · exact Or.inr ⟨hxε ▸ hx, hxε⟩
    · exact Or.inl ⟨hx, hxε⟩

/-- What follows a sequence is foretold by its first symbol and the rest. -/
theorem foretells_cons {s next middle following : Symbol} {rest : List Symbol}
    (hs : Foretells first [s] next middle) (hrest : Foretells first rest middle following) :
    Foretells first (s :: rest) next following := by
  rw [Foretells, mem_firstOfSequence_singleton, mem_firstOfSequence_singleton] at hs
  rcases hs with ⟨hmem, hne⟩ | ⟨hε, rfl⟩
  · exact Or.inl ⟨mem_firstOfSequence_cons.mpr (Or.inl ⟨hmem, hne⟩), hne⟩
  · rcases hrest with ⟨hmem, hne⟩ | ⟨hε', rfl⟩
    · exact Or.inl ⟨mem_firstOfSequence_cons.mpr (Or.inr ⟨hε, hmem⟩), hne⟩
    · exact Or.inr ⟨mem_firstOfSequence_cons.mpr (Or.inr ⟨hε, hε'⟩), rfl⟩

/-- The FIRST set of a left-hand side foretells what that of its right-hand side does. -/
theorem foretells_lhs {p : Production} (hp : p ∈ g.productions) {next following : Symbol}
    (h : Foretells (compute g).first p.rhs next following) :
    Foretells (compute g).first [p.lhs] next following := by
  have hholds := holds_compute_first hp
  rcases h with ⟨hmem, hne⟩ | ⟨hε, rfl⟩
  · exact Or.inl ⟨mem_firstOfSequence_cons.mpr (Or.inl ⟨hholds next hmem, hne⟩), hne⟩
  · refine Or.inr ⟨mem_firstOfSequence_cons.mpr (Or.inr ⟨hholds epsilon hε, ?_⟩), rfl⟩
    exact SymbolSet.mem_singleton.mpr rfl

/-! ## Something is foretold -/

/-- Every non-terminal begins with something: none of the computed FIRST sets is empty. -/
def EachBegins (g : Grammar) : Prop := ∀ s ∈ g.nonTerminals, setOf (compute g).first s ≠ .empty

instance (g : Grammar) : Decidable (EachBegins g) :=
  inferInstanceAs (Decidable (∀ s ∈ g.nonTerminals, setOf (compute g).first s ≠ .empty))

/-- Then every symbol begins with something. -/
theorem EachBegins.exists_mem_firstOf (h : EachBegins g) (s : Symbol) :
    ∃ x, x ∈ firstOf (compute g).first s := by
  have hrange := firstInRange_compute g
  cases hn : g.isNonTerminal s with
  | true =>
      rw [firstOf_eq_setOf (hrange.isSome s hn)]
      exact SymbolSet.exists_mem_of_ne_empty (h s (Grammar.isNonTerminal_iff.mp hn))
  | false =>
      rw [hrange.other s hn]
      exact ⟨s, SymbolSet.mem_singleton.mpr rfl⟩

/-- Then every sequence foretells something, whatever comes after it. -/
theorem EachBegins.exists_foretells (h : EachBegins g) (following : Symbol) :
    (symbols : List Symbol) → ∃ next, Foretells (compute g).first symbols next following
  | [] => ⟨following, Or.inr ⟨SymbolSet.mem_singleton.mpr rfl, rfl⟩⟩
  | s :: rest => by
      obtain ⟨middle, hrest⟩ := h.exists_foretells following rest
      obtain ⟨x, hx⟩ := h.exists_mem_firstOf s
      rw [← mem_firstOfSequence_singleton] at hx
      by_cases hxε : x = epsilon
      · exact ⟨middle, foretells_cons (Or.inr ⟨hxε ▸ hx, rfl⟩) hrest⟩
      · exact ⟨x, foretells_cons (Or.inl ⟨hx, hxε⟩) hrest⟩

/-! ## Derivation trees -/

/-- The first symbol after some trees, where an input comes after them. -/
def nextAfter (trees : List Tree) (following : Symbol) : Symbol :=
  (trees.flatMap Tree.yield ++ [following]).headD following

@[simp] theorem nextAfter_nil (following : Symbol) : nextAfter [] following = following := rfl

/-- Trees side by side look ahead one after the other. -/
theorem nextAfter_append (trees others : List Tree) (following : Symbol) :
    nextAfter (trees ++ others) following = nextAfter trees (nextAfter others following) := by
  unfold nextAfter
  rw [List.flatMap_append, List.append_assoc]
  cases trees.flatMap Tree.yield <;> rfl

/-- The next symbol is that of the first tree, if it has one. -/
theorem nextAfter_cons (t : Tree) (trees : List Tree) (following : Symbol) :
    nextAfter (t :: trees) following = nextAfter [t] (nextAfter trees following) :=
  nextAfter_append [t] trees following

/-- What comes next before a node is what comes next before its children. -/
theorem nextAfter_node {children : List Tree} (hn : children ≠ []) (id : Nat) (s : Symbol)
    (following : Symbol) :
    nextAfter [.node id s children] following = nextAfter children following := by
  rw [nextAfter, List.flatMap_singleton, Tree.yield_node hn]
  rfl

/-- The next symbol of an input that begins with the yields of some trees. -/
theorem headD_append (trees : List Tree) (input : List Symbol) (following : Symbol) :
    (trees.flatMap Tree.yield ++ input).headD following =
      nextAfter trees (input.headD following) := by
  unfold nextAfter
  cases trees.flatMap Tree.yield <;> rfl

/-- Trees that each foretell the next symbol do so together. -/
theorem foretells_forest :
    (trees : List Tree) → (following : Symbol) →
      (∀ t ∈ trees, ∀ after, Foretells first [t.label] (nextAfter [t] after) after) →
        Foretells first (trees.map Tree.label) (nextAfter trees following) following
  | [], following, _ => Or.inr ⟨SymbolSet.mem_singleton.mpr rfl, rfl⟩
  | t :: trees, following, h => by
      rw [nextAfter_cons, List.map_cons]
      exact foretells_cons (h t List.mem_cons_self _)
        (foretells_forest trees following fun u hu => h u (List.mem_cons_of_mem _ hu))

/-- The root of a complete derivation tree foretells what comes next before the tree. -/
theorem foretells_tree (hε : g.isNonTerminal epsilon = false) {t : Tree} (h : t.IsComplete g) :
    ∀ following, Foretells (compute g).first [t.label] (nextAfter [t] following) following := by
  have hrange := firstInRange_compute g
  induction h with
  | @leaf id s hs =>
      intro following
      by_cases hsε : s = epsilon
      · refine Or.inr ⟨mem_firstOfSequence_cons.mpr (Or.inr ⟨?_, ?_⟩), by simp [nextAfter, hsε]⟩
        · rw [Tree.label_leaf, hrange.other s hs]
          exact SymbolSet.mem_singleton.mpr hsε.symm
        · exact SymbolSet.mem_singleton.mpr rfl
      · have hnext : nextAfter [Tree.leaf id s] following = s := by simp [nextAfter, hsε]
        rw [hnext, Tree.label_leaf]
        refine Or.inl ⟨mem_firstOfSequence_cons.mpr (Or.inl ⟨?_, hsε⟩), hsε⟩
        rw [hrange.other s hs]
        exact SymbolSet.mem_singleton.mpr rfl
  | @node id r hr children hlabels hchildren ih =>
      intro following
      obtain ⟨p, hp, rfl⟩ := Grammar.exists_production hr
      have hforest := foretells_forest children following ih
      rw [hlabels, foretells_shown hrange hε] at hforest
      rw [nextAfter_node (Tree.IsDerivation.children_ne_nil hlabels)]
      exact foretells_lhs hp hforest

/-- **Lookahead**: what comes next before complete derivation trees is foretold by their roots. -/
theorem lookahead_of_forest (hε : g.isNonTerminal epsilon = false) {trees : List Tree}
    (h : ∀ t ∈ trees, t.IsComplete g) (following : Symbol) :
    Foretells (compute g).first (trees.map Tree.label) (nextAfter trees following) following :=
  foretells_forest trees following fun t ht => foretells_tree hε (h t ht)

/-- What the symbols behind a non-terminal in a body begin with may follow it, and what may follow
the body if they derive the empty word. -/
theorem mem_follow_of_body {r : Rule} (hr : r ∈ g.rules) {before after : List Symbol} {s : Symbol}
    (hsplit : r.body = before ++ s :: after) (hs : g.isNonTerminal s = true) {next : Symbol}
    (h : (next ∈ firstOfSequence (compute g).first after ∧ next ≠ epsilon) ∨
      (epsilon ∈ firstOfSequence (compute g).first after ∧
        next ∈ setOf (compute g).follow r.lhs)) :
    next ∈ setOf (compute g).follow s := by
  obtain ⟨p, hp, rfl⟩ := Grammar.exists_production hr
  rw [Rule.body, List.filter_eq_append_iff] at hsplit
  obtain ⟨left, right, hrhs, -, hright⟩ := hsplit
  rw [List.filter_eq_cons_iff] at hright
  obtain ⟨markers, trailer, rfl, -, -, rfl⟩ := hright
  have hoccurrence : p.rhs = (left ++ markers) ++ s :: trailer := by
    rw [hrhs, List.append_assoc]
  apply holds_compute_follow hp hoccurrence hs
  exact h.imp (And.imp_left (mem_firstOfSequence_of_filter trailer))
    (And.imp_left (mem_firstOfSequence_of_filter trailer))

/-- What is foretold behind a non-terminal in a body may follow it. -/
theorem mem_follow_of_foretells {r : Rule} (hr : r ∈ g.rules) {before after : List Symbol}
    {s : Symbol} (hsplit : r.body = before ++ s :: after) (hs : g.isNonTerminal s = true)
    {next following : Symbol} (hfollowing : following ∈ setOf (compute g).follow r.lhs)
    (h : Foretells (compute g).first after next following) :
    next ∈ setOf (compute g).follow s := by
  apply mem_follow_of_body hr hsplit hs
  rcases h with h | ⟨hmem, rfl⟩
  · exact Or.inl h
  · exact Or.inr ⟨hmem, hfollowing⟩

/-- What comes after a child of a node may follow it. -/
theorem lookahead_mem_follow (hε : g.isNonTerminal epsilon = false) {r : Rule} (hr : r ∈ g.rules)
    {before after : List Tree} {t : Tree} (hbody : (before ++ t :: after).map Tree.label = r.body)
    (hafter : ∀ u ∈ after, u.IsComplete g) (ht : g.isNonTerminal t.label = true)
    {following : Symbol} (hfollowing : following ∈ setOf (compute g).follow r.lhs) :
    nextAfter after following ∈ setOf (compute g).follow t.label := by
  rw [List.map_append, List.map_cons] at hbody
  exact mem_follow_of_foretells hr hbody.symm ht hfollowing
    (lookahead_of_forest hε hafter following)

/-- A production predicts what its right-hand side begins with and, if that derives the empty word,
what may follow its left-hand side. -/
theorem mem_predicted {sets : FirstFollow} {p : Production} {x : Symbol} :
    x ∈ Table.predicted sets p ↔
      (x ∈ firstOfSequence sets.first p.rhs ∧ x ≠ epsilon) ∨
        (epsilon ∈ firstOfSequence sets.first p.rhs ∧ x ∈ setOf sets.follow p.lhs) := by
  have hfirst : x ∈ ((sets.ofSequence p.rhs).erase epsilon).toList ↔
      x ∈ firstOfSequence sets.first p.rhs ∧ x ≠ epsilon := SymbolSet.mem_erase
  rw [Table.predicted, List.mem_append, hfirst]
  apply or_congr Iff.rfl
  show (x ∈ if epsilon ∈ firstOfSequence sets.first p.rhs then _ else _) ↔ _
  split
  · next hε => exact (and_iff_right hε).symm
  · next hε => exact iff_of_false List.not_mem_nil fun h => hε h.1

/-- A production predicts terminals and the end marker. -/
theorem mem_predicted_cases {p : Production} (hp : p ∈ g.productions) {x : Symbol}
    (hx : x ∈ Table.predicted (compute g) p) : x ∈ g.terminals ∨ x = endMarker := by
  rcases mem_predicted.mp hx with ⟨hx, hε⟩ | ⟨-, hx⟩
  · have hrhs := fun s hs => Grammar.mem_rhs_cases (Grammar.toRule_mem_rules hp) (s := s) hs
    exact Or.inl (((firstInRange_compute g).mem_firstOfSequence hrhs hx).resolve_left hε)
  · exact ((followInRange_compute g).mem _ x hx).symm

/-- A production predicts what its right-hand side foretells before something that may follow. -/
theorem mem_predicted_of_foretells {p : Production} {next following : Symbol}
    (h : Foretells (compute g).first p.rhs next following)
    (hfollowing : following ∈ setOf (compute g).follow p.lhs) :
    next ∈ Table.predicted (compute g) p := by
  apply mem_predicted.mpr
  rcases h with h | ⟨hmem, rfl⟩
  · exact Or.inl h
  · exact Or.inr ⟨hmem, hfollowing⟩

/-- The production of a node predicts what comes next before the node. -/
theorem lookahead_mem_predicted (hε : g.isNonTerminal epsilon = false) {p : Production}
    {children : List Tree} (hlabels : children.map Tree.label = p.shown)
    (hchildren : ∀ t ∈ children, t.IsComplete g) {following : Symbol}
    (hfollowing : following ∈ setOf (compute g).follow p.lhs) :
    nextAfter children following ∈ Table.predicted (compute g) p := by
  have hforetells := lookahead_of_forest hε hchildren following
  rw [hlabels, foretells_shown (firstInRange_compute g) hε] at hforetells
  exact mem_predicted_of_foretells hforetells hfollowing

end TableParsing.FirstFollow
