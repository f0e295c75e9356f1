import TableParsing.Proofs.Derivation.Sentences
import TableParsing.Proofs.FirstFollow.Lookahead

/-!
# What FIRST sets promise

A FIRST set holds nothing but symbols with which something that is derived begins, and the empty
marker only where the empty word is derived (`Begins`). The property holds before any clause is
used, and a clause carries it from the body of a production to its left-hand side
(`Sound.enlarge`).

Nothing of this kind is missing from the computed sets. A derivation may be undone from its end, and
a step backwards keeps what a form begins with, since all clauses hold
(`mem_firstOfSequence_of_step`).

Together with `lookahead_of_forest` this says exactly what `Foretells` means in a grammar whose
non-terminals all derive words: the next symbol is the first one of a word that the sequence
derives, with the input behind it (`foretells_iff`).
-/

namespace TableParsing.FirstFollow

variable {g : Grammar} {first : SetMap} {u : List Symbol} {x : Symbol}

/-- What the derivations of a form may begin with; the empty marker stands for the empty word. -/
inductive Begins (g : Grammar) (u : List Symbol) : Symbol → Prop
  | symbol {x : Symbol} (hne : x ≠ epsilon) {v : List Symbol} (h : g.Derives u (x :: v)) :
      Begins g u x
  | empty (h : g.Derives u []) : Begins g u epsilon

namespace Begins

/-- What the empty marker stands for. -/
theorem derives_nil (h : Begins g u epsilon) : g.Derives u [] := by
  cases h with
  | symbol hne _ => exact absurd rfl hne
  | empty h => exact h

/-- Any other symbol is the first one of a derived form. -/
theorem exists_derives (h : Begins g u x) (hne : x ≠ epsilon) : ∃ v, g.Derives u (x :: v) := by
  cases h with
  | symbol _ h => exact ⟨_, h⟩
  | empty => exact absurd rfl hne

/-- What is derived first may be derived on. -/
theorem of_derives {v : List Symbol} (hderives : g.Derives u v) (h : Begins g v x) :
    Begins g u x := by
  cases h with
  | symbol hne h => exact .symbol hne (hderives.trans h)
  | empty h => exact .empty (hderives.trans h)

/-- What a symbol begins with, a form with that symbol in front does. -/
theorem cons_of_ne {s : Symbol} (h : Begins g [s] x) (hne : x ≠ epsilon) (rest : List Symbol) :
    Begins g (s :: rest) x := by
  obtain ⟨v, hderives⟩ := h.exists_derives hne
  have hwhole := hderives.append (.refl rest)
  exact .symbol hne hwhole

/-- A symbol that derives the empty word lets the rest begin. -/
theorem cons_of_derives_nil {s : Symbol} (h : g.Derives [s] []) {rest : List Symbol}
    (hrest : Begins g rest x) : Begins g (s :: rest) x := by
  have hwhole := h.append (.refl rest)
  exact of_derives hwhole hrest

end Begins

/-- FIRST sets that hold only what their symbols may begin with. -/
def Sound (g : Grammar) (first : SetMap) : Prop :=
  ∀ s, s ≠ epsilon → ∀ x ∈ firstOf first s, Begins g [s] x

namespace Sound

/-- A sequence begins with what its FIRST set holds. -/
theorem begins (h : Sound g first) :
    (symbols : List Symbol) → (∀ s ∈ symbols, s ≠ epsilon) →
      x ∈ firstOfSequence first symbols → Begins g symbols x
  | [], _, hx => by
      rw [SymbolSet.mem_singleton.mp hx]
      exact .empty (.refl [])
  | s :: rest, hne, hx => by
      have hs := hne s List.mem_cons_self
      rcases mem_firstOfSequence_cons.mp hx with ⟨hx, hxε⟩ | ⟨hε, hx⟩
      · exact (h s hs x hx).cons_of_ne hxε rest
      · have hrest := h.begins rest (fun t ht => hne t (List.mem_cons_of_mem _ ht)) hx
        exact hrest.cons_of_derives_nil (h s hs epsilon hε).derives_nil

/-- A symbol begins with itself. -/
theorem begins_self {s : Symbol} (hs : s ≠ epsilon) (hx : x ∈ SymbolSet.singleton s) :
    Begins g [s] x := by
  rw [SymbolSet.mem_singleton.mp hx]
  exact .symbol hs (.refl [s])

/-- The FIRST sets are sound before any clause is used. -/
theorem initial (g : Grammar) : Sound g (Sets.initial g).first := by
  intro s hs x hx
  unfold firstOf at hx
  rw [get?_initial_first, if_neg hs] at hx
  split at hx
  · exact begins_self hs hx
  · split at hx
    · exact absurd hx (SymbolSet.not_mem_empty x)
    · exact begins_self hs hx

/-- A clause for FIRST sets keeps them sound. -/
theorem enlarge (hε : g.isNonTerminal epsilon = false) {sets : Sets} {clause : Clause}
    (hc : clause ∈ firstClauses g) (hrange : FirstInRange g sets.first)
    (h : Sound g sets.first) : Sound g (clause.enlarge sets).first := by
  obtain ⟨p, hp, rfl⟩ := mem_firstClauses.mp hc
  intro s hs x hx
  change x ∈ firstOf (sets.first.insert p.lhs _) s at hx
  unfold firstOf at hx
  rw [OrderedMap.get?_insert] at hx
  split at hx
  · next heq =>
      subst heq
      rcases SymbolSet.mem_union.mp hx with hx | hx
      · exact h p.lhs hs x (mem_firstOf_of_mem_setOf hx)
      · -- The contribution of the clause is the FIRST set of the body.
        have hbody := (mem_firstOfSequence_filter hrange hε p.rhs).mpr hx
        have hbegins := h.begins p.body (fun t ht => Rule.ne_epsilon_of_mem_body ht) hbody
        exact hbegins.of_derives (.of_rule (Grammar.toRule_mem_rules hp))
  · exact h s hs x hx

end Sound

/-- The computed FIRST sets are sound. -/
theorem sound_compute (hε : g.isNonTerminal epsilon = false) : Sound g (compute g).first := by
  have hgrowth := growth_saturate (firstClauses g) (passBound g) (Sets.initial g)
  have hinv := hgrowth.inv (fun sets => FirstInRange g sets.first ∧ Sound g sets.first)
    (fun sets clause hc hin => ⟨hin.1.enlarge hc, hin.2.enlarge hε hc hin.1⟩)
    ⟨.initial g, .initial g⟩
  show Sound g (saturated g).first
  rw [first_saturated g]
  exact hinv.2

/-! ## Steps backwards -/

/-- A step of a derivation adds nothing to a FIRST set. -/
theorem mem_firstOfSequence_of_step {v : List Symbol} (hstep : g.Step u v)
    (hx : x ∈ firstOfSequence (compute g).first v) : x ∈ firstOfSequence (compute g).first u := by
  cases hstep with
  | @rewrite before after r hr =>
      obtain ⟨p, hp, rfl⟩ := Grammar.exists_production hr
      have hlhs : ∀ y ∈ firstOfSequence (compute g).first p.body,
          y ∈ firstOf (compute g).first p.lhs := fun y hy =>
        holds_compute_first hp y (mem_firstOfSequence_of_filter p.rhs hy)
      rw [List.append_assoc, mem_firstOfSequence_append_iff] at hx
      rw [mem_firstOfSequence_append_iff, mem_firstOfSequence_cons]
      refine hx.imp_right (And.imp_right fun hx => ?_)
      rcases (mem_firstOfSequence_append_iff p.body).mp hx with ⟨hx, hne⟩ | ⟨hε, hx⟩
      · exact Or.inl ⟨hlhs x hx, hne⟩
      · exact Or.inr ⟨hlhs epsilon hε, hx⟩

/-- A form begins with what the forms that it derives begin with. -/
theorem mem_firstOfSequence_of_derives {v : List Symbol} (h : g.Derives u v)
    (hx : x ∈ firstOfSequence (compute g).first v) : x ∈ firstOfSequence (compute g).first u := by
  induction h using Relation.ReflTransGen.head_induction_on with
  | refl => exact hx
  | head hstep _ ih => exact mem_firstOfSequence_of_step hstep ih

/-- Behind symbols that derive the empty word a form begins with what is there. -/
theorem mem_firstOfSequence_of_nulls {nulls rest : List Symbol} (hnulls : g.Derives nulls [])
    (hx : x ∈ firstOfSequence (compute g).first rest) :
    x ∈ firstOfSequence (compute g).first (nulls ++ rest) :=
  mem_firstOfSequence_of_derives (hnulls.append (.refl rest)) hx

/-- A form with a terminal in front begins with the terminal. -/
theorem mem_firstOfSequence_self (hx : x ∈ g.terminals) (rest : List Symbol) :
    x ∈ firstOfSequence (compute g).first (x :: rest) := by
  obtain ⟨-, hne, hn⟩ := Grammar.mem_terminals.mp hx
  refine mem_firstOfSequence_cons.mpr (Or.inl ⟨?_, hne⟩)
  rw [(firstInRange_compute g).other x hn]
  exact SymbolSet.mem_singleton.mpr rfl

/-! ## Foretelling -/

/-- The word that a form derives, with the input behind it, shows what the form foretells. -/
theorem foretells_of_derives (hε : g.isNonTerminal epsilon = false) {symbols v : List Symbol}
    (hv : g.IsWord v) (hderives : g.Derives symbols v) (following : Symbol) :
    Foretells (compute g).first symbols (v.headD following) following := by
  obtain ⟨trees, htrees, rfl, rfl⟩ := Grammar.exists_forest_of_derives hε hv hderives
  have hforetells := lookahead_of_forest hε htrees following
  unfold nextAfter at hforetells
  cases hyield : trees.flatMap Tree.yield with
  | nil => simpa [hyield] using hforetells
  | cons s rest => simpa [hyield] using hforetells

/-- Where every non-terminal derives a word, no FIRST set is empty. -/
theorem eachBegins_of_productive (hε : g.isNonTerminal epsilon = false)
    (hproductive : g.Productive) : EachBegins g := by
  intro s hs hempty
  obtain ⟨w, hw, hderives⟩ := hproductive s hs
  have hsome := (firstInRange_compute g).isSome s (Grammar.isNonTerminal_iff.mpr hs)
  have hforetells := foretells_of_derives hε hw hderives epsilon
  unfold Foretells at hforetells
  rw [mem_firstOfSequence_singleton, mem_firstOfSequence_singleton, firstOf_eq_setOf hsome,
    hempty] at hforetells
  rcases hforetells with ⟨hmem, -⟩ | ⟨hmem, -⟩
  · exact SymbolSet.not_mem_empty _ hmem
  · exact SymbolSet.not_mem_empty _ hmem

/-- What a form foretells is shown by a word that it derives, with the input behind it. -/
theorem exists_derives_of_foretells (hε : g.isNonTerminal epsilon = false)
    (hproductive : g.Productive) {symbols : List Symbol} (hform : g.IsForm symbols)
    {next following : Symbol} (h : Foretells (compute g).first symbols next following) :
    ∃ v, g.IsWord v ∧ g.Derives symbols v ∧ next = v.headD following := by
  have hne : ∀ s ∈ symbols, s ≠ epsilon := fun s hs =>
    Grammar.ne_epsilon_of_isNonTerminal_or_mem_terminals hε (hform s hs)
  rcases h with ⟨hmem, hnext⟩ | ⟨hmem, rfl⟩
  · have hterminal := ((firstInRange_compute g).mem_firstOfSequence
      (fun s hs => Or.inr (hform s hs)) hmem).resolve_left hnext
    have hbegins := (sound_compute hε).begins symbols hne hmem
    obtain ⟨u, hderives⟩ := hbegins.exists_derives hnext
    -- What comes after the next symbol derives a word.
    have hu : g.IsForm u := fun s hs => (hform.derives hderives) s (List.mem_cons_of_mem _ hs)
    obtain ⟨v, hv, hrest⟩ := hproductive.exists_word u hu
    refine ⟨next :: v, ?_, hderives.trans ((Grammar.Derives.refl [next]).append hrest), rfl⟩
    intro s hs
    rcases List.mem_cons.mp hs with rfl | hs
    · exact hterminal
    · exact hv s hs
  · have hnil := ((sound_compute hε).begins symbols hne hmem).derives_nil
    exact ⟨[], Grammar.isWord_nil, hnil, rfl⟩

/-- **What a form foretells**: the first symbols of the words that it derives, and what follows it
if it derives the empty word. -/
theorem foretells_iff (hε : g.isNonTerminal epsilon = false) (hproductive : g.Productive)
    {symbols : List Symbol} (hform : g.IsForm symbols) {next following : Symbol} :
    Foretells (compute g).first symbols next following ↔
      ∃ v, g.IsWord v ∧ g.Derives symbols v ∧ next = v.headD following := by
  constructor
  · intro h
    exact exists_derives_of_foretells hε hproductive hform h
  · rintro ⟨v, hv, hderives, rfl⟩
    exact foretells_of_derives hε hv hderives following

end TableParsing.FirstFollow
