import TableParsing.Proofs.FirstFollow.Soundness

/-!
# FIRST and FOLLOW are exact

The computed sets hold what their definitions by derivations say, and nothing else: the FIRST set
of a sequence what its derivations begin with (`isFirstSet_ofSequence`), and the FOLLOW set of a
non-terminal what stands right behind it in derived forms (`isFollowSet_compute`). The derivations
are those of arbitrary forms, so nothing is assumed of the non-terminals: they may call themselves
first, derive no word, or not be reached from the start symbol.

Both halves are there for FIRST (`sound_compute`, `mem_firstOfSequence_of_derives`), and FOLLOW goes
the same two ways. That its sets hold no more is shown clause by clause (`FollowSound.enlarge`).
That they hold no less is an induction on the derivation, which needs of the sets only that they
satisfy all clauses. For FIRST the derivation was undone from its end; here it is made from its
beginning, and what may come behind a symbol of a derived form is in the FOLLOW set of the symbol
(`mem_follow_of_derives`).
-/

namespace TableParsing

namespace Grammar

/-- Two non-terminals that begin with each other, a reached one that derives no word, and one that
is not reached. -/
def tangled : Grammar where
  rules :=
    [⟨"S", ["A", "A", "b"]⟩, ⟨"S", ["ε", "U"]⟩, ⟨"A", ["S", "a"]⟩, ⟨"A", ["ε"]⟩,
      ⟨"U", ["c", "U", "A"]⟩, ⟨"V", ["A", "d"]⟩]
  rules_ne_nil := List.cons_ne_nil _ _
  skipped := []

/-- The text of the tangled grammar. -/
theorem read_tangled :
    read "S -> A A b | ε U\nA -> S a |\nU -> c U A\nV -> A d" = .ok tangled := rfl

end Grammar

namespace FirstFollow

variable {g : Grammar} {u v : List Symbol} {s t x : Symbol}

/-! ## FIRST -/

/-- The set of what the derivations of a form begin with: the terminals in front of the forms that
are derived, and the empty marker for the empty word. -/
structure IsFirstSet (g : Grammar) (u : List Symbol) (set : SymbolSet) : Prop where
  /-- The terminals in the set. -/
  mem_iff : ∀ a ∈ g.terminals, a ∈ set ↔ ∃ v, g.Derives u (a :: v)
  /-- Whether the empty marker is in the set. -/
  epsilon_mem_iff : epsilon ∈ set ↔ g.Derives u []
  /-- There is nothing else in the set. -/
  mem_cases : ∀ x ∈ set, x ∈ g.terminals ∨ x = epsilon

/-- The computed FIRST set of a form. -/
theorem isFirstSet_firstOfSequence (hε : g.isNonTerminal epsilon = false) (hu : g.IsForm u) :
    IsFirstSet g u (firstOfSequence (compute g).first u) := by
  have hne : ∀ s ∈ u, s ≠ epsilon := fun s hs =>
    Grammar.ne_epsilon_of_isNonTerminal_or_mem_terminals hε (hu s hs)
  refine ⟨fun a ha => ⟨fun hmem => ?_, ?_⟩, ⟨fun hmem => ?_, fun hderives => ?_⟩, fun x hx => ?_⟩
  · have hbegins := (sound_compute hε).begins u hne hmem
    exact hbegins.exists_derives (Grammar.mem_terminals.mp ha).2.1
  · rintro ⟨v, hderives⟩
    exact mem_firstOfSequence_of_derives hderives (mem_firstOfSequence_self ha v)
  · exact ((sound_compute hε).begins u hne hmem).derives_nil
  · exact mem_firstOfSequence_of_derives hderives (SymbolSet.mem_singleton.mpr rfl)
  · exact ((firstInRange_compute g).mem_firstOfSequence (fun s hs => Or.inr (hu s hs)) hx).symm

/-- The empty marker is not a left-hand side of the grammar. Then the FIRST set of a sequence of
non-terminals, terminals and empty markers is that of what the sequence derives, and the FIRST sets
of the non-terminals are those of what they derive. -/
theorem isFirstSet_ofSequence (g : Grammar) (hε : epsilon ∉ g.nonTerminals) :
    (∀ symbols : List Symbol,
      (∀ s ∈ symbols, s ∈ g.terminals ∨ s ∈ g.nonTerminals ∨ s = epsilon) →
        IsFirstSet g (symbols.filter (· ≠ epsilon)) ((compute g).ofSequence symbols)) ∧
    ∀ s ∈ g.nonTerminals, ∃ set, (compute g).first.get? s = some set ∧ IsFirstSet g [s] set := by
  have hε' := Grammar.not_isNonTerminal_epsilon hε
  have hrange := firstInRange_compute g
  refine ⟨fun symbols hsymbols => ?_, fun s hs => ?_⟩
  · have hform : g.IsForm (symbols.filter (· ≠ epsilon)) := by
      intro s hs
      obtain ⟨hmem, hne⟩ := List.mem_filter.mp hs
      rcases hsymbols s hmem with hterminal | hn | rfl
      · exact Or.inr hterminal
      · exact Or.inl (Grammar.isNonTerminal_iff.mpr hn)
      · simp at hne
    have hsame : (compute g).ofSequence symbols =
        firstOfSequence (compute g).first (symbols.filter (· ≠ epsilon)) :=
      SymbolSet.ext_mem fun x => (mem_firstOfSequence_filter hrange hε' symbols).symm
    rw [hsame]
    exact isFirstSet_firstOfSequence hε' hform
  · have hn := Grammar.isNonTerminal_iff.mpr hs
    obtain ⟨set, hset⟩ := Option.isSome_iff_exists.mp (hrange.isSome s hn)
    have hsame : set = firstOfSequence (compute g).first [s] := SymbolSet.ext_mem fun x => by
      rw [mem_firstOfSequence_singleton, firstOf, hset, Option.getD_some]
    refine ⟨set, hset, ?_⟩
    rw [hsame]
    exact isFirstSet_firstOfSequence hε' fun t ht => Or.inl (List.mem_singleton.mp ht ▸ hn)

/-- In the tangled grammar two symbols and a marker derive nothing, or begin with what only derives
no word. -/
theorem isFirstSet_ofSequence_tangled :
    epsilon ∉ Grammar.tangled.nonTerminals ∧
    (∀ s ∈ ["A", "ε", "A"], s ∈ Grammar.tangled.terminals ∨ s ∈ Grammar.tangled.nonTerminals ∨
      s = epsilon) ∧
    ((compute .tangled).ofSequence ["A", "ε", "A"]).toList = ["b", "c", "ε"] ∧
    Grammar.tangled.Derives ["A", "A"] [] ∧ (∃ v, Grammar.tangled.Derives ["A", "A"] ("c" :: v)) ∧
    ¬ ∃ v, Grammar.tangled.Derives ["A", "A"] ("a" :: v) := by
  have hε : epsilon ∉ Grammar.tangled.nonTerminals := by decide +kernel
  have hsymbols : ∀ s ∈ ["A", "ε", "A"], s ∈ Grammar.tangled.terminals ∨
      s ∈ Grammar.tangled.nonTerminals ∨ s = epsilon := by decide +kernel
  have hset : ((compute .tangled).ofSequence ["A", "ε", "A"]).toList = ["b", "c", "ε"] := by
    decide +kernel
  have hfirst := (isFirstSet_ofSequence .tangled hε).1 _ hsymbols
  refine ⟨hε, hsymbols, hset, hfirst.epsilon_mem_iff.mp ?_,
    (hfirst.mem_iff "c" (by decide +kernel)).mp ?_, fun hderives => ?_⟩
  · rw [SymbolSet.mem_def, hset]
    decide
  · rw [SymbolSet.mem_def, hset]
    decide
  · have hmem := (hfirst.mem_iff "a" (by decide +kernel)).mpr hderives
    rw [SymbolSet.mem_def, hset] at hmem
    exact absurd hmem (by decide)

/-! ## FOLLOW holds no more -/

/-- What stands right behind a symbol in the forms that non-terminals derive. The end marker stands
behind what ends a form that the start symbol derives. -/
inductive Succeeds (g : Grammar) (s : Symbol) : Symbol → Prop
  | symbol {t : Symbol} (ht : g.isNonTerminal t = true) {before after : List Symbol} {x : Symbol}
      (hx : x ∈ g.terminals) (h : g.Derives [t] (before ++ s :: x :: after)) : Succeeds g s x
  | finish {before : List Symbol} (h : g.Derives [g.startSymbol] (before ++ [s])) :
      Succeeds g s endMarker

/-- What stands behind a symbol stands behind the last symbols that it derives. -/
theorem Succeeds.of_derives {before : List Symbol} (h : g.Derives [t] (before ++ [s]))
    (hx : Succeeds g t x) : Succeeds g s x := by
  cases hx with
  | @symbol t' ht' front after x hterminal h' =>
      have hwhole : g.Derives (front ++ t :: x :: after) (front ++ before ++ s :: x :: after) := by
        simpa using h.context front (x :: after)
      exact .symbol ht' hterminal (h'.trans hwhole)
  | @finish front h' =>
      have hwhole : g.Derives (front ++ [t]) (front ++ before ++ [s]) := by
        simpa using h.context front []
      exact .finish (h'.trans hwhole)

/-- FOLLOW sets that hold only what stands behind their symbols. -/
def FollowSound (g : Grammar) (follow : SetMap) : Prop :=
  ∀ s, ∀ x ∈ setOf follow s, Succeeds g s x

namespace FollowSound

/-- The FOLLOW sets are sound before any clause is used. -/
theorem initial (g : Grammar) : FollowSound g (Sets.initial g).follow := by
  intro s x hx
  rw [setOf, get?_initial_follow] at hx
  split at hx
  · rw [Option.getD_some] at hx
    split at hx
    · next hstart =>
        rw [SymbolSet.mem_singleton.mp hx, hstart]
        exact .finish (Grammar.Derives.refl ([] ++ [g.startSymbol]))
    · exact absurd hx (SymbolSet.not_mem_empty x)
  · exact absurd hx (SymbolSet.not_mem_empty x)

/-- What an occurrence of a non-terminal contributes stands behind it. -/
theorem of_contribution (hε : g.isNonTerminal epsilon = false) {sets : Sets}
    (hrange : FirstInRange g sets.first) (hfirst : Sound g sets.first)
    (h : FollowSound g sets.follow) {p : Production} (hp : p ∈ g.productions)
    {before trailer : List Symbol} (hsplit : p.rhs = before ++ s :: trailer)
    (hs : g.isNonTerminal s = true) (hx : x ∈ (Clause.follow p s trailer).contribution sets) :
    Succeeds g s x := by
  have hr := Grammar.toRule_mem_rules hp
  have hne : s ≠ epsilon := Grammar.ne_of_isNonTerminal hs hε
  -- The occurrence in the right-hand side is one in the body.
  have hbody : p.body = before.filter (· ≠ epsilon) ++ s :: trailer.filter (· ≠ epsilon) := by
    rw [Rule.body, hsplit, List.filter_append, List.filter_cons_of_pos (by simpa using hne)]
  have hrule : g.Derives [p.lhs]
      (before.filter (· ≠ epsilon) ++ [s] ++ trailer.filter (· ≠ epsilon)) := by
    rw [List.append_assoc, List.singleton_append, ← hbody]
    exact .of_rule hr
  have hbegins : ∀ y ∈ firstOfSequence sets.first trailer,
      Begins g (trailer.filter (· ≠ epsilon)) y := by
    intro y hy
    refine hfirst.begins _ (fun t ht => ?_) ((mem_firstOfSequence_filter hrange hε trailer).mpr hy)
    simpa using (List.mem_filter.mp ht).2
  rcases mem_contribution_follow.mp hx with ⟨hx, hxε⟩ | ⟨hnull, hx⟩
  · have hknown : ∀ t ∈ trailer, t = epsilon ∨ g.isNonTerminal t = true ∨ t ∈ g.terminals := by
      intro t ht
      apply Grammar.mem_rhs_cases hr
      rw [hsplit]
      exact List.mem_append_right _ (List.mem_cons_of_mem _ ht)
    have hterminal := hrange.mem_firstOfSequence hknown hx
    obtain ⟨v, hderives⟩ := (hbegins x hx).exists_derives hxε
    have hwhole := hrule.trans ((Grammar.Derives.refl _).append hderives)
    exact .symbol (Grammar.isNonTerminal_lhs hr) (hterminal.resolve_left hxε)
      (by simpa using hwhole)
  · have hwhole := hrule.trans ((Grammar.Derives.refl _).append (hbegins epsilon hnull).derives_nil)
    rw [List.append_nil] at hwhole
    exact (h p.lhs x hx).of_derives hwhole

/-- A clause for FOLLOW sets keeps them sound. -/
theorem enlarge (hε : g.isNonTerminal epsilon = false) {sets : Sets} {clause : Clause}
    (hc : clause ∈ followClauses g) (hrange : FirstInRange g sets.first)
    (hfirst : Sound g sets.first) (h : FollowSound g sets.follow) :
    FollowSound g (clause.enlarge sets).follow := by
  obtain ⟨p, hp, before, s, trailer, hsplit, hs, rfl⟩ := mem_followClauses.mp hc
  intro t x hx
  change x ∈ setOf (sets.follow.insert s _) t at hx
  rw [setOf_insert] at hx
  split at hx
  · next heq =>
      subst heq
      rcases SymbolSet.mem_union.mp hx with hx | hx
      · exact h s x hx
      · exact h.of_contribution hε hrange hfirst hp hsplit hs hx
  · exact h t x hx

end FollowSound

/-- The computed FOLLOW sets are sound. -/
theorem followSound_compute (hε : g.isNonTerminal epsilon = false) :
    FollowSound g (compute g).follow := by
  have hfirst : Sound g (firstSaturated g).first := (first_saturated g) ▸ sound_compute hε
  have hrange := (inRange_firstSaturated g).first
  refine ((growth_saturate (followClauses g) (passBound g) (firstSaturated g)).inv
    (fun sets => sets.first = (firstSaturated g).first ∧ FollowSound g sets.follow)
    (fun sets clause hc hin => ?_) ⟨rfl, (follow_firstSaturated g) ▸ .initial g⟩).2
  obtain ⟨p, -, -, s, trailer, -, -, rfl⟩ := mem_followClauses.mp hc
  exact ⟨hin.1, hin.2.enlarge hε hc (hin.1 ▸ hrange) (hin.1 ▸ hfirst)⟩

/-! ## FOLLOW holds no less -/

/-- What comes behind a symbol of a form that a non-terminal derives is in the FOLLOW set of the
symbol: what the rest of the form begins with, and what follows the non-terminal if the rest may be
empty. -/
theorem mem_follow_of_derives (h : g.Derives [t] u) :
    ∀ before s rest, u = before ++ s :: rest → g.isNonTerminal s = true →
      ((x ∈ firstOfSequence (compute g).first rest ∧ x ≠ epsilon) ∨
        (epsilon ∈ firstOfSequence (compute g).first rest ∧ x ∈ setOf (compute g).follow t)) →
      x ∈ setOf (compute g).follow s := by
  induction h with
  | refl =>
      intro before s rest hsplit _ hx
      obtain ⟨rfl, hsplit⟩ : before = [] ∧ [t] = s :: rest := by
        cases before with
        | nil => exact ⟨rfl, hsplit⟩
        | cons b before => simp at hsplit
      obtain ⟨rfl, rfl⟩ := List.cons_eq_cons.mp hsplit
      rcases hx with ⟨hx, hne⟩ | ⟨-, hx⟩
      · exact absurd (SymbolSet.mem_singleton.mp hx) hne
      · exact hx
  | tail _ hstep ih =>
      intro before s rest hsplit hs hx
      cases hstep with
      | @rewrite front behind r hr =>
          rw [List.append_assoc] at hsplit
          rcases Grammar.append_eq_append_cons hsplit with
            ⟨middle, rfl, rfl⟩ | ⟨middle, rfl, hbehind⟩
          · -- The symbol stands in front of the rewritten one.
            have hstep := Grammar.Step.rewrite (g := g) middle behind hr
            rw [List.append_assoc] at hstep
            refine ih before s (middle ++ r.lhs :: behind) (by simp) hs ?_
            exact hx.imp (And.imp_left (mem_firstOfSequence_of_step hstep))
              (And.imp_left (mem_firstOfSequence_of_step hstep))
          · rcases Grammar.append_eq_append_cons hbehind with
              ⟨after, hbody, rfl⟩ | ⟨others, rfl, rfl⟩
            · -- It stands in the body, and what is behind the body follows the left-hand side.
              have hlhs := ih front r.lhs behind rfl (Grammar.isNonTerminal_lhs hr)
              apply mem_follow_of_body hr hbody hs
              rw [mem_firstOfSequence_append_iff, mem_firstOfSequence_append_iff] at hx
              tauto
            · -- It stands behind the body.
              exact ih (front ++ r.lhs :: others) s rest (by simp) hs hx

/-! ## FOLLOW -/

/-- The set of what stands right behind a symbol: terminals in the forms that non-terminals derive,
and the end marker at the end of a form that the start symbol derives. -/
structure IsFollowSet (g : Grammar) (s : Symbol) (set : SymbolSet) : Prop where
  /-- The terminals in the set. -/
  mem_iff : ∀ a ∈ g.terminals, a ∈ set ↔
    ∃ t ∈ g.nonTerminals, ∃ before after, g.Derives [t] (before ++ s :: a :: after)
  /-- Whether the end marker is in the set. -/
  endMarker_mem_iff : endMarker ∈ set ↔ ∃ before, g.Derives [g.startSymbol] (before ++ [s])
  /-- There is nothing else in the set. -/
  mem_cases : ∀ x ∈ set, x ∈ g.terminals ∨ x = endMarker

/-- The computed FOLLOW set of a non-terminal. -/
theorem isFollowSet_setOf (hend : g.AvoidsEndMarker) (hε : g.isNonTerminal epsilon = false)
    (hs : g.isNonTerminal s = true) : IsFollowSet g s (setOf (compute g).follow s) := by
  refine ⟨fun a ha => ⟨fun hmem => ?_, ?_⟩, ⟨fun hmem => ?_, ?_⟩, fun x hx => ?_⟩
  · cases followSound_compute hε s a hmem with
    | symbol ht _ h => exact ⟨_, Grammar.isNonTerminal_iff.mp ht, _, _, h⟩
    | finish _ => exact absurd ha hend.not_mem_terminals
  · rintro ⟨t, -, before, after, hderives⟩
    exact mem_follow_of_derives hderives before s (a :: after) rfl hs
      (Or.inl ⟨mem_firstOfSequence_self ha after, (Grammar.mem_terminals.mp ha).2.1⟩)
  · generalize hx : endMarker = x at hmem
    cases followSound_compute hε s x hmem with
    | symbol _ hterminal _ => exact absurd (hx ▸ hterminal) hend.not_mem_terminals
    | finish h => exact ⟨_, h⟩
  · rintro ⟨before, hderives⟩
    exact mem_follow_of_derives hderives before s [] rfl hs
      (Or.inr ⟨SymbolSet.mem_singleton.mpr rfl, (followInRange_compute g).start⟩)
  · exact ((followInRange_compute g).mem s x hx).symm

/-- A grammar is read from a text, and the empty marker is not one of its left-hand sides. Then the
FOLLOW sets of the non-terminals are those of what stands behind them in derived forms. They hold
neither the empty marker nor a non-terminal. -/
theorem isFollowSet_compute {text : String} (hread : Grammar.read text = .ok g)
    (hε : epsilon ∉ g.nonTerminals) :
    ∀ s ∈ g.nonTerminals, ∃ set, (compute g).follow.get? s = some set ∧ IsFollowSet g s set ∧
      epsilon ∉ set ∧ ∀ t ∈ g.nonTerminals, t ∉ set := by
  have hend := Grammar.avoidsEndMarker_of_read hread
  have hε' := Grammar.not_isNonTerminal_epsilon hε
  intro s hs
  have hn := Grammar.isNonTerminal_iff.mpr hs
  obtain ⟨set, hset⟩ :=
    Option.isSome_iff_exists.mp (((followInRange_compute g).isSome_iff s).mpr hn)
  have hfollow := isFollowSet_setOf hend hε' hn
  rw [setOf, hset, Option.getD_some] at hfollow
  refine ⟨set, hset, hfollow, fun hmem => ?_, fun t ht hmem => ?_⟩
  · rcases hfollow.mem_cases epsilon hmem with hterminal | hmarker
    · exact (Grammar.mem_terminals.mp hterminal).2.1 rfl
    · exact absurd hmarker (by decide)
  · have ht' := Grammar.isNonTerminal_iff.mpr ht
    rcases hfollow.mem_cases t hmem with hterminal | rfl
    · exact Grammar.not_mem_terminals_of_isNonTerminal ht' hterminal
    · exact Grammar.ne_of_isNonTerminal ht' hend.not_isNonTerminal rfl

/-- In the tangled grammar a symbol is followed by what comes only where the start symbol does not
lead, and not by its own first symbols alone. -/
theorem isFollowSet_compute_tangled :
    Grammar.read "S -> A A b | ε U\nA -> S a |\nU -> c U A\nV -> A d" = .ok .tangled ∧
    epsilon ∉ Grammar.tangled.nonTerminals ∧
    ((compute .tangled).follow.get? "A").map SymbolSet.toList =
      some ["$", "a", "b", "c", "d"] ∧
    (∃ before, Grammar.tangled.Derives ["S"] (before ++ ["A"])) ∧
    ∃ t ∈ Grammar.tangled.nonTerminals, ∃ before after,
      Grammar.tangled.Derives [t] (before ++ "A" :: "d" :: after) := by
  have hε : epsilon ∉ Grammar.tangled.nonTerminals := by decide +kernel
  have hlist : ((compute .tangled).follow.get? "A").map SymbolSet.toList =
      some ["$", "a", "b", "c", "d"] := by decide +kernel
  obtain ⟨set, hset, hfollow, -⟩ :=
    isFollowSet_compute Grammar.read_tangled hε "A" (by decide +kernel)
  rw [hset, Option.map_some, Option.some.injEq] at hlist
  refine ⟨Grammar.read_tangled, hε, ?_, hfollow.endMarker_mem_iff.mp ?_,
    (hfollow.mem_iff "d" (by decide +kernel)).mp ?_⟩
  · rw [hset, Option.map_some, hlist]
  · rw [SymbolSet.mem_def, hlist]
    decide
  · rw [SymbolSet.mem_def, hlist]
    decide

end FirstFollow

end TableParsing
