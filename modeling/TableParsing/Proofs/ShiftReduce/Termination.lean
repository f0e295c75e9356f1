import TableParsing.Proofs.Machine.Halting
import TableParsing.Proofs.Simulation.ErrorPosition

/-!
# The shift-reduce machine ends its runs

On the table of the LR(1) collection of a grammar whose non-terminals all derive words, and without
conflicts in the table, every run of the machine ends by itself (`shiftReduce_exists_bound`).

Reductions need not make the stack smaller: one for an empty body puts a symbol on it. What makes
them come to an end is that they are made for the sake of the next symbol. The lookahead of an item
is the next symbol of a word with which some sentence goes on behind the consumed tokens
(`Recognised.exists_isSentence_of_reduce`). The machine accepts this sentence, and it makes the same
reductions on it as on the input, until it reads the symbol. So it ends on the input as well or
reads the symbol there (`Recognised.exists_shorter_or_end`), and the input gets shorter.
-/

namespace TableParsing.ShiftReduce

open Collection FirstFollow

variable {g : Grammar} {collection : Collection} {tokens consumed : List Symbol} {c : Config}

/-- The input of a recognition is not used up. -/
theorem Recognised.input_ne_nil (h : Recognised g collection.states tokens consumed c) :
    c.input ≠ [] := by
  obtain ⟨rest, -, hinput⟩ := h.input
  rw [hinput]
  simp

section reductions

variable (hend : g.AvoidsEndMarker) (hε : g.isNonTerminal epsilon = false)
  (hproductive : g.Productive) (hbuilt : Built g .lr1 collection)
include hε hproductive hbuilt

/-- If the machine finds a reduction, some sentence begins with the consumed tokens and goes on with
the next symbol of the input. -/
theorem Recognised.exists_isSentence_of_reduce
    (h : Recognised g collection.states tokens consumed c) {p : Production}
    (hfound : found collection.table endMarker c = some (.reduce p)) :
    ∃ w, g.IsSentence (consumed ++ w) ∧ w.headD endMarker = c.input.headD endMarker := by
  obtain ⟨-, lookahead, hholds, hmay⟩ := hbuilt.of_reduce hfound
  have hvalid := valid_of_holds hε hproductive hbuilt.linked h.isPath.leads _ hholds
  obtain ⟨r, place, w, hw, hitem, hderives⟩ := hvalid.exists_word hε
  obtain ⟨-, hbody, rfl, rfl⟩ := Item.dotted_inj.mp hitem
  rw [← hbody, List.drop_length, List.nil_append] at hderives
  have hsentence : g.Derives [g.startSymbol] (consumed ++ w) :=
    hderives.trans ((h.derives_consumed hbuilt.linked hε).append (.refl w))
  refine ⟨w, ⟨hsentence, ?_⟩, ?_⟩
  · refine (g.isForm_startSymbol.derives hsentence).isWord fun s hs => ?_
    rcases List.mem_append.mp hs with hs | hs
    · exact h.not_isNonTerminal s hs
    · exact hw.not_isNonTerminal s hs
  · rw [decide_eq_true rfl, lookaheadOf_true] at hmay
    exact Option.some.inj hmay

variable (hclean : collection.table.conflicts = [])
include hend hclean

/-- If the machine finds a reduction, it ends or reads the next symbol. -/
theorem Recognised.exists_shorter_or_end {n : Nat}
    (hsteps : Machine.Steps (ShiftReduce.step collection.table endMarker) n
      (Config.initial (tokens ++ [endMarker])) c)
    (h : Recognised g collection.states tokens consumed c) {p : Production}
    (hfound : found collection.table endMarker c = some (.reduce p)) :
    ∃ k c', Machine.Steps (ShiftReduce.step collection.table endMarker) k c c' ∧
      ((ShiftReduce.step collection.table endMarker c').move.outcome?.isSome ∨
        c'.input = c.input.tail) := by
  have hreads := (readsOne_step collection.table endMarker).toReadsOn
  obtain ⟨w, hsentence, hnext⟩ := h.exists_isSentence_of_reduce hε hproductive hbuilt hfound
  obtain ⟨t, xs, hinput⟩ := List.exists_cons_of_ne_nil h.input_ne_nil
  obtain ⟨ys, hword⟩ : ∃ ys, w ++ [endMarker] = t :: ys := by
    rw [hinput, List.headD_cons] at hnext
    cases w with
    | nil => exact ⟨[], by rw [← hnext]; rfl⟩
    | cons s w => exact ⟨w ++ [endMarker], by rw [← hnext]; rfl⟩
  obtain ⟨m, d, haccepting, ho⟩ :=
    exists_accepting_steps hend hε (by decide) hbuilt hclean hsentence
  rw [List.append_assoc, hword] at haccepting
  have hbegin : (Config.initial (tokens ++ [endMarker])).input = consumed ++ t :: xs := by
    obtain ⟨rest, rfl, hrest⟩ := h.input
    rw [← hinput, hrest, ← List.append_assoc]
    rfl
  -- The run on the sentence makes the same steps up to here, and then it ends.
  have hsame := hreads.steps_withInput hsteps hinput ys consumed hbegin
  have hends : (ShiftReduce.step collection.table endMarker d).move.outcome?.isSome := by
    rw [ho]
    rfl
  obtain ⟨k, hrest⟩ := hsame.exists_rest haccepting hends
  rw [hinput, List.tail_cons]
  exact hreads.exists_read_or_end hrest hends hinput

/-- The machine ends or makes the input shorter. -/
theorem exists_shorter_or_halts {n : Nat}
    (hsteps : Machine.Steps (step collection.table endMarker) n
      (Config.initial (tokens ++ [endMarker])) c) :
    Machine.Halts (step collection.table endMarker) c ∨
      ∃ k c', Machine.Steps (step collection.table endMarker) k c c' ∧
        c'.input.length < c.input.length := by
  have hstep : ∀ c, (∃ consumed, Recognised g collection.states tokens consumed c) →
      (step collection.table endMarker c).move.outcome? = none →
      ∃ consumed, Recognised g collection.states tokens consumed
        (step collection.table endMarker c).config :=
    fun c ⟨_, h⟩ _ => h.step hbuilt hend hε
  obtain ⟨consumed, h⟩ := hsteps.inv hstep ⟨[], .initial g _ tokens⟩
  have hpos := List.length_pos_iff.mpr h.input_ne_nil
  have heffect := step_effect collection.table endMarker c
  generalize hmoment : step collection.table endMarker c = moment at heffect
  cases heffect with
  | underflow | gotoError | accept | unfinished | noTransition | invalidAction =>
      exact Or.inl (.of_outcome (by rw [hmoment]; rfl) (by decide))
  | shifted =>
      refine Or.inr ⟨1, _, .single hmoment rfl, ?_⟩
      simpa using hpos
  | reduced hfound =>
      obtain ⟨k, c', hrest, ho | hinput⟩ :=
        h.exists_shorter_or_end hend hε hproductive hbuilt hclean hsteps hfound
      · obtain ⟨o, ho⟩ := Option.isSome_iff_exists.mp ho
        exact Or.inl (.of_steps hrest (.of_outcome ho (outcome_ne_stepLimit ho)))
      · refine Or.inr ⟨k, c', hrest, ?_⟩
        simpa [hinput] using hpos

/-- Every run ends by itself. -/
theorem halts (tokens : List Symbol) :
    Machine.Halts (step collection.table endMarker) (Config.initial (tokens ++ [endMarker])) := by
  refine Machine.halts_of_progress (fun c => c.input.length) fun n c hsteps => ?_
  exact exists_shorter_or_halts hend hε hproductive hbuilt hclean hsteps

end reductions

/-! ## The theorem -/

/-- A grammar is read from a text in which the empty marker is not a left-hand side, and every
non-terminal derives a word. Then the LR(1) collection can be built, and if its table has no
conflicts, for all tokens there is a bound, and no run of the machine that permits as many steps
ends at the limit. -/
theorem shiftReduce_exists_bound {text : String} (hread : Grammar.read text = .ok g)
    (hε : epsilon ∉ g.nonTerminals) (hproductive : g.Productive) :
    ∃ collection, Collection.build g (compute g) .lr1 = .ok collection ∧
      (collection.table.conflicts = [] → ∀ tokens : List Symbol, ∃ bound : Int, ∀ maxSteps,
        bound ≤ maxSteps →
          (parse collection.table tokens ⟨maxSteps, endMarker⟩).outcome ≠ .stepLimit) := by
  have hend := Grammar.avoidsEndMarker_of_read hread
  have hε' := Grammar.not_isNonTerminal_epsilon hε
  obtain ⟨collection, hbuild, hbuilt⟩ :=
    exists_built g (show Algorithm.lr1 ∈ Algorithm.shiftReduce by decide)
  refine ⟨collection, hbuild, fun hclean tokens => ?_⟩
  obtain ⟨bound, hbound⟩ := (halts hend hε' hproductive hbuilt hclean tokens).exists_bound
  exact ⟨bound, fun maxSteps h => hbound maxSteps endMarker h⟩

/-- The machine does not go on for ever where nested brackets are not closed. -/
theorem shiftReduce_exists_bound_nested :
    epsilon ∉ Grammar.nested.nonTerminals ∧ Grammar.nested.Productive ∧
    ∃ collection, Collection.build .nested (compute .nested) .lr1 = .ok collection ∧
      collection.table.conflicts = [] ∧ ∃ bound : Int, ∀ maxSteps, bound ≤ maxSteps →
        (parse collection.table ["a", "a", "b"] ⟨maxSteps, endMarker⟩).outcome ≠ .stepLimit := by
  have hε : epsilon ∉ Grammar.nested.nonTerminals := by decide +kernel
  obtain ⟨collection, hbuild, h⟩ :=
    shiftReduce_exists_bound Grammar.read_nested hε Grammar.productive_nested
  have hcount : (Collection.build .nested (compute .nested) .lr1).toOption.map (fun c =>
      c.table.conflicts.length) = some 0 := by decide +kernel
  rw [hbuild] at hcount
  have hclean := List.length_eq_zero_iff.mp (Option.some.inj hcount)
  exact ⟨hε, Grammar.productive_nested, collection, hbuild, hclean, h hclean _⟩

end TableParsing.ShiftReduce
