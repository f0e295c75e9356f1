import TableParsing.Proofs.Collection.Validity
import TableParsing.Proofs.Predictive.Completeness
import TableParsing.Proofs.ShiftReduce.Completeness
import TableParsing.Proofs.ShiftReduce.Soundness

/-!
# Where errors are found

In a grammar whose non-terminals all derive words, what a machine has consumed is at any time the
beginning of a sentence (`Viable`), whatever the conflicts of its table: the symbols on the stack of
the shift-reduce machine are viable prefixes (`Recognised.exists_isSentence`), and the predictive
machine makes a leftmost derivation. On a table without conflicts or overwritten cells a machine
that ends with an error does so at the first possible symbol: no sentence begins with the consumed
tokens and the next one (`Dead`).

The second half compares two runs. If a sentence began with the consumed tokens and the next one,
the machine would accept it; but up to the error it makes the same steps on this sentence, because
it has not seen anything behind the next symbol (`noContinuation_of_outcome`).
-/

namespace TableParsing

open FirstFollow

/-! ## Prefixes of sentences -/

namespace Grammar

/-- The consumed tokens are the beginning of a sentence. -/
def Viable (g : Grammar) (tokens input : List Symbol) : Prop :=
  ∃ consumed rest, tokens = consumed ++ rest ∧ input = rest ++ [endMarker] ∧
    ∃ v, g.IsSentence (consumed ++ v)

/-- No sentence begins with some tokens and the next one; if there is no next one, they are no
sentence. -/
def NoContinuation (g : Grammar) (consumed : List Symbol) : List Symbol → Prop
  | [] => ¬ g.IsSentence consumed
  | next :: _ => ∀ w, g.IsSentence w → ¬ consumed ++ [next] <+: w

/-- No sentence begins with the consumed tokens and the next one. -/
def Dead (g : Grammar) (tokens input : List Symbol) : Prop :=
  ∃ consumed rest, tokens = consumed ++ rest ∧ input = rest ++ [endMarker] ∧
    g.NoContinuation consumed rest

end Grammar

/-! ## Two runs -/

namespace Machine

variable {σ : Type} {step : σ → Moment σ} {input : σ → List Symbol}
  {withInput : σ → List Symbol → σ} {start : List Symbol → σ} {g : Grammar}
  (hreads : ReadsOne step input withInput) (hinput : ∀ xs, input (start xs) = xs)
  (hstart : ∀ xs ys, withInput (start xs) ys = start ys)
  (haccepts : ∀ w, g.IsSentence w → ∃ n c, Steps step n (start (w ++ [endMarker])) c ∧
    (step c).move.outcome? = some .accepted)
include hreads hinput hstart haccepts

/-- A machine that accepts every sentence ends otherwise only if no sentence goes on like its
input. -/
theorem noContinuation_of_outcome {consumed rest : List Symbol} {n : Nat} {c : σ} {o : Outcome}
    (hsteps : Steps step n (start (consumed ++ rest ++ [endMarker])) c)
    (hrest : input c = rest ++ [endMarker]) (ho : (step c).move.outcome? = some o)
    (hne : o ≠ .accepted) : g.NoContinuation consumed rest := by
  cases rest with
  | nil =>
      intro hsentence
      obtain ⟨m, d, haccepting, ho'⟩ := haccepts consumed hsentence
      rw [List.append_nil] at hsteps
      exact hne (hsteps.outcome_unique ho haccepting ho')
  | cons next rest =>
      rintro _ hsentence ⟨v, rfl⟩
      obtain ⟨m, d, haccepting, ho'⟩ := haccepts _ hsentence
      have hother : Steps step m (withInput (start (consumed ++ next :: rest ++ [endMarker]))
          (consumed ++ next :: (v ++ [endMarker]))) d := by
        rw [hstart]
        simpa using haccepting
      have hbegin : input (start (consumed ++ next :: rest ++ [endMarker])) =
          consumed ++ next :: (rest ++ [endMarker]) := by
        rw [hinput]
        simp
      exact hne (hreads.outcome_eq hsteps (by simp) (by simp) hbegin hrest ho hother ho')

/-- A run that ends with an error ends where no sentence goes on. -/
theorem dead_of_error {tokens : List Symbol} {limit : Nat}
    (hviable : ∀ moment ∈ trace step limit (start (tokens ++ [endMarker])),
      g.Viable tokens (input moment.config))
    (hne : outcome (trace step limit (start (tokens ++ [endMarker]))) ≠ .accepted)
    (hlimit : outcome (trace step limit (start (tokens ++ [endMarker]))) ≠ .stepLimit) :
    ∃ last, (trace step limit (start (tokens ++ [endMarker]))).getLast? = some last ∧
      g.Dead tokens (input last.config) := by
  obtain ⟨n, c, hsteps, hlast, ho⟩ := exists_last_step hlimit
  refine ⟨step c, hlast, ?_⟩
  obtain ⟨consumed, rest, rfl, hrest, -⟩ := hviable (step c) (List.mem_of_getLast? hlast)
  refine ⟨consumed, rest, rfl, hrest, ?_⟩
  rw [hreads.input_of_outcome c _ ho] at hrest
  exact noContinuation_of_outcome hreads hinput hstart haccepts hsteps hrest ho hne

end Machine

/-! ## The shift-reduce machine -/

namespace ShiftReduce

open Collection

variable {g : Grammar} {algorithm : Algorithm} {collection : Collection} {hasLookahead : Bool}
  {states : List State} {tokens consumed : List Symbol} {c : Config}

/-- The symbols on the stack lead to the state on top of it. -/
theorem IsPath.leads : {frames : List Frame} → IsPath states frames →
    Leads states 0 (symbolsOf frames) (Config.stateAfter frames)
  | [], _ => rfl
  | frame :: below, h => by
      have hsymbols : symbolsOf (frame :: below) = symbolsOf below ++ [frame.symbol] := by
        simp [symbolsOf]
      rw [hsymbols]
      exact (IsPath.leads h.2).tail h.1

/-- The consumed tokens are the beginning of a sentence. -/
theorem Recognised.exists_isSentence (hε : g.isNonTerminal epsilon = false)
    (hproductive : g.Productive)
    (hlinked : Linked (ItemSystem.computed g hasLookahead) states.length [] states)
    (h : Recognised g states tokens consumed c) : ∃ v, g.IsSentence (consumed ++ v) := by
  have hleads := h.isPath.leads
  obtain ⟨item, hholds⟩ := hlinked.exists_holds_of_leads hleads
  have hvalid := valid_of_holds hε hproductive hlinked hleads item hholds
  obtain ⟨x, hprefix⟩ := hvalid.exists_derives hε
  have hderives : g.Derives [g.startSymbol] (consumed ++ x) :=
    hprefix.trans ((h.derives_consumed hlinked hε).append (.refl x))
  exact hproductive.exists_isSentence hderives h.not_isNonTerminal

/-- Without conflicts the machine accepts every sentence. -/
theorem exists_accepting_steps (hend : g.AvoidsEndMarker) (hε : g.isNonTerminal epsilon = false)
    (halgorithm : algorithm ∈ Algorithm.shiftReduce) (hbuilt : Built g algorithm collection)
    (hclean : collection.table.conflicts = []) {w : List Symbol} (hw : g.IsSentence w) :
    ∃ n c, Machine.Steps (step collection.table endMarker) n
        (Config.initial (w ++ [endMarker])) c ∧
      (step collection.table endMarker c).move.outcome? = some .accepted := by
  obtain ⟨T, hT, hroot, rfl⟩ := hw.exists_tree hε
  have hready : Ready g algorithm collection.states 0 T.label endMarker := by
    rw [hroot]
    exact ready_start hε halgorithm hbuilt
  obtain ⟨c, frame, hsteps, hinput, hframes, hgoes, -⟩ :=
    treeRuns hend hε halgorithm hbuilt hclean hT (Config.initial (T.yield ++ [endMarker]))
      [endMarker] hready rfl
  refine ⟨_, c, hsteps, ?_⟩
  have hfound : found collection.table endMarker c = some .accept := by
    apply found_accept hε hbuilt hclean hinput
    rw [Config.state, hframes, ← hroot]
    exact hgoes
  rw [step_of_accept hfound (by rw [hinput]; rfl)]
  rfl

section parse

variable (hbuilt : Built g algorithm collection) (hend : g.AvoidsEndMarker)
  (hε : g.isNonTerminal epsilon = false) (hproductive : g.Productive) (maxSteps : Int)
include hbuilt hend hε hproductive

/-- At every moment of a run the consumed tokens are the beginning of a sentence. -/
theorem viable_of_mem_trace (tokens : List Symbol) :
    ∀ moment ∈ Machine.trace (step collection.table endMarker)
      (RunOptions.limit ⟨maxSteps, endMarker⟩) (Config.initial (tokens ++ [endMarker])),
      g.Viable tokens moment.config.input := by
  intro moment hmoment
  have hinit : ∃ consumed, Recognised g collection.states tokens consumed
      (Config.initial (tokens ++ [endMarker])) := ⟨[], Recognised.initial g _ tokens⟩
  have hstep : ∀ c, (∃ consumed, Recognised g collection.states tokens consumed c) →
      ∃ consumed, Recognised g collection.states tokens consumed
        (step collection.table endMarker c).config :=
    fun c ⟨_, h⟩ => h.step hbuilt hend hε
  obtain ⟨consumed, h⟩ := Machine.forall_mem_trace hstep _ hinit moment hmoment
  obtain ⟨rest, htokens, hinput⟩ := h.input
  exact ⟨consumed, rest, htokens, hinput, h.exists_isSentence hε hproductive hbuilt.linked⟩

/-- Without conflicts a run that ends with an error ends where no sentence goes on. -/
theorem dead_of_error (halgorithm : algorithm ∈ Algorithm.shiftReduce)
    (hclean : collection.table.conflicts = []) (tokens : List Symbol)
    (hne : (parse collection.table tokens ⟨maxSteps, endMarker⟩).outcome ≠ .accepted)
    (hlimit : (parse collection.table tokens ⟨maxSteps, endMarker⟩).outcome ≠ .stepLimit) :
    g.Dead tokens (parse collection.table tokens ⟨maxSteps, endMarker⟩).remaining := by
  obtain ⟨last, hlast, hdead⟩ := Machine.dead_of_error (readsOne_step collection.table endMarker)
    (fun _ => rfl) (fun _ _ => rfl)
    (fun _ => exists_accepting_steps hend hε halgorithm hbuilt hclean)
    (viable_of_mem_trace hbuilt hend hε hproductive maxSteps tokens) hne hlimit
  rwa [remaining_parse hlast]

end parse

end ShiftReduce

/-! ## The predictive machine -/

namespace Predictive

variable {g : Grammar} {tokens consumed : List Symbol} {c : Config}

/-- The consumed tokens are the beginning of a sentence. -/
theorem Leftmost.exists_isSentence (hproductive : g.Productive)
    (h : Leftmost g tokens consumed c) : ∃ v, g.IsSentence (consumed ++ v) :=
  hproductive.exists_isSentence h.derives.derives h.terminals

/-- Without overwritten cells the machine accepts every sentence. -/
theorem exists_accepting_steps (hend : g.AvoidsEndMarker) (hε : g.isNonTerminal epsilon = false)
    (hclean : (Table.predictive g (compute g)).overwrites = []) {w : List Symbol}
    (hw : g.IsSentence w) :
    ∃ n c, Machine.Steps (step g (Table.predictive g (compute g)) endMarker) n
        (Config.initial g.startSymbol (w ++ [endMarker])) c ∧
      (step g (Table.predictive g (compute g)) endMarker c).move.outcome? = some .accepted := by
  obtain ⟨T, hT, hroot, rfl⟩ := hw.exists_tree hε
  obtain ⟨c, hsteps, hc⟩ := steps_ahead hend hε hclean _ _ [T] rfl
    ⟨[], Leftmost.initial hend hε T.yield⟩ (Ahead.initial hT hroot)
  refine ⟨_, c, hsteps, ?_⟩
  rw [(step_of_ahead_nil hc).1]
  rfl

section parse

variable (hend : g.AvoidsEndMarker) (hε : g.isNonTerminal epsilon = false)
  (hproductive : g.Productive) (maxSteps : Int)
include hend hε hproductive

/-- At every moment of a run the consumed tokens are the beginning of a sentence. -/
theorem viable_of_mem_trace (tokens : List Symbol) :
    ∀ moment ∈ Machine.trace (step g (Table.predictive g (compute g)) endMarker)
      (RunOptions.limit ⟨maxSteps, endMarker⟩)
      (Config.initial g.startSymbol (tokens ++ [endMarker])),
      g.Viable tokens moment.config.input := by
  intro moment hmoment
  have hinit : ∃ consumed, Leftmost g tokens consumed
      (Config.initial g.startSymbol (tokens ++ [endMarker])) :=
    ⟨[], Leftmost.initial hend hε tokens⟩
  have hstep : ∀ c, (∃ consumed, Leftmost g tokens consumed c) →
      ∃ consumed, Leftmost g tokens consumed
        (step g (Table.predictive g (compute g)) endMarker c).config :=
    fun c ⟨_, h⟩ => h.step hend
  obtain ⟨consumed, h⟩ := Machine.forall_mem_trace hstep _ hinit moment hmoment
  obtain ⟨rest, htokens, hinput⟩ := h.input
  exact ⟨consumed, rest, htokens, hinput, h.exists_isSentence hproductive⟩

/-- Without overwritten cells a run that ends with an error ends where no sentence goes on. -/
theorem dead_of_error (hclean : (Table.predictive g (compute g)).overwrites = [])
    (tokens : List Symbol)
    (hne : (parse g (Table.predictive g (compute g)) tokens ⟨maxSteps, endMarker⟩).outcome ≠
      .accepted)
    (hlimit : (parse g (Table.predictive g (compute g)) tokens ⟨maxSteps, endMarker⟩).outcome ≠
      .stepLimit) :
    g.Dead tokens
      (parse g (Table.predictive g (compute g)) tokens ⟨maxSteps, endMarker⟩).remaining := by
  obtain ⟨last, hlast, hdead⟩ := Machine.dead_of_error
    (readsOne_step g (Table.predictive g (compute g)) endMarker) (fun _ => rfl) (fun _ _ => rfl)
    (fun _ => exists_accepting_steps hend hε hclean)
    (viable_of_mem_trace hend hε hproductive maxSteps tokens) hne hlimit
  rwa [remaining_parse hlast]

end parse

end Predictive

/-! ## The theorem -/

/-- A grammar is read from a text in which the empty marker is not a left-hand side, and every
non-terminal derives a word. Then at every moment of a run of the shift-reduce machine on the table
of a collection, and of the predictive machine on its table, the consumed tokens are the beginning
of a sentence. If the table has no conflicts, or no overwritten cells, and the run ends with an
error, then no sentence begins with the consumed tokens and the next one; if all tokens are
consumed, they are no sentence. -/
theorem simulate_viable_dead {g : Grammar} {text : String} (hread : Grammar.read text = .ok g)
    (hε : epsilon ∉ g.nonTerminals) (hproductive : g.Productive) :
    (∀ algorithm ∈ Algorithm.shiftReduce, ∃ collection,
      Collection.build g (compute g) algorithm = .ok collection ∧
      ∀ (tokens : List Symbol) (maxSteps : Int),
        let result := ShiftReduce.parse collection.table tokens ⟨maxSteps, endMarker⟩
        (∀ step ∈ result.trace, g.Viable tokens step.input) ∧
        (collection.table.conflicts = [] → result.outcome ≠ .accepted →
          result.outcome ≠ .stepLimit → g.Dead tokens result.remaining)) ∧
    ∀ (tokens : List Symbol) (maxSteps : Int),
      let table := Table.predictive g (compute g)
      let result := Predictive.parse g table tokens ⟨maxSteps, endMarker⟩
      (∀ step ∈ result.trace, g.Viable tokens step.input) ∧
      (table.overwrites = [] → result.outcome ≠ .accepted → result.outcome ≠ .stepLimit →
        g.Dead tokens result.remaining) := by
  have hend := Grammar.avoidsEndMarker_of_read hread
  have hε' := Grammar.not_isNonTerminal_epsilon hε
  constructor
  · intro algorithm halgorithm
    obtain ⟨collection, hbuild, hbuilt⟩ := Collection.exists_built g halgorithm
    refine ⟨collection, hbuild, fun tokens maxSteps => ⟨?_, ?_⟩⟩
    · intro step hstep
      obtain ⟨moment, hmoment, rfl⟩ := List.mem_map.mp hstep
      exact ShiftReduce.viable_of_mem_trace hbuilt hend hε' hproductive maxSteps tokens moment
        hmoment
    · intro hclean
      exact ShiftReduce.dead_of_error hbuilt hend hε' hproductive maxSteps halgorithm hclean tokens
  · intro tokens maxSteps
    refine ⟨?_, ?_⟩
    · intro step hstep
      obtain ⟨moment, hmoment, rfl⟩ := List.mem_map.mp hstep
      exact Predictive.viable_of_mem_trace hend hε' hproductive maxSteps tokens moment hmoment
    · intro hclean
      exact Predictive.dead_of_error hend hε' hproductive maxSteps hclean tokens

/-- Nested brackets may end after one pair: what comes behind it is an error there. -/
theorem simulate_viable_dead_nested :
    Grammar.nested.Productive ∧ ∃ collection,
      Collection.build .nested (compute .nested) .lr1 = .ok collection ∧
      collection.table.conflicts = [] ∧
      (ShiftReduce.parse collection.table ["a", "b", "b"] .standard).outcome = .noTransition ∧
      Grammar.nested.Dead ["a", "b", "b"]
        (ShiftReduce.parse collection.table ["a", "b", "b"] .standard).remaining := by
  have hε : epsilon ∉ Grammar.nested.nonTerminals := by decide +kernel
  obtain ⟨hruns, -⟩ := simulate_viable_dead Grammar.read_nested hε Grammar.productive_nested
  obtain ⟨collection, hbuild, hresult⟩ := hruns .lr1 (by decide)
  have hrun : (Collection.build .nested (compute .nested) .lr1).toOption.map (fun c =>
      (c.table.conflicts.isEmpty,
        (ShiftReduce.parse c.table ["a", "b", "b"] .standard).outcome)) =
      some (true, .noTransition) := by decide +kernel
  rw [hbuild] at hrun
  obtain ⟨hconflicts, ho⟩ := Prod.mk.inj (Option.some.inj hrun)
  have hclean := List.isEmpty_iff.mp hconflicts
  refine ⟨Grammar.productive_nested, collection, hbuild, hclean, ho, ?_⟩
  exact (hresult ["a", "b", "b"] 1000).2 hclean (ne_of_eq_of_ne ho (by decide))
    (ne_of_eq_of_ne ho (by decide))

end TableParsing
