import TableParsing.Proofs.Derivation.Rightmost
import TableParsing.Proofs.ShiftReduce.Soundness
import TableParsing.Proofs.Table.Predictive
import TableParsing.Proofs.Predictive.Step

/-!
# Any symbol behind the tokens

The symbol that is put behind the tokens can be chosen freely, while the tables know one end marker.
What an acceptance says, and how much can be read, then depends on the chosen symbol
(`simulate_endSymbol`).

The predictive machine takes the chosen symbol for the bottom of its stack wherever it meets it. If
the symbol is one of the grammar, it may be due there, and the machine accepts although more should
follow: the start symbol derives the tokens, the symbol and the rest of the stack
(`Predictive.Derived.of_accepting`). It never reads beyond the tokens, since the chosen symbol is not
matched (`Predictive.Tracks`).

The shift-reduce machine looks the chosen symbol up like a token. It accepts only under the end
marker of the tables (`Collection.Built.eq_endMarker_of_accept`), so an acceptance is sound. But if
the chosen symbol is a terminal it may be shifted, and it is supplied again and again
(`ShiftReduce.Reads`).
-/

namespace TableParsing

open Collection FirstFollow

/-! ## The predictive machine -/

namespace Predictive

/-- The consumed tokens and the due symbols are derived from the start symbol. -/
structure Derived (g : Grammar) (endSymbol : Symbol) (tokens consumed : List Symbol) (c : Config) :
    Prop extends Tracks g.startSymbol endSymbol tokens consumed c where
  /-- The stack is the rest of a sentential form. -/
  derives : g.Derives [g.startSymbol] (consumed ++ c.due.map Due.symbol)

namespace Derived

variable {g : Grammar} {sets : FirstFollow} {endSymbol : Symbol} {tokens consumed : List Symbol}
  {c : Config}

/-- At the beginning the start symbol is due. -/
theorem initial (hε : g.isNonTerminal epsilon = false) (endSymbol : Symbol)
    (tokens : List Symbol) :
    Derived g endSymbol tokens [] (Config.initial g.startSymbol (tokens ++ [endSymbol])) where
  toTracks := Tracks.initial (Grammar.startSymbol_ne_epsilon hε) endSymbol tokens
  derives := .refl _

/-- Every step with a predictive table makes at most one step of a derivation. -/
theorem step (h : Derived g endSymbol tokens consumed c) :
    Derived g endSymbol tokens
      (consumed ++ readBy [(step g (Table.predictive g sets) endSymbol c).move])
      (step g (Table.predictive g sets) endSymbol c).config where
  toTracks := h.toTracks.step g _
  derives := by
    have hderives := h.derives
    have heffect := step_effect g (Table.predictive g sets) endSymbol c
    revert heffect
    generalize Predictive.step g (Table.predictive g sets) endSymbol c = moment
    intro heffect
    cases heffect with
    | @matched top rest hdue =>
        rw [hdue, List.map_cons] at hderives
        show g.Derives _ ((consumed ++ [top.symbol]) ++ rest.map Due.symbol)
        rwa [List.append_assoc]
    | @expanded top rest _ p hdue _ _ hcell hproduction hlhs =>
        obtain ⟨q, hq, -, -, rfl⟩ := Table.exists_of_get?_predictive hcell
        cases hproduction
        rw [hdue, List.map_cons, ← hlhs] at hderives
        have hstep := Grammar.Step.rewrite consumed (rest.map Due.symbol)
          (Grammar.toRule_mem_rules hq)
        show g.Derives _ ((consumed ++ []) ++ (dueFrom c.nextNode p.body ++ rest).map Due.symbol)
        rw [List.append_nil, List.map_append, map_symbol_dueFrom, ← List.append_assoc]
        exact hderives.trans (.of_step hstep)
    | accept | unfinished | mismatch | noEntry | invalidEntry =>
        exact (List.append_nil consumed).symm ▸ hderives

/-- What is accepted is derived, or it is derived with the chosen symbol behind it. -/
theorem of_accepting {table : Table} (h : Derived g endSymbol tokens consumed c)
    (ho : (Predictive.step g table endSymbol c).move.outcome? = some .accepted) :
    g.Derives [g.startSymbol] tokens ∨
      ∃ after, g.Derives [g.startSymbol] (tokens ++ endSymbol :: after) := by
  have hderives := h.derives
  have heffect := step_effect g table endSymbol c
  revert heffect ho
  generalize Predictive.step g table endSymbol c = moment
  intro ho heffect
  cases heffect with
  | accept hend hinput =>
      rw [h.consumed_eq hinput] at hderives
      cases hdue : c.due with
      | nil =>
          rw [hdue, List.map_nil, List.append_nil] at hderives
          exact Or.inl hderives
      | cons top rest =>
          rw [hdue] at hend hderives
          rw [List.map_cons, hend top rfl] at hderives
          exact Or.inr ⟨_, hderives⟩
  | unfinished | matched | mismatch | noEntry | invalidEntry | expanded => cases ho

end Derived

/-- What an acceptance with a predictive table says, and what the machine can read. -/
theorem parse_endSymbol {g : Grammar} (hε : g.isNonTerminal epsilon = false) (sets : FirstFollow)
    (tokens : List Symbol) (options : RunOptions) :
    let result := parse g (Table.predictive g sets) tokens options
    (result.outcome = .accepted → g.Derives [g.startSymbol] tokens ∨
      ∃ after, g.Derives [g.startSymbol] (tokens ++ options.endSymbol :: after)) ∧
    readBy (result.trace.map TraceStep.move) <+: tokens := by
  intro result
  have hinit := Derived.initial hε options.endSymbol tokens
  constructor
  · intro haccepted
    have hstep : ∀ c, (∃ consumed, Derived g options.endSymbol tokens consumed c) →
        ∃ consumed, Derived g options.endSymbol tokens consumed
          (step g (Table.predictive g sets) options.endSymbol c).config :=
      fun c ⟨_, h⟩ => ⟨_, h.step⟩
    obtain ⟨c, ⟨consumed, h⟩, -, ho⟩ :=
      Machine.exists_accepting_step hstep ⟨[], hinit⟩ haccepted
    exact h.of_accepting ho
  · have hlast : ∃ moment : Moment Config, Derived g options.endSymbol tokens
        (readBy (result.trace.map TraceStep.move)) moment.config := by
      rw [show result.trace.map TraceStep.move = _ from List.map_map]
      exact Machine.exists_record
        (P := fun read moment => Derived g options.endSymbol tokens read moment.config)
        (fun _ _ h _ => h.step) (fun _ _ h _ => h) options.limit hinit
    obtain ⟨moment, h⟩ := hlast
    obtain ⟨rest, htokens, -⟩ := h.input
    exact ⟨rest, htokens.symm⟩

end Predictive

/-! ## The shift-reduce machine -/

namespace ShiftReduce

/-- What has been read, and what is left of the input: the tokens and the chosen symbol, or nothing
after that symbol has been read as a terminal. -/
inductive Reads (g : Grammar) (endSymbol : Symbol) (tokens read input : List Symbol) : Prop
  | inside (rest : List Symbol) (htokens : tokens = read ++ rest)
      (hinput : input = rest ++ [endSymbol])
  | beyond (count : Nat) (hterminal : endSymbol ∈ g.terminals)
      (hread : read = tokens ++ List.replicate (count + 1) endSymbol) (hinput : input = [])

namespace Reads

variable {g : Grammar} {algorithm : Algorithm} {collection : Collection} {endSymbol : Symbol}
  {tokens read input : List Symbol} {c : Config}

/-- Reading a terminal, or the chosen symbol once more. -/
theorem next (h : Reads g endSymbol tokens read input)
    (hterminal : input.headD endSymbol ∈ g.terminals) :
    Reads g endSymbol tokens (read ++ [input.headD endSymbol]) input.tail := by
  cases h with
  | inside rest htokens hinput =>
      subst hinput
      cases rest with
      | nil =>
          rw [List.append_nil] at htokens
          exact .beyond 0 hterminal (by rw [htokens]; rfl) rfl
      | cons s rest => exact .inside rest (by rw [htokens, List.append_cons]; rfl) rfl
  | beyond count hterminal hread hinput =>
      subst hinput
      refine .beyond (count + 1) hterminal ?_ rfl
      rw [hread, List.replicate_succ' (n := count + 1), ← List.append_assoc]
      rfl

/-- Every step reads a terminal or nothing. -/
theorem step (hbuilt : Built g algorithm collection)
    (h : Reads g endSymbol tokens read c.input) :
    Reads g endSymbol tokens (read ++ readBy [(step collection.table endSymbol c).move])
      (step collection.table endSymbol c).config.input := by
  have heffect := step_effect collection.table endSymbol c
  revert heffect
  generalize ShiftReduce.step collection.table endSymbol c = moment
  intro heffect
  cases heffect with
  | shifted hfound => exact h.next (hbuilt.mem_terminals_of_shift hfound)
  | reduced | underflow | gotoError | accept | unfinished | noTransition | invalidAction =>
      exact (List.append_nil read).symm ▸ h

/-- What has been read are tokens, or all of them and the chosen symbol a number of times. -/
theorem prefix_or_replicate (h : Reads g endSymbol tokens read input) :
    read <+: tokens ∨
      endSymbol ∈ g.terminals ∧ ∃ count, read = tokens ++ List.replicate count endSymbol := by
  cases h with
  | inside rest htokens => exact Or.inl ⟨rest, htokens.symm⟩
  | beyond count hterminal hread => exact Or.inr ⟨hterminal, count + 1, hread⟩

/-- An acceptance looks at the chosen symbol, which is the end marker of the table. -/
theorem eq_endMarker (hbuilt : Built g algorithm collection)
    (h : Reads g endSymbol tokens read c.input)
    (ho : (ShiftReduce.step collection.table endSymbol c).move.outcome? = some .accepted) :
    endSymbol = endMarker := by
  have heffect := step_effect collection.table endSymbol c
  revert heffect ho
  generalize ShiftReduce.step collection.table endSymbol c = moment
  intro ho heffect
  cases heffect with
  | accept hfound hinput =>
      have hcurrent := hbuilt.eq_endMarker_of_accept hfound
      cases h with
      | inside rest _ hrest =>
          obtain rfl : rest = [] := by simpa [hrest] using hinput
          rwa [hrest] at hcurrent
      | beyond _ _ _ hnil =>
          rw [hnil] at hinput
          cases hinput
  | shifted | reduced | underflow | gotoError | unfinished | noTransition | invalidAction =>
      cases ho

end Reads

section runs

variable {g : Grammar} {algorithm : Algorithm} {collection : Collection}
  (hbuilt : Built g algorithm collection) (hend : g.AvoidsEndMarker)
  (hε : g.isNonTerminal epsilon = false)
include hbuilt hend hε

/-- What is accepted with the end marker of the table behind it is derived. -/
theorem derives_of_accepted {tokens : List Symbol} {maxSteps : Int}
    (haccepted : (parse collection.table tokens ⟨maxSteps, endMarker⟩).outcome = .accepted) :
    g.Derives [g.startSymbol] tokens := by
  have hstep : ∀ c, (∃ consumed, Recognised g collection.states tokens consumed c) →
      ∃ consumed, Recognised g collection.states tokens consumed
        (step collection.table endMarker c).config :=
    fun c ⟨_, h⟩ => h.step hbuilt hend hε
  obtain ⟨c, ⟨consumed, h⟩, -, ho⟩ := Machine.exists_accepting_step hstep
    ⟨[], Recognised.initial g _ tokens⟩ haccepted
  obtain ⟨-, frame, hframes, hsymbol, hyield⟩ := h.of_accepting hbuilt hε ho
  have hderives := h.derives_consumed hbuilt.linked hε
  rw [← h.yield, hframes] at hderives
  rw [← hsymbol, ← hyield]
  simpa [treesOf, symbolsOf] using hderives

/-- What an acceptance with the table of a collection says, and what the machine can read. -/
theorem parse_endSymbol (tokens : List Symbol) (maxSteps : Int) (endSymbol : Symbol) :
    let result := parse collection.table tokens ⟨maxSteps, endSymbol⟩
    (result.outcome = .accepted → g.Derives [g.startSymbol] tokens) ∧
    (readBy (result.trace.map TraceStep.move) <+: tokens ∨
      endSymbol ∈ g.terminals ∧ ∃ count,
        readBy (result.trace.map TraceStep.move) = tokens ++ List.replicate count endSymbol) := by
  intro result
  have hinit : Reads g endSymbol tokens [] (Config.initial (tokens ++ [endSymbol])).input :=
    .inside tokens rfl rfl
  constructor
  · intro haccepted
    have hstep : ∀ c : Config, (∃ read, Reads g endSymbol tokens read c.input) →
        ∃ read, Reads g endSymbol tokens read (step collection.table endSymbol c).config.input :=
      fun c ⟨_, h⟩ => ⟨_, h.step hbuilt⟩
    obtain ⟨c, ⟨read, h⟩, -, ho⟩ :=
      Machine.exists_accepting_step hstep ⟨[], hinit⟩ haccepted
    obtain rfl := h.eq_endMarker hbuilt ho
    exact derives_of_accepted hbuilt hend hε haccepted
  · have hlast : ∃ moment : Moment Config, Reads g endSymbol tokens
        (readBy (result.trace.map TraceStep.move)) moment.config.input := by
      rw [show result.trace.map TraceStep.move = _ from List.map_map]
      exact Machine.exists_record
        (P := fun read (moment : Moment Config) =>
          Reads g endSymbol tokens read moment.config.input)
        (fun _ _ h _ => h.step hbuilt) (fun _ _ h _ => h) maxSteps.toNat hinit
    obtain ⟨moment, h⟩ := hlast
    exact h.prefix_or_replicate

end runs

end ShiftReduce

/-! ## The theorem -/

/-- A grammar is read from a text in which the empty marker is not a left-hand side, and any symbol
is put behind the tokens. With the predictive table, an accepted input is derived from the start
symbol, or the chosen symbol is one of the grammar and the input is derived with that symbol and
something more behind it; only tokens are read. With the table of a collection, an accepted input is
derived; only tokens are read, or the chosen symbol is a terminal and is read behind them. -/
theorem simulate_endSymbol {g : Grammar} {text : String} (hread : Grammar.read text = .ok g)
    (hε : epsilon ∉ g.nonTerminals) :
    (∀ (tokens : List Symbol) (maxSteps : Int) (endSymbol : Symbol),
      let result := simulate g (Table.predictive g (compute g)) tokens ⟨maxSteps, endSymbol⟩
      (result.outcome = .accepted → g.Derives [g.startSymbol] tokens ∨
        (endSymbol ∈ g.nonTerminals ∨ endSymbol ∈ g.terminals) ∧
          ∃ after, g.Derives [g.startSymbol] (tokens ++ endSymbol :: after)) ∧
      readBy (result.trace.map TraceStep.move) <+: tokens) ∧
    ∀ algorithm ∈ Algorithm.shiftReduce, ∃ collection,
      Collection.build g (compute g) algorithm = .ok collection ∧
      ∀ (tokens : List Symbol) (maxSteps : Int) (endSymbol : Symbol),
        let result := simulate g collection.table tokens ⟨maxSteps, endSymbol⟩
        (result.outcome = .accepted → g.Derives [g.startSymbol] tokens) ∧
        (readBy (result.trace.map TraceStep.move) <+: tokens ∨
          endSymbol ∈ g.terminals ∧ ∃ count,
            readBy (result.trace.map TraceStep.move) =
              tokens ++ List.replicate count endSymbol) := by
  have hend := Grammar.avoidsEndMarker_of_read hread
  have hε' := Grammar.not_isNonTerminal_epsilon hε
  constructor
  · intro tokens maxSteps endSymbol
    rw [simulate, if_pos (Table.algorithm_predictive g (compute g))]
    obtain ⟨haccepted, hreads⟩ :=
      Predictive.parse_endSymbol hε' (compute g) tokens ⟨maxSteps, endSymbol⟩
    refine ⟨fun ho => (haccepted ho).imp_right ?_, hreads⟩
    rintro ⟨after, hderives⟩
    have hform := (Grammar.isForm_startSymbol g).derives hderives endSymbol (by simp)
    exact ⟨hform.imp_left Grammar.isNonTerminal_iff.mp, after, hderives⟩
  · intro algorithm halgorithm
    obtain ⟨collection, hbuild, hbuilt⟩ := Collection.exists_built g halgorithm
    refine ⟨collection, hbuild, fun tokens maxSteps endSymbol => ?_⟩
    have hne : collection.table.algorithm ≠ .ll1 := by
      rw [Collection.algorithm_table hbuild]
      rintro rfl
      exact absurd halgorithm (by decide)
    rw [simulate, if_neg hne]
    exact ShiftReduce.parse_endSymbol hbuilt hend hε' tokens maxSteps endSymbol

/-- With a symbol that is none of the grammar behind them, brackets are accepted because they are
derived. -/
theorem simulate_endSymbol_nested :
    Grammar.read "S -> a S b |" = .ok .nested ∧ epsilon ∉ Grammar.nested.nonTerminals ∧
    (simulate .nested (Table.predictive .nested (compute .nested)) ["a", "b"]
      ⟨1000, "end"⟩).outcome = .accepted ∧ Grammar.nested.Derives ["S"] ["a", "b"] := by
  have hε : epsilon ∉ Grammar.nested.nonTerminals := by decide +kernel
  have haccepted : (simulate .nested (Table.predictive .nested (compute .nested)) ["a", "b"]
      ⟨1000, "end"⟩).outcome = .accepted := by decide +kernel
  have hresult := (simulate_endSymbol Grammar.read_nested hε).1 ["a", "b"] 1000 "end"
  refine ⟨Grammar.read_nested, hε, haccepted, (hresult.1 haccepted).resolve_right ?_⟩
  rintro ⟨hsymbol, -⟩
  revert hsymbol
  decide +kernel

/-! ## A bracket behind the tokens -/

/-- What is derived by the rules of the nested brackets has as many opening ones as closing ones. -/
theorem count_of_derives_nested {u v : List Symbol} (h : Grammar.nested.Derives u v)
    (hu : u.count "a" = u.count "b") : v.count "a" = v.count "b" := by
  induction h with
  | refl => exact hu
  | tail _ hstep ih =>
      cases hstep with
      | @rewrite before after r hr =>
          have hrules : r = ⟨"S", ["a", "S", "b"]⟩ ∨ r = ⟨"S", ["ε"]⟩ := by
            simpa [Grammar.nested] using hr
          rcases hrules with rfl | rfl
          · simp [Rule.body, epsilon] at ih ⊢
            omega
          · simp [Rule.body, epsilon] at ih ⊢
            omega

/-- With a closing bracket for the symbol behind the tokens, a single opening bracket is accepted,
which is not derived, and the shift-reduce machine reads more symbols than there are tokens. -/
theorem accepted_not_derived_nested :
    Grammar.read "S -> a S b |" = .ok .nested ∧ epsilon ∉ Grammar.nested.nonTerminals ∧
    (simulate .nested (Table.predictive .nested (compute .nested)) ["a"]
      ⟨1000, "b"⟩).outcome = .accepted ∧ ¬ Grammar.nested.Derives ["S"] ["a"] ∧
    ∃ collection, Collection.build .nested (compute .nested) .slr1 = .ok collection ∧
      readBy ((simulate .nested collection.table ["a"] ⟨1000, "b"⟩).trace.map TraceStep.move) =
        ["a", "b"] := by
  refine ⟨Grammar.read_nested, by decide +kernel, by decide +kernel, fun hderives => ?_, ?_⟩
  · exact absurd (count_of_derives_nested hderives rfl) (by decide)
  · obtain ⟨collection, hbuild, -⟩ :=
      Collection.exists_built .nested (show Algorithm.slr1 ∈ Algorithm.shiftReduce by decide)
    have hrun : (Collection.build .nested (compute .nested) .slr1).toOption.map (fun c =>
        readBy ((simulate .nested c.table ["a"] ⟨1000, "b"⟩).trace.map TraceStep.move)) =
        some ["a", "b"] := by decide +kernel
    rw [hbuild] at hrun
    exact ⟨collection, hbuild, Option.some.inj hrun⟩

end TableParsing
