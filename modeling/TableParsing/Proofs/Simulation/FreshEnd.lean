import TableParsing.Proofs.Derivation.Rightmost
import TableParsing.Proofs.FirstFollow.Lookahead
import TableParsing.Proofs.Predictive.Step
import TableParsing.Proofs.ShiftReduce.Step
import TableParsing.Proofs.Simulation.Relabel
import TableParsing.Proofs.Table.Predictive

/-!
# A fresh symbol behind the tokens

The symbol that is put behind the tokens is compared with the end marker of the tables. Let it be
neither a token nor a symbol of the grammar, as the end marker is not. As long as a token is left,
both machines do the same with either of them (`step_relabel_of_ne`): the bottom of a stack is never
looked up, and what lies above it are symbols of the grammar.

With no token left, the machines look the symbol up, and the tables have entries under the end
marker but none under the other symbol (`get?_eq_none_of_unused`). So the run fails where the one
with the end marker uses an entry for the first time (`step_relabel_of_end`), and it is the same up
to there (`simulate_freshEnd`). The predictive machine need not use any, since it accepts without
the table; the shift-reduce machine accepts under the end marker only
(`Collection.Built.eq_endMarker_of_accept`).
-/

namespace TableParsing

open Collection FirstFollow

/-! ## The predictive machine -/

namespace Predictive

/-- The configuration with a symbol in the place of the end marker. -/
def Config.relabel (endSymbol : Symbol) (c : Config) : Config :=
  c.withInput (c.input.map (TableParsing.relabel endSymbol))

/-- What is shown of a configuration. -/
def view (endSymbol : Symbol) : Machine.View Config where
  stack := Config.stack endSymbol
  input := Config.input
  symbols _ := []
  trees c := [c.tree]
  tree c := some c.tree

/-- Symbols of the grammar are due, and the symbol behind the tokens is fresh. -/
structure Fresh (g : Grammar) (endSymbol : Symbol) (c : Config) : Prop where
  /-- The rest of the input. -/
  input : FreshInput endSymbol c.input
  /-- The stack. -/
  due : g.IsForm (c.due.map Due.symbol)

section runs

variable {g : Grammar} {endSymbol : Symbol}

/-- In a predictive table there is nothing under a symbol that the grammar does not use. -/
theorem get?_eq_none_of_unused (hunused : g.Unused endSymbol) (hne : endSymbol ≠ endMarker)
    (row : Row) : (Table.predictive g (compute g)).get? row endSymbol = none := by
  rw [Option.eq_none_iff_forall_ne_some]
  intro cell hcell
  obtain ⟨p, hp, hpredicted, -, -⟩ := Table.exists_of_get?_predictive hcell
  rcases mem_predicted_cases hp hpredicted with hterminal | hmarker
  · exact hunused.not_mem_terminals hterminal
  · exact hne hmarker

/-- Steps with a predictive table keep this. -/
theorem Fresh.step {sets : FirstFollow} {c : Config}
    (h : Fresh g endSymbol c) :
    Fresh g endSymbol (step g (Table.predictive g sets) endMarker c).config := by
  have heffect := step_effect g (Table.predictive g sets) endMarker c
  revert heffect
  generalize Predictive.step g (Table.predictive g sets) endMarker c = moment
  intro heffect
  cases heffect with
  | @matched top rest hdue hne _ hcurrent =>
      have hform := h.due
      rw [hdue] at hform
      exact ⟨h.input.tail (hcurrent ▸ hne), fun s hs => hform s (List.mem_cons_of_mem _ hs)⟩
  | @expanded top rest _ p hdue _ _ hcell hproduction _ =>
      obtain ⟨q, hq, -, -, rfl⟩ := Table.exists_of_get?_predictive hcell
      cases hproduction
      have hform := h.due
      rw [hdue] at hform
      refine ⟨h.input, ?_⟩
      show g.IsForm ((dueFrom c.nextNode p.body ++ rest).map Due.symbol)
      rw [List.map_append, map_symbol_dueFrom, Grammar.isForm_append]
      exact ⟨Grammar.isForm_body (Grammar.toRule_mem_rules hq),
        fun s hs => hform s (List.mem_cons_of_mem _ hs)⟩
  | accept | unfinished | mismatch | noEntry | invalidEntry => exact h

/-- What is due is neither the end marker nor the symbol in its place. -/
theorem Fresh.ne_of_due (hend : g.AvoidsEndMarker) (hunused : g.Unused endSymbol) {c : Config}
    (h : Fresh g endSymbol c) : ∀ d ∈ c.due, d.symbol ≠ endMarker ∧ d.symbol ≠ endSymbol :=
  fun _ hd => have hform := h.due _ (List.mem_map_of_mem hd)
    ⟨hend.unused.ne hform, hunused.ne hform⟩

/-- Before the end of the input the machine makes the same step. -/
theorem step_relabel_of_ne {table : Table} {c : Config}
    (hdue : ∀ d ∈ c.due, d.symbol ≠ endMarker ∧ d.symbol ≠ endSymbol)
    (hs : c.input.headD endMarker ≠ endMarker) :
    step g table endSymbol (c.relabel endSymbol) =
      (step g table endMarker c).map (Config.relabel endSymbol) := by
  have hcurrent : (c.relabel endSymbol).input.headD endSymbol = c.input.headD endMarker :=
    (headD_map_relabel endSymbol c.input).trans (relabel_of_ne endSymbol hs)
  have hlength : (c.relabel endSymbol).input.length = c.input.length := List.length_map _
  have htop : ∀ {top rest}, c.due = top :: rest → top.symbol ≠ endSymbol := fun h =>
    (hdue _ (by rw [h]; exact List.mem_cons_self)).2
  have heffect := step_effect g table endMarker c
  revert heffect
  generalize step g table endMarker c = moment
  intro heffect
  apply Effect.step_eq
  cases heffect with
  | accept hfinished hinput =>
      refine .accept (fun top htop => ?_) (hlength.trans hinput)
      exact absurd (hfinished top htop) (hdue top (List.mem_of_mem_head? htop)).1
  | unfinished hfinished hinput =>
      refine .unfinished (fun top htop => ?_) (hlength ▸ hinput)
      exact absurd (hfinished top htop) (hdue top (List.mem_of_mem_head? htop)).1
  | @matched top rest h hne hterminal hmatch =>
      show Effect g table endSymbol (c.relabel endSymbol)
        ⟨.matched top.symbol, ⟨rest, c.input.tail.map (relabel endSymbol), c.tree, c.nextNode⟩⟩
      rw [List.map_tail]
      exact .matched h (htop h) hterminal (hcurrent.trans hmatch)
  | mismatch h hne hterminal hmatch =>
      exact .mismatch h (htop h) hterminal (hcurrent ▸ hmatch)
  | noEntry h hne hlhs hcell => exact .noEntry h (htop h) hlhs (hcurrent ▸ hcell)
  | invalidEntry h hne hlhs hcell hinvalid =>
      exact .invalidEntry h (htop h) hlhs (hcurrent ▸ hcell) hinvalid
  | expanded h hne hlhs hcell hproduction hp =>
      exact .expanded h (htop h) hlhs (hcurrent ▸ hcell) hproduction hp

/-- With only the end marker left, the machine makes the same step or finds no entry. -/
theorem step_relabel_of_end {table : Table} (hcolumn : ∀ row, table.get? row endSymbol = none)
    {c : Config} (hdue : ∀ d ∈ c.due, d.symbol ≠ endMarker ∧ d.symbol ≠ endSymbol)
    (hinput : c.input = [endMarker]) :
    step g table endSymbol (c.relabel endSymbol) =
      if (step g table endMarker c).move.usesEntry .ll1 then ⟨.noEntry, c.relabel endSymbol⟩
      else (step g table endMarker c).map (Config.relabel endSymbol) := by
  have hinput' : (c.relabel endSymbol).input = [endSymbol] := by
    rw [Config.relabel, Config.withInput, hinput]
    rfl
  have hcurrent : (c.relabel endSymbol).input.headD endSymbol = endSymbol := by rw [hinput']; rfl
  have htop : ∀ {top rest}, c.due = top :: rest → top.symbol ≠ endSymbol := fun h =>
    (hdue _ (by rw [h]; exact List.mem_cons_self)).2
  have hcell : ∀ row, table.get? row ((c.relabel endSymbol).input.headD endSymbol) = none := by
    rwa [hcurrent]
  have heffect := step_effect g table endMarker c
  revert heffect
  generalize step g table endMarker c = moment
  intro heffect
  apply Effect.step_eq
  cases heffect with
  | accept hfinished =>
      refine .accept (fun top htop => ?_) (by rw [hinput']; rfl)
      exact absurd (hfinished top htop) (hdue top (List.mem_of_mem_head? htop)).1
  | unfinished _ hlength => exact absurd (by rw [hinput]; rfl) hlength
  | matched _ hne _ hmatch => exact absurd (hmatch.symm.trans (by rw [hinput]; rfl)) hne
  | mismatch h hne hterminal _ =>
      exact .mismatch h (htop h) hterminal (hcurrent.trans_ne (htop h).symm)
  | noEntry h hne hlhs => exact .noEntry h (htop h) hlhs (hcell _)
  | invalidEntry h hne hlhs => exact .noEntry h (htop h) hlhs (hcell _)
  | expanded h hne hlhs => exact .noEntry h (htop h) hlhs (hcell _)

/-- The machine follows the one with the end marker behind the tokens, until it would use an entry
under the end marker. -/
theorem follows (hend : g.AvoidsEndMarker) (hunused : g.Unused endSymbol)
    (hne : endSymbol ≠ endMarker) :
    Machine.Follows ((view endMarker).usesEnd .ll1) (Move.missing .ll1) (Fresh g endSymbol)
      (Config.relabel endSymbol) (step g (Table.predictive g (compute g)) endMarker)
      (step g (Table.predictive g (compute g)) endSymbol) :=
  (view endMarker).follows_of_freshInput (fun _ h => h.input) (fun _ h => h.step)
    (fun _ h hcurrent => step_relabel_of_ne (h.ne_of_due hend hunused) hcurrent)
    (fun _ h hinput => step_relabel_of_end (get?_eq_none_of_unused hunused hne)
      (h.ne_of_due hend hunused) hinput)

/-- What is shown is the same up to the symbol in the place of the end marker. -/
theorem shown_relabel (hend : g.AvoidsEndMarker) {moment : Moment Config}
    (h : Fresh g endSymbol moment.config) :
    (view endSymbol).shown (moment.map (Config.relabel endSymbol)) =
      ((view endMarker).shown moment).relabel endSymbol := by
  have hmarker : endMarker ∉ (moment.config.due.map Due.symbol).reverse := fun hmem =>
    hend.unused.ne (h.due _ (List.mem_reverse.mp hmem)) rfl
  have hstack : Config.stack endSymbol (moment.config.relabel endSymbol) =
      (Config.stack endMarker moment.config).map (relabel endSymbol) := by
    rw [Config.stack, Config.stack, List.map_cons, map_relabel_of_not_mem hmarker]
    rfl
  unfold Machine.View.shown TraceStep.relabel view Moment.map
  simp only
  rw [hstack]
  rfl

/-- What is shown of a run with the predictive table. -/
theorem parse_agreesUpToEnd (hend : g.AvoidsEndMarker) (hunused : g.Unused endSymbol)
    {tokens : List Symbol} (hmarker : endMarker ∉ tokens) (hs : endSymbol ∉ tokens)
    (maxSteps : Int) :
    AgreesUpToEnd endSymbol
      (parse g (Table.predictive g (compute g)) tokens ⟨maxSteps, endMarker⟩)
      (parse g (Table.predictive g (compute g)) tokens ⟨maxSteps, endSymbol⟩) := by
  by_cases hne : endSymbol = endMarker
  · subst hne
    exact .refl _
  · have hstart : Config.relabel endSymbol (Config.initial g.startSymbol (tokens ++ [endMarker])) =
        Config.initial g.startSymbol (tokens ++ [endSymbol]) :=
      congrArg (Config.initial g.startSymbol) (map_relabel_tokens hmarker)
    have hfresh : Fresh g endSymbol (Config.initial g.startSymbol (tokens ++ [endMarker])) :=
      ⟨.of_tokens hmarker hs, g.isForm_startSymbol⟩
    have hagrees := Machine.View.agreesUpToEnd (follows hend hunused hne)
      (fun _ => shown_relabel hend) (fun _ => rfl) hne maxSteps.toNat hfresh
    rwa [hstart] at hagrees

end runs

end Predictive

/-! ## The shift-reduce machine -/

/-- A number is not written as the end marker. -/
theorem toString_ne_endMarker (n : Int) : toString n ≠ endMarker := by
  intro h
  have hchars : (toString n).toList = ['$'] := congrArg String.toList h
  cases n with
  | ofNat n =>
      have hdigit : '$' ∈ Nat.toDigits 10 n := by
        rw [← Nat.toList_repr]
        exact hchars.symm ▸ List.mem_singleton_self '$'
      exact absurd (Nat.isDigit_of_mem_toDigits (by decide) (by decide) hdigit) (by decide)
  | negSucc n =>
      have hsign : ("-" ++ Nat.repr (n + 1)).toList = ['$'] := hchars
      rw [String.toList_append] at hsign
      exact absurd (List.cons.inj hsign).1 (by decide)

namespace ShiftReduce

/-- The configuration with a symbol in the place of the end marker. -/
def Config.relabel (endSymbol : Symbol) (c : Config) : Config :=
  c.withInput (c.input.map (TableParsing.relabel endSymbol))

/-- What is shown of a configuration. -/
def view (endSymbol : Symbol) : Machine.View Config where
  stack c := c.states.map toString
  input := Config.input
  symbols := Config.symbols endSymbol
  trees := Config.forest
  tree c := c.frames.head?.map Frame.tree

/-- The stack is a path through the automaton, and the symbol behind the tokens is fresh. -/
structure Fresh (states : List State) (endSymbol : Symbol) (c : Config) : Prop where
  /-- The rest of the input. -/
  input : FreshInput endSymbol c.input
  /-- The stack. -/
  isPath : IsPath states c.frames

section runs

variable {g : Grammar} {algorithm : Algorithm} {collection : Collection} {endSymbol : Symbol}

/-- In the table of a collection there is nothing under a symbol that the grammar does not use. -/
theorem get?_eq_none_of_unused (hbuilt : Built g algorithm collection)
    (hunused : g.Unused endSymbol) (hne : endSymbol ≠ endMarker) (number : Int) :
    collection.table.get? (.state number) endSymbol = none := by
  rw [Option.eq_none_iff_forall_ne_some]
  intro cell hcell
  obtain ⟨s, hs, -, hentry⟩ := (hbuilt.choice_iff number endSymbol cell.primary).mp
    ⟨cell, hcell, cell.primary_mem_choices⟩
  rcases hbuilt.symbol_cases_of_rowEntry hs hentry with hsymbol | hmarker
  · exact hunused.ne hsymbol rfl
  · exact hne hmarker

/-- Steps with the table of a collection keep this. -/
theorem Fresh.step (hbuilt : Built g algorithm collection) (hend : g.AvoidsEndMarker) {c : Config}
    (h : Fresh collection.states endSymbol c) :
    Fresh collection.states endSymbol (step collection.table endMarker c).config where
  isPath := h.isPath.step hbuilt
  input := by
    have heffect := step_effect collection.table endMarker c
    revert heffect
    generalize ShiftReduce.step collection.table endMarker c = moment
    intro heffect
    cases heffect with
    | shifted hfound =>
        refine h.input.tail fun hcurrent => hend.not_mem_terminals ?_
        rw [← hcurrent]
        exact hbuilt.mem_terminals_of_shift hfound
    | reduced | underflow | gotoError | accept | unfinished | noTransition | invalidAction =>
        exact h.input

/-- Before the end of the input the machine makes the same step. -/
theorem step_relabel_of_ne (table : Table) {c : Config}
    (hs : c.input.headD endMarker ≠ endMarker) :
    ShiftReduce.step table endSymbol (c.relabel endSymbol) =
      (ShiftReduce.step table endMarker c).map (Config.relabel endSymbol) := by
  have hcurrent : (c.relabel endSymbol).input.headD endSymbol = c.input.headD endMarker :=
    (headD_map_relabel endSymbol c.input).trans (relabel_of_ne endSymbol hs)
  have hlength : (c.relabel endSymbol).input.length = c.input.length := List.length_map _
  have hfound : found table endSymbol (c.relabel endSymbol) = found table endMarker c := by
    unfold found
    rw [hcurrent]
    rfl
  have heffect := step_effect table endMarker c
  revert heffect
  generalize ShiftReduce.step table endMarker c = moment
  intro heffect
  apply Effect.step_eq
  cases heffect with
  | @shifted next h =>
      show Effect table endSymbol (c.relabel endSymbol)
        ⟨.shifted (c.input.headD endMarker) next,
          ⟨⟨next, c.input.headD endMarker, .leaf c.nextNode (c.input.headD endMarker)⟩ :: c.frames,
            c.input.tail.map (relabel endSymbol), c.nextNode + 1⟩⟩
      rw [List.map_tail, ← hcurrent]
      exact .shifted (hfound.trans h)
  | reduced h hdepth hgoto => exact .reduced (hfound.trans h) hdepth hgoto
  | underflow h hdepth => exact .underflow (hfound.trans h) hdepth
  | gotoError h hdepth hgoto => exact .gotoError (hfound.trans h) hdepth hgoto
  | accept h hinput => exact .accept (hfound.trans h) (hlength.trans hinput)
  | unfinished h hinput => exact .unfinished (hfound.trans h) (hlength ▸ hinput)
  | noTransition h => exact .noTransition (hfound.trans h)
  | invalidAction h hshift hreduce haccept =>
      exact .invalidAction (hfound.trans h) hshift hreduce haccept

/-- With only the end marker left, the machine finds no action, as it does with the end marker
unless it uses an entry there. -/
theorem step_relabel_of_end {table : Table}
    (hcolumn : ∀ number, table.get? (.state number) endSymbol = none) (hne : algorithm ≠ .ll1)
    {c : Config} (hinput : c.input = [endMarker]) :
    ShiftReduce.step table endSymbol (c.relabel endSymbol) =
      if (ShiftReduce.step table endMarker c).move.usesEntry algorithm then
        ⟨.noTransition, c.relabel endSymbol⟩
      else (ShiftReduce.step table endMarker c).map (Config.relabel endSymbol) := by
  have hinput' : (c.relabel endSymbol).input = [endSymbol] := by
    rw [Config.relabel, Config.withInput, hinput]
    rfl
  have hstep : ShiftReduce.step table endSymbol (c.relabel endSymbol) =
      ⟨.noTransition, c.relabel endSymbol⟩ := by
    apply Effect.step_eq
    refine .noTransition ?_
    rw [found, hinput', List.headD_cons, hcolumn]
    rfl
  rw [hstep]
  have heffect := step_effect table endMarker c
  revert heffect
  generalize ShiftReduce.step table endMarker c = moment
  intro heffect
  cases heffect with
  | shifted | reduced | underflow | gotoError | invalidAction => rfl
  | accept => exact (if_pos (decide_eq_true hne)).symm
  | unfinished _ hlength => exact absurd (by rw [hinput]; rfl) hlength
  | noTransition => rfl

/-- The machine follows the one with the end marker behind the tokens, until it would use an entry
under the end marker. -/
theorem follows (hbuilt : Built g algorithm collection) (hend : g.AvoidsEndMarker)
    (hunused : g.Unused endSymbol) (hne : endSymbol ≠ endMarker) (halgorithm : algorithm ≠ .ll1) :
    Machine.Follows ((view endMarker).usesEnd algorithm) (Move.missing algorithm)
      (Fresh collection.states endSymbol) (Config.relabel endSymbol)
      (ShiftReduce.step collection.table endMarker)
      (ShiftReduce.step collection.table endSymbol) :=
  (view endMarker).follows_of_freshInput (fun _ h => h.input) (fun _ h => h.step hbuilt hend)
    (fun _ _ hcurrent => step_relabel_of_ne collection.table hcurrent)
    (fun _ _ hinput => by
      rw [Move.missing_of_ne_ll1 halgorithm]
      exact step_relabel_of_end (get?_eq_none_of_unused hbuilt hunused hne) halgorithm hinput)

/-- What is shown is the same up to the symbol in the place of the end marker. -/
theorem shown_relabel (hbuilt : Built g algorithm collection) (hend : g.AvoidsEndMarker)
    {moment : Moment Config} (h : Fresh collection.states endSymbol moment.config) :
    (view endSymbol).shown (moment.map (Config.relabel endSymbol)) =
      ((view endMarker).shown moment).relabel endSymbol := by
  have hnumbers : endMarker ∉ moment.config.states.map toString := by
    intro hmem
    obtain ⟨n, -, hn⟩ := List.mem_map.mp hmem
    exact toString_ne_endMarker n hn
  have hmarker : endMarker ∉ (moment.config.frames.map Frame.symbol).reverse := by
    intro hmem
    obtain ⟨frame, hframe, hsymbol⟩ := List.mem_map.mp (List.mem_reverse.mp hmem)
    exact hend.unused.ne (h.isPath.symbol_cases hbuilt.linked frame hframe) hsymbol
  have hsymbols : Config.symbols endSymbol (moment.config.relabel endSymbol) =
      (Config.symbols endMarker moment.config).map (relabel endSymbol) := by
    rw [Config.symbols, Config.symbols, List.map_cons, map_relabel_of_not_mem hmarker]
    rfl
  unfold Machine.View.shown TraceStep.relabel view Moment.map
  simp only
  rw [hsymbols, map_relabel_of_not_mem hnumbers]
  rfl

/-- What is shown of a run with the table of a collection. -/
theorem parse_agreesUpToEnd (hbuilt : Built g algorithm collection)
    (halgorithm : algorithm ≠ .ll1) (htable : collection.table.algorithm = algorithm)
    (hend : g.AvoidsEndMarker) (hunused : g.Unused endSymbol) {tokens : List Symbol}
    (hmarker : endMarker ∉ tokens) (hs : endSymbol ∉ tokens) (maxSteps : Int) :
    AgreesUpToEnd endSymbol (parse collection.table tokens ⟨maxSteps, endMarker⟩)
      (parse collection.table tokens ⟨maxSteps, endSymbol⟩) := by
  by_cases hne : endSymbol = endMarker
  · subst hne
    exact .refl _
  · have hstart : Config.relabel endSymbol (Config.initial (tokens ++ [endMarker])) =
        Config.initial (tokens ++ [endSymbol]) :=
      congrArg Config.initial (map_relabel_tokens hmarker)
    have hfresh : Fresh collection.states endSymbol (Config.initial (tokens ++ [endMarker])) :=
      ⟨.of_tokens hmarker hs, trivial⟩
    have hagrees := Machine.View.agreesUpToEnd (follows hbuilt hend hunused hne halgorithm)
      (fun _ => shown_relabel hbuilt hend) (fun _ => rfl) hne maxSteps.toNat hfresh
    rw [hstart, ← htable] at hagrees
    exact hagrees

end runs

end ShiftReduce

/-! ## The theorem -/

/-- A grammar is read from a text, and a symbol that is neither a token nor one of the grammar is put
behind the tokens. For every table the run is the one with the end marker behind the tokens, with the
symbol in its place, or it fails where that run uses an entry with only the end marker left. -/
theorem simulate_freshEnd {g : Grammar} {text : String} (hread : Grammar.read text = .ok g)
    {endSymbol : Symbol} (hn : endSymbol ∉ g.nonTerminals) (hterminal : endSymbol ∉ g.terminals) :
    (∀ (tokens : List Symbol) (maxSteps : Int), endMarker ∉ tokens → endSymbol ∉ tokens →
      AgreesUpToEnd endSymbol
        (simulate g (Table.predictive g (compute g)) tokens ⟨maxSteps, endMarker⟩)
        (simulate g (Table.predictive g (compute g)) tokens ⟨maxSteps, endSymbol⟩)) ∧
    ∀ algorithm ∈ Algorithm.shiftReduce, ∃ collection,
      Collection.build g (compute g) algorithm = .ok collection ∧
      ∀ (tokens : List Symbol) (maxSteps : Int), endMarker ∉ tokens → endSymbol ∉ tokens →
        AgreesUpToEnd endSymbol (simulate g collection.table tokens ⟨maxSteps, endMarker⟩)
          (simulate g collection.table tokens ⟨maxSteps, endSymbol⟩) := by
  have hend := Grammar.avoidsEndMarker_of_read hread
  have hunused : g.Unused endSymbol :=
    ⟨Bool.eq_false_of_not_eq_true (mt Grammar.isNonTerminal_iff.mp hn), hterminal⟩
  constructor
  · intro tokens maxSteps hmarker hs
    have htable := Table.algorithm_predictive g (compute g)
    rw [simulate, simulate, if_pos htable, if_pos htable]
    exact Predictive.parse_agreesUpToEnd hend hunused hmarker hs maxSteps
  · intro algorithm halgorithm
    obtain ⟨collection, hbuild, hbuilt⟩ := Collection.exists_built g halgorithm
    refine ⟨collection, hbuild, fun tokens maxSteps hmarker hs => ?_⟩
    have htable := Collection.algorithm_table hbuild
    have halgorithm' : algorithm ≠ .ll1 := by
      rintro rfl
      exact absurd halgorithm (by decide)
    have hne : collection.table.algorithm ≠ .ll1 := by rwa [htable]
    rw [simulate, simulate, if_neg hne, if_neg hne]
    exact ShiftReduce.parse_agreesUpToEnd hbuilt halgorithm' htable hend hunused hmarker hs maxSteps

/-- With `end` behind them, brackets are accepted by the predictive machine as with the end marker,
since it does not use the table at the end; the shift-reduce machine fails there. -/
theorem simulate_freshEnd_nested :
    Grammar.read "S -> a S b |" = .ok .nested ∧ "end" ∉ Grammar.nested.nonTerminals ∧
    "end" ∉ Grammar.nested.terminals ∧ endMarker ∉ ["a", "b"] ∧ "end" ∉ ["a", "b"] ∧
    simulate .nested (Table.predictive .nested (compute .nested)) ["a", "b"] ⟨1000, "end"⟩ =
      (simulate .nested (Table.predictive .nested (compute .nested)) ["a", "b"]
        ⟨1000, endMarker⟩).relabel "end" ∧
    ∃ collection, Collection.build .nested (compute .nested) .slr1 = .ok collection ∧
      simulate .nested collection.table ["a", "b"] ⟨1000, "end"⟩ =
        (simulate .nested collection.table ["a", "b"]
          ⟨1000, endMarker⟩).cutAtEnd.relabel "end" := by
  have hn : "end" ∉ Grammar.nested.nonTerminals := by decide +kernel
  have hterminal : "end" ∉ Grammar.nested.terminals := by decide +kernel
  have hmarker : endMarker ∉ ["a", "b"] := by decide
  have hs : "end" ∉ ["a", "b"] := by decide
  obtain ⟨hpredictive, hcollections⟩ := simulate_freshEnd Grammar.read_nested hn hterminal
  obtain ⟨collection, hbuild, hagrees⟩ := hcollections .slr1 (by decide)
  refine ⟨Grammar.read_nested, hn, hterminal, hmarker, hs, ?_, collection, hbuild, ?_⟩
  · exact (hpredictive ["a", "b"] 1000 hmarker hs).eq_relabel (Or.inr (by decide +kernel))
  · have hused : (Collection.build .nested (compute .nested) .slr1).toOption.map (fun c =>
        decide (simulate .nested c.table ["a", "b"] ⟨1000, endMarker⟩).UsesEnd) = some true := by
      decide +kernel
    rw [hbuild] at hused
    exact (hagrees ["a", "b"] 1000 hmarker hs).eq_relabel_cutAtEnd (by decide)
      (of_decide_eq_true (Option.some.inj hused))

/-- With the end marker behind them, no tokens are accepted by the predictive machine and a pair of
brackets by the shift-reduce machine. With `end` in its place, which is neither a token nor a symbol
of the grammar, both fail for want of an entry. -/
theorem rejected_freshEnd_nested :
    Grammar.read "S -> a S b |" = .ok .nested ∧ "end" ∉ Grammar.nested.nonTerminals ∧
    "end" ∉ Grammar.nested.terminals ∧ endMarker ∉ ["a", "b"] ∧ "end" ∉ ["a", "b"] ∧
    (simulate .nested (Table.predictive .nested (compute .nested)) []
      ⟨1000, endMarker⟩).outcome = .accepted ∧
    (simulate .nested (Table.predictive .nested (compute .nested)) []
      ⟨1000, "end"⟩).outcome = .noEntry ∧
    ∃ collection, Collection.build .nested (compute .nested) .slr1 = .ok collection ∧
      (simulate .nested collection.table ["a", "b"] ⟨1000, endMarker⟩).outcome = .accepted ∧
      (simulate .nested collection.table ["a", "b"] ⟨1000, "end"⟩).outcome = .noTransition := by
  refine ⟨Grammar.read_nested, by decide +kernel, by decide +kernel, by decide, by decide,
    by decide +kernel, by decide +kernel, ?_⟩
  obtain ⟨collection, hbuild, -⟩ :=
    Collection.exists_built .nested (show Algorithm.slr1 ∈ Algorithm.shiftReduce by decide)
  have hruns : (Collection.build .nested (compute .nested) .slr1).toOption.map (fun c =>
      ((simulate .nested c.table ["a", "b"] ⟨1000, endMarker⟩).outcome,
        (simulate .nested c.table ["a", "b"] ⟨1000, "end"⟩).outcome)) =
      some (.accepted, .noTransition) := by decide +kernel
  rw [hbuild] at hruns
  obtain ⟨haccepted, hfailed⟩ := Prod.mk.inj (Option.some.inj hruns)
  exact ⟨collection, hbuild, haccepted, hfailed⟩

end TableParsing
