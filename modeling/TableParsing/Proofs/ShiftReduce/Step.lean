import TableParsing.Proofs.Collection.Built
import TableParsing.Proofs.Machine.Reading

/-!
# Steps of the shift-reduce machine

`Effect` lists what a step can do, with all that the machine has checked before it does it; every
step is one of these (`step_effect`) and only one (`Effect.step_eq`), whatever the table. Of the
input a step sees the first symbol only, and whether more come behind it (`readsOne_step`).

On the table of a collection the states on the stack are a path through the automaton along the
symbols beside them (`IsPath`). So an item with its dot behind some symbols is there only if these
symbols are on top of the stack, and the item was in the state below them (`IsPath.of_holds`): what
a reduction takes off the stack is the body of its production, and the goto of the uncovered state
is there (`IsPath.exists_goto`). This does not depend on the symbol behind the tokens.
-/

namespace TableParsing.ShiftReduce

open Collection

/-! ## What a step can do -/

/-- The action that the machine executes. -/
def found (table : Table) (endSymbol : Symbol) (c : Config) : Option Action :=
  (table.get? (.state c.state) (c.input.headD endSymbol)).map Action.primary

/-- The goto that the machine follows after it has uncovered a state. -/
def gotoFrom (table : Table) (number : Int) (symbol : Symbol) : Option Action :=
  (table.get? (.state number) symbol).map Action.primary

/-- The number of a node that a reduction makes: a marker of an empty body comes first. -/
def nodeNumber (c : Config) (p : Production) : Nat :=
  if p.isEpsilon then c.nextNode + 1 else c.nextNode

/-- The effects of one step, each with the conditions under which it happens. -/
inductive Effect (table : Table) (endSymbol : Symbol) (c : Config) : Moment Config → Prop
  | shifted {next : Int} (hfound : found table endSymbol c = some (.shift next)) :
      Effect table endSymbol c
        ⟨.shifted (c.input.headD endSymbol) next,
          { frames := ⟨next, c.input.headD endSymbol,
              .leaf c.nextNode (c.input.headD endSymbol)⟩ :: c.frames
            input := c.input.tail
            nextNode := c.nextNode + 1 }⟩
  | reduced {p : Production} {next : Int} (hfound : found table endSymbol c = some (.reduce p))
      (hdepth : p.body.length ≤ c.frames.length)
      (hgoto : gotoFrom table (Config.stateAfter (c.frames.drop p.body.length)) p.lhs =
        some (.goto next)) :
      Effect table endSymbol c
        ⟨.reduced p,
          { c with
            frames := ⟨next, p.lhs, .node (nodeNumber c p) p.lhs (handle c p)⟩ ::
              c.frames.drop p.body.length
            nextNode := nodeNumber c p + 1 }⟩
  | underflow {p : Production} (hfound : found table endSymbol c = some (.reduce p))
      (hdepth : c.frames.length < p.body.length) : Effect table endSymbol c ⟨.underflow p, c⟩
  | gotoError {p : Production} (hfound : found table endSymbol c = some (.reduce p))
      (hdepth : p.body.length ≤ c.frames.length)
      (hgoto : ∀ next,
        gotoFrom table (Config.stateAfter (c.frames.drop p.body.length)) p.lhs ≠
          some (.goto next)) :
      Effect table endSymbol c
        ⟨.gotoError p,
          { c with frames := c.frames.drop p.body.length, nextNode := nodeNumber c p }⟩
  | accept (hfound : found table endSymbol c = some .accept) (hinput : c.input.length = 1) :
      Effect table endSymbol c ⟨.accept, c⟩
  | unfinished (hfound : found table endSymbol c = some .accept) (hinput : c.input.length ≠ 1) :
      Effect table endSymbol c ⟨.noTransition, c⟩
  | noTransition (hfound : found table endSymbol c = none) :
      Effect table endSymbol c ⟨.noTransition, c⟩
  | invalidAction {a : Action} (hfound : found table endSymbol c = some a)
      (hshift : ∀ next, a ≠ .shift next) (hreduce : ∀ p, a ≠ .reduce p) (haccept : a ≠ .accept) :
      Effect table endSymbol c ⟨.invalidAction, c⟩

/-- A reduction has one of the effects. -/
theorem reduce_effect {table : Table} {endSymbol : Symbol} {c : Config} {p : Production}
    (hfound : found table endSymbol c = some (.reduce p)) :
    Effect table endSymbol c (reduce table c p) := by
  unfold reduce
  split
  · next hdepth => exact .underflow hfound hdepth
  · next hdepth =>
      have hdepth := Nat.not_lt.mp hdepth
      simp only
      split
      · next next hgoto => exact .reduced hfound hdepth hgoto
      · next hgoto => exact .gotoError hfound hdepth hgoto

/-- Every step has one of the effects. -/
theorem step_effect (table : Table) (endSymbol : Symbol) (c : Config) :
    Effect table endSymbol c (step table endSymbol c) := by
  unfold step
  simp only
  split
  · next hfound => exact .noTransition hfound
  · next next hfound => exact .shifted hfound
  · next p hfound => exact reduce_effect hfound
  · next hfound =>
      split
      · next hinput => exact .accept hfound hinput
      · next hinput => exact .unfinished hfound hinput
  · next a hshift hreduce haccept hfound => exact .invalidAction hfound hshift hreduce haccept

/-! ## Steps that go on -/

section steps

variable {table : Table} {endSymbol : Symbol} {c : Config}

/-- The effects exclude one another: what the conditions of one of them say, the step does. -/
theorem Effect.step_eq {moment : Moment Config} (h : Effect table endSymbol c moment) :
    step table endSymbol c = moment := by
  cases h with
  | shifted hfound | noTransition hfound =>
      unfold found at hfound
      rw [step, hfound]
  | reduced hfound hdepth hgoto =>
      unfold found at hfound
      unfold gotoFrom at hgoto
      rw [step, hfound]
      simp only
      rw [reduce, if_neg (Nat.not_lt.mpr hdepth)]
      simp only
      rw [hgoto]
      rfl
  | underflow hfound hdepth =>
      unfold found at hfound
      rw [step, hfound]
      exact if_pos hdepth
  | @gotoError p hfound hdepth hgoto =>
      unfold found at hfound
      unfold gotoFrom at hgoto
      rw [step, hfound]
      simp only
      rw [reduce, if_neg (Nat.not_lt.mpr hdepth)]
      simp only
      generalize (table.get? (.state (Config.stateAfter (c.frames.drop p.body.length)))
        p.lhs).map Action.primary = action at hgoto ⊢
      rcases action with _ | (_ | _ | next | _ | _ | _)
      case some.goto => exact absurd rfl (hgoto next)
      all_goals rfl
  | accept hfound hinput =>
      unfold found at hfound
      rw [step, hfound]
      simp only
      rw [if_pos hinput]
  | unfinished hfound hinput =>
      unfold found at hfound
      rw [step, hfound]
      simp only
      rw [if_neg hinput]
  | @invalidAction a hfound hshift hreduce haccept =>
      unfold found at hfound
      rw [step, hfound]
      cases a with
      | shift next => exact absurd rfl (hshift next)
      | reduce p => exact absurd rfl (hreduce p)
      | accept => exact absurd rfl haccept
      | goto | predict | conflict => rfl

/-- The move of a step is that of its effect. -/
theorem Effect.move_eq {move : Move} {config : Config}
    (h : Effect table endSymbol c ⟨move, config⟩) : (step table endSymbol c).move = move := by
  rw [h.step_eq]

/-- The machine makes the shift that it finds. -/
theorem step_of_shift {next : Int} (hfound : found table endSymbol c = some (.shift next)) :
    step table endSymbol c =
      ⟨.shifted (c.input.headD endSymbol) next,
        { frames := ⟨next, c.input.headD endSymbol,
            .leaf c.nextNode (c.input.headD endSymbol)⟩ :: c.frames
          input := c.input.tail
          nextNode := c.nextNode + 1 }⟩ := Effect.step_eq (.shifted hfound)

/-- The machine makes the reduction that it finds, if the body is on top of the stack and the
uncovered state has a goto. -/
theorem step_of_reduce {p : Production} {next : Int} {top below : List Frame}
    (hfound : found table endSymbol c = some (.reduce p)) (hframes : c.frames = top ++ below)
    (htop : top.length = p.body.length)
    (hgoto : gotoFrom table (Config.stateAfter below) p.lhs = some (.goto next)) :
    step table endSymbol c =
      ⟨.reduced p,
        { c with
          frames := ⟨next, p.lhs, .node (nodeNumber c p) p.lhs (handle c p)⟩ :: below
          nextNode := nodeNumber c p + 1 }⟩ := by
  have hdrop : c.frames.drop p.body.length = below := by
    rw [hframes, ← htop, List.drop_left]
  have hdepth : p.body.length ≤ c.frames.length := by
    rw [hframes, List.length_append]
    omega
  rw [← hdrop] at hgoto ⊢
  exact Effect.step_eq (.reduced hfound hdepth hgoto)

/-- The machine accepts at the end of the input. -/
theorem step_of_accept (hfound : found table endSymbol c = some .accept)
    (hinput : c.input.length = 1) : step table endSymbol c = ⟨.accept, c⟩ :=
  Effect.step_eq (.accept hfound hinput)

/-- No step has the outcome of the limit. -/
theorem outcome_ne_stepLimit {o : Outcome}
    (ho : (step table endSymbol c).move.outcome? = some o) : o ≠ .stepLimit := by
  have heffect := step_effect table endSymbol c
  revert ho heffect
  generalize step table endSymbol c = moment
  intro ho heffect
  cases heffect with
  | shifted | reduced => cases ho
  | underflow | gotoError | accept | unfinished | noTransition | invalidAction =>
      cases ho
      decide

/-- The tree of an accepted run is the one on top of the stack at its end. -/
theorem tree_parse {tokens : List Symbol} {options : RunOptions} {moment : Moment Config}
    (hlast : (Machine.trace (step table options.endSymbol) options.limit
      (Config.initial (tokens ++ [options.endSymbol]))).getLast? = some moment)
    (haccepted : (parse table tokens options).outcome = .accepted) :
    (parse table tokens options).tree = moment.config.frames.head?.map Frame.tree := by
  unfold parse at haccepted ⊢
  simp only at haccepted ⊢
  rw [if_pos haccepted, lastMoment, hlast, Option.getD_some]

/-- The rest of the input is that of the last configuration. -/
theorem remaining_parse {tokens : List Symbol} {options : RunOptions} {moment : Moment Config}
    (hlast : (Machine.trace (step table options.endSymbol) options.limit
      (Config.initial (tokens ++ [options.endSymbol]))).getLast? = some moment) :
    (parse table tokens options).remaining = moment.config.input := by
  unfold ParseResult.remaining parse
  simp only
  rw [List.getLast?_map, hlast]
  rfl

end steps

/-! ## What a step reads -/

section reading

variable {table : Table} {endSymbol : Symbol} {c : Config}

/-- A configuration with another rest of the input. -/
def Config.withInput (c : Config) (input : List Symbol) : Config := { c with input := input }

/-- The machine sees the first symbol of its input, and whether more come behind it. -/
theorem readsOne_step (table : Table) (endSymbol : Symbol) :
    Machine.ReadsOne (step table endSymbol) Config.input Config.withInput where
  length_le := by
    intro c
    have heffect := step_effect table endSymbol c
    revert heffect
    generalize step table endSymbol c = moment
    intro heffect
    cases heffect with
    | shifted => simp
    | reduced | underflow | gotoError | accept | unfinished | noTransition | invalidAction =>
        exact Nat.le_refl _
  step_withInput := by
    intro c s xs ys hinput hnone
    have hcurrent : c.input.headD endSymbol = s := by rw [hinput, List.headD_cons]
    have hfound : found table endSymbol (c.withInput (s :: ys)) = found table endSymbol c := by
      rw [found, found, hcurrent]
      rfl
    have heffect := step_effect table endSymbol c
    revert hnone heffect
    generalize step table endSymbol c = moment
    intro hnone heffect
    cases heffect with
    | shifted h =>
        refine ⟨1, Nat.le_refl _, by rw [hinput]; rfl, ?_⟩
        rw [hcurrent]
        exact Effect.step_eq (.shifted (hfound.trans h))
    | reduced h hdepth hgoto =>
        refine ⟨0, Nat.zero_le _, hinput, ?_⟩
        exact Effect.step_eq (.reduced (hfound.trans h) hdepth hgoto)
    | underflow | gotoError | accept | unfinished | noTransition | invalidAction => cases hnone
  move_withInput := by
    intro c s xs ys hinput hxs hys
    have hcurrent : c.input.headD endSymbol = s := by rw [hinput, List.headD_cons]
    have hfound : found table endSymbol (c.withInput (s :: ys)) = found table endSymbol c := by
      rw [found, found, hcurrent]
      rfl
    have hlength : (c.withInput (s :: ys)).input.length ≠ 1 := by simpa [Config.withInput] using hys
    have heffect := step_effect table endSymbol c
    revert heffect
    generalize step table endSymbol c = moment
    intro heffect
    cases heffect with
    | shifted h =>
        rw [hcurrent]
        exact Effect.move_eq (.shifted (hfound.trans h))
    | reduced h hdepth hgoto =>
        exact Effect.move_eq (.reduced (hfound.trans h) hdepth hgoto)
    | underflow h hdepth =>
        exact Effect.move_eq (.underflow (hfound.trans h) hdepth)
    | gotoError h hdepth hgoto =>
        exact Effect.move_eq (.gotoError (hfound.trans h) hdepth hgoto)
    | accept _ hlength' =>
        rw [hinput] at hlength'
        exact absurd hlength' (by simpa using hxs)
    | unfinished h =>
        exact Effect.move_eq (.unfinished (hfound.trans h) hlength)
    | noTransition h => exact Effect.move_eq (.noTransition (hfound.trans h))
    | invalidAction h hshift hreduce haccept =>
        exact Effect.move_eq (.invalidAction (hfound.trans h) hshift hreduce haccept)
  input_of_outcome := by
    intro c o ho
    have heffect := step_effect table endSymbol c
    revert heffect ho
    generalize step table endSymbol c = moment
    intro ho heffect
    cases heffect with
    | shifted | reduced => cases ho
    | underflow | gotoError | accept | unfinished | noTransition | invalidAction => rfl

end reading

/-! ## The stack as a path -/

/-- The states on the stack follow the transitions on the symbols. -/
def IsPath (states : List State) : List Frame → Prop
  | [] => True
  | frame :: below =>
    Goes states (Config.stateAfter below) frame.symbol frame.state ∧ IsPath states below

/-- The symbols that some frames on top of the stack stand for, from the lowest. -/
def symbolsOf (frames : List Frame) : List Symbol := (frames.map Frame.symbol).reverse

/-- The trees of some frames on top of the stack, from the lowest. -/
def treesOf (frames : List Frame) : List Tree := (frames.map Frame.tree).reverse

section path

variable {g : Grammar} {hasLookahead : Bool} {states : List State}

/-- A part of the stack from its bottom is a path. -/
theorem IsPath.drop : (count : Nat) → {frames : List Frame} → IsPath states frames →
    IsPath states (frames.drop count)
  | 0, _, h => h
  | _ + 1, [], h => h
  | count + 1, _ :: _, h => IsPath.drop count h.2

/-- The symbols on a path are non-terminals and terminals. -/
theorem IsPath.symbol_cases
    (hlinked : Linked (ItemSystem.computed g hasLookahead) states.length [] states) :
    {frames : List Frame} → IsPath states frames → ∀ frame ∈ frames,
      g.isNonTerminal frame.symbol = true ∨ frame.symbol ∈ g.terminals
  | frame :: below, h, frame', hmem => by
      rcases List.mem_cons.mp hmem with rfl | hmem
      · exact hlinked.symbol_cases_of_goes h.1
      · exact IsPath.symbol_cases hlinked h.2 frame' hmem

/-- Only the empty path ends in the first state. -/
theorem IsPath.eq_nil
    (hlinked : Linked (ItemSystem.computed g hasLookahead) states.length [] states) :
    {frames : List Frame} → IsPath states frames → Config.stateAfter frames = 0 → frames = []
  | [], _, _ => rfl
  | _ :: _, h, hzero => absurd hzero (hlinked.ne_zero_of_goes h.1)

/-- The symbols before the dot of an item are on top of the stack, and the item with its dot before
the body is in the state below them. -/
theorem IsPath.of_holds
    (hlinked : Linked (ItemSystem.computed g hasLookahead) states.length [] states) {r : Rule}
    {lookahead : Option Symbol} :
    (place : Nat) → {frames : List Frame} → IsPath states frames →
      Holds states (Config.stateAfter frames) (.dotted r place lookahead) →
        place ≤ frames.length ∧ symbolsOf (frames.take place) = r.body.take place ∧
          Holds states (Config.stateAfter (frames.drop place)) (.dotted r 0 lookahead)
  | 0, _, _, hholds => ⟨Nat.zero_le _, rfl, hholds⟩
  | place + 1, [], _, hholds =>
      absurd (hlinked.place_eq_zero_of_holds hholds) (Nat.succ_ne_zero place)
  | place + 1, frame :: below, h, hholds => by
      obtain ⟨hnext, hbefore⟩ := hlinked.of_holds_advanced h.1 hholds
      obtain ⟨hlength, hsymbols, hstart⟩ := IsPath.of_holds hlinked place h.2 hbefore
      refine ⟨Nat.succ_le_succ hlength, ?_, hstart⟩
      rw [List.take_succ_cons, List.take_add_one, hnext, ← hsymbols]
      simp [symbolsOf]

/-- The symbols of a complete item are its body. -/
theorem IsPath.of_holds_complete
    (hlinked : Linked (ItemSystem.computed g hasLookahead) states.length [] states) {r : Rule}
    {lookahead : Option Symbol} {frames : List Frame} (h : IsPath states frames)
    (hholds : Holds states (Config.stateAfter frames) (.dotted r r.body.length lookahead)) :
    r.body.length ≤ frames.length ∧ symbolsOf (frames.take r.body.length) = r.body ∧
      Holds states (Config.stateAfter (frames.drop r.body.length)) (.dotted r 0 lookahead) := by
  have hpath := IsPath.of_holds hlinked r.body.length h hholds
  rwa [List.take_length] at hpath

end path

/-! ## Steps on the table of a collection -/

section built

variable {g : Grammar} {algorithm : Algorithm} {collection : Collection} {endSymbol : Symbol}
  {c : Config}

/-- A reduction that the machine finds takes a body off the stack, and the uncovered state has a
goto. -/
theorem IsPath.exists_goto (hbuilt : Built g algorithm collection) (hend : g.AvoidsEndMarker)
    (h : IsPath collection.states c.frames) {p : Production}
    (hfound : found collection.table endSymbol c = some (.reduce p)) :
    p ∈ g.productions ∧ p.body.length ≤ c.frames.length ∧
      symbolsOf (c.frames.take p.body.length) = p.body ∧
      ∃ next, gotoFrom collection.table (Config.stateAfter (c.frames.drop p.body.length)) p.lhs =
        some (.goto next) := by
  obtain ⟨hp, lookahead, hholds, -⟩ := hbuilt.of_reduce hfound
  obtain ⟨hdepth, hsymbols, hstart⟩ := h.of_holds_complete hbuilt.linked hholds
  obtain ⟨caller, hcaller, hnext⟩ :=
    hbuilt.linked.exists_caller hstart (Grammar.lhs_ne_augmentedStart hp)
  obtain ⟨next, hgoes, -⟩ := hbuilt.linked.exists_goes hcaller hnext
  exact ⟨hp, hdepth, hsymbols, next, hbuilt.goto_of_goes hend
    (Grammar.isNonTerminal_lhs (Grammar.toRule_mem_rules hp)) hgoes⟩

/-- Every step leaves a path on the stack. -/
theorem IsPath.step (hbuilt : Built g algorithm collection)
    (h : IsPath collection.states c.frames) :
    IsPath collection.states (step collection.table endSymbol c).config.frames := by
  have heffect := step_effect collection.table endSymbol c
  revert heffect
  generalize ShiftReduce.step collection.table endSymbol c = moment
  intro heffect
  cases heffect with
  | shifted hfound => exact ⟨(hbuilt.of_shift hfound).1, h⟩
  | reduced hfound _ hgoto => exact ⟨(hbuilt.of_goto hgoto).1, h.drop _⟩
  | gotoError => exact h.drop _
  | underflow | accept | unfinished | noTransition | invalidAction => exact h

end built

end TableParsing.ShiftReduce
