import TableParsing.Proofs.Collection.Canonical
import TableParsing.Proofs.Collection.Processing
import TableParsing.Proofs.History

/-!
# The history of a collection

The history of a collection shows its construction step by step (`Recorded`). A snapshot that tells
of a transition differs from the one before it in this transition, and in the state that it leads to
if that is a new one (`Event.Changes`); any other snapshot has the states of the one before it. So at
any time the states are the first ones of the finished collection, with some of their transitions
(`PartOf`).

A transition is told of by two snapshots, the second of which adds it, and a state by the one before
its transitions; with the first snapshot and the last one that makes their number
(`exists_trail_construct`).
-/

namespace TableParsing.Collection

open ItemSystem NumberedItem

variable {system : ItemSystem} {place : Nat} {done : List Symbol} {states : List State}

/-! ## One event -/

/-- A transition has been added to the states, and nothing else is different. -/
structure AddsTransition (source : Nat) (symbol : Symbol) (target : Nat)
    (before after : List State) : Prop where
  /-- There are the same numbers of states. -/
  length_eq : after.length = before.length
  /-- The transition leads to one of the states. -/
  target_lt : target < before.length
  /-- The source has got the transition behind those that it had, and none on the symbol. -/
  added : ∃ old new : State, before[source]? = some old ∧ after[source]? = some new ∧
    new.id = old.id ∧ new.items = old.items ∧ symbol ∉ old.transitions.keys ∧
    new.transitions.entries = old.transitions.entries ++ [(symbol, (target : Int))]
  /-- The other states are the same. -/
  other : ∀ i, i ≠ source → after[i]? = before[i]?

/-- What an event changes: one that tells of a transition adds the transition that its caption points
at, one that tells of a new state adds this, too, and any other event changes nothing. The
construction begins only once. -/
def Event.Changes (event : Event) (before after : List State) : Prop :=
  match event with
  | .initialised _ => False
  | .linked .. => ∃ (source : Nat) (symbol : Symbol) (target : Nat),
      event.caption =
        ⟨"Linked State " ++ toString source ++ " --(" ++ symbol ++ ")--> Existing State " ++
          toString target, some symbol, some (source : Int), some (target : Int)⟩ ∧
      AddsTransition source symbol target before after
  | .created .. => ∃ (source : Nat) (symbol : Symbol) (target : Nat) (items : List NumberedItem),
      event.caption =
        ⟨"Created New State " ++ toString target ++ ". Linked State " ++ toString source ++ " --(" ++
          symbol ++ ")--> State " ++ toString target, some symbol, some (source : Int),
          some (target : Int)⟩ ∧
      source < before.length ∧ target = before.length ∧
      AddsTransition source symbol target (before ++ [⟨(target : Int), items, .empty⟩]) after
  | .processing _ | .computed .. | .completed => after = before

/-- A transition on a further symbol is added. -/
theorem Linked.addsTransition (h : Linked system place done states) {s : State}
    (hs : states[place]? = some s) {symbol : Symbol} (hnew : symbol ∉ done) {target : Nat}
    (htarget : target < states.length) :
    AddsTransition place symbol target states (Collection.link states place symbol target) where
  length_eq := List.length_modify ..
  target_lt := htarget
  added := by
    have hkeys : symbol ∉ s.transitions.keys := by
      rw [h.keys place s hs, linkedSymbols, if_neg (Nat.lt_irrefl place), if_pos rfl]
      exact hnew
    refine ⟨s, { s with transitions := s.transitions.insert symbol (target : Int) }, hs, ?_, rfl,
      rfl, hkeys, OrderedMap.entries_insert _ hkeys _⟩
    rw [getElem?_link, hs, Option.map_some, if_pos rfl]
  other := by
    intro i hne
    rw [getElem?_link]
    simp only [Ne.symm hne, if_false, Option.map_id']

/-- The step for a symbol changes what its event says. -/
theorem Linked.changes_linkStep (h : Linked system place done states) {s : State}
    (hs : states[place]? = some s) {symbol : Symbol}
    (hsymbol : symbol ∈ NumberedItem.expected s.items) (hnew : symbol ∉ done) :
    (Collection.linkStep system place s.items symbol states).1.Changes states
      (Collection.linkStep system place s.items symbol states).2 := by
  unfold Collection.linkStep
  split
  · next target hfind =>
      obtain ⟨t, ht, -⟩ := exists_of_find? hfind
      have htarget : target < states.length := (List.getElem?_eq_some_iff.mp ht).1
      exact ⟨place, symbol, target, rfl, h.addsTransition hs hnew htarget⟩
  · next hfind =>
      have hplace : place < states.length := (List.getElem?_eq_some_iff.mp hs).1
      have hlonger := h.append hs hsymbol hfind
      have htarget : states.length <
          (states ++ [newState states (system.goto s.items symbol)]).length := by
        simp
      exact ⟨place, symbol, states.length, _, rfl, hplace, rfl,
        hlonger.addsTransition (getElem?_append_newState hs _) hnew htarget⟩

/-! ## The number of events -/

/-- The number of transitions of some states. -/
def transitionCount (states : List State) : Nat :=
  (states.map fun s => s.transitions.entries.length).sum

/-- Every transition leads somewhere. -/
theorem length_targets (states : List State) : (targets states).length = transitionCount states := by
  simp [targets, transitionCount, List.length_flatMap, OrderedMap.values]

/-- The step for a symbol adds one transition. -/
theorem Linked.transitionCount_linkStep (h : Linked system place done states) {s : State}
    (hs : states[place]? = some s) {symbol : Symbol}
    (hsymbol : symbol ∈ NumberedItem.expected s.items) (hnew : symbol ∉ done) :
    transitionCount (Collection.linkStep system place s.items symbol states).2 =
      transitionCount states + 1 := by
  simp only [← length_targets]
  unfold Collection.linkStep
  split
  · rw [h.targets_link hs hnew, List.length_append, List.length_singleton]
  · next hfind =>
      have hlonger := h.append hs hsymbol hfind
      have htargets := hlonger.targets_link (getElem?_append_newState hs _) hnew states.length
      rw [targets_append_newState] at htargets
      show (targets (Collection.link (states ++ [newState states (system.goto s.items symbol)])
        place symbol states.length)).length = _
      rw [htargets, List.length_append, List.length_singleton]

/-! ## Parts of the construction -/

/-- A part of the construction leads from some states to others, each event changing what it says,
and there are two events for each transition that is added, and as many more as states that are
processed. -/
structure Progress.Shows (progress : Progress) (before : List State) (processed : Nat) : Prop where
  /-- Each event changes what it says. -/
  trail : Trail Event.Changes before progress.steps progress.states
  /-- Every transition is told of by two events. -/
  length_eq : progress.steps.length + 2 * transitionCount before =
    processed + 2 * transitionCount progress.states

/-- The events for the transitions of a state. -/
theorem Underway.shows_addTransitions {items : List NumberedItem} :
    (symbols done : List Symbol) → (states : List State) → Underway system place done states →
      (∃ s, states[place]? = some s ∧ s.items = items) →
      (∀ symbol ∈ symbols, symbol ∈ NumberedItem.expected items) → (done ++ symbols).Nodup →
        (Collection.addTransitions system place items symbols states).Shows states 0
  | [], _, states, _, _, _, _ => ⟨.nil states, by simp [Collection.addTransitions]⟩
  | symbol :: symbols, done, states, h, ⟨s, hs, hitems⟩, hsymbols, hnodup => by
      subst hitems
      have hsymbol := hsymbols symbol List.mem_cons_self
      have hnew : symbol ∉ done := fun hmem =>
        List.disjoint_of_nodup_append hnodup hmem List.mem_cons_self
      rw [List.append_cons] at hnodup
      have hlater := shows_addTransitions symbols (done ++ [symbol]) _ (h.link hs hsymbol hnew)
        (exists_getElem?_linkStep system place s.items symbol hs)
        (fun X hX => hsymbols X (List.mem_cons_of_mem _ hX)) hnodup
      have hcount := h.linked.transitionCount_linkStep hs hsymbol hnew
      have hlength := hlater.length_eq
      rw [addTransitions_cons]
      refine ⟨.cons rfl (.cons (h.linked.changes_linkStep hs hsymbol hnew) hlater.trail), ?_⟩
      simp only [List.length_cons]
      omega

/-- The events for all states from one place on. -/
theorem Processes.shows {rounds : Nat} {progress : Progress}
    (h : Processes system place states rounds progress) :
    Underway system place [] states → progress.Shows states rounds := by
  induction h with
  | @finished _ states _ => exact fun _ => ⟨.nil states, by simp⟩
  | @next place states s own later rounds hs hown _ ih =>
      intro hunderway
      subst hown
      have hnodup : (NumberedItem.expected s.items).Nodup := nodup_distinct _
      have hown := hunderway.shows_addTransitions (NumberedItem.expected s.items) [] states
        ⟨s, hs, rfl⟩ (fun _ hX => hX) hnodup
      obtain ⟨hadded, s', hs', hitems⟩ := hunderway.addTransitions (NumberedItem.expected s.items)
        [] states ⟨s, hs, rfl⟩ (fun _ hX => hX) hnodup
      rw [List.nil_append] at hadded
      have hlater := ih (hadded.next hs' (by rw [hitems]))
      refine ⟨.cons rfl (hown.trail.append hlater.trail), ?_⟩
      have hownLength := hown.length_eq
      have hlaterLength := hlater.length_eq
      simp only [List.cons_append, List.length_cons, List.length_append]
      omega

/-! ## The states at one time -/

/-- The states are the first ones of others, with some of their transitions. -/
structure PartOf (part whole : List State) : Prop where
  /-- There are no more states. -/
  length_le : part.length ≤ whole.length
  /-- A state has the number and the items of the one at its place, and the first ones of its
  transitions. -/
  state : ∀ (i : Nat) (s t : State), part[i]? = some s → whole[i]? = some t →
    s.id = t.id ∧ s.items = t.items ∧ s.transitions.entries <+: t.transitions.entries

namespace PartOf

variable {part middle whole : List State}

/-- All states with all of their transitions are a part. -/
theorem refl (states : List State) : PartOf states states where
  length_le := Nat.le_refl _
  state := by
    intro i s t hs ht
    rw [hs] at ht
    cases ht
    exact ⟨rfl, rfl, List.prefix_refl _⟩

/-- A part of a part is a part. -/
theorem trans (h : PartOf part middle) (h' : PartOf middle whole) : PartOf part whole where
  length_le := h.length_le.trans h'.length_le
  state := by
    intro i s t hs ht
    have hi : i < middle.length := (List.getElem?_eq_some_iff.mp hs).1.trans_le h.length_le
    obtain ⟨hid, hitems, hentries⟩ := h.state i s _ hs (List.getElem?_eq_getElem hi)
    obtain ⟨hid', hitems', hentries'⟩ := h'.state i _ t (List.getElem?_eq_getElem hi) ht
    exact ⟨hid.trans hid', hitems.trans hitems', hentries.trans hentries'⟩

end PartOf

/-- States are a part of a longer list. -/
theorem partOf_append (states more : List State) : PartOf states (states ++ more) where
  length_le := by simp
  state := by
    intro i s t hs ht
    rw [List.getElem?_append_left (List.getElem?_eq_some_iff.mp hs).1, hs] at ht
    cases ht
    exact ⟨rfl, rfl, List.prefix_refl _⟩

/-- States are a part of those with one more transition. -/
theorem AddsTransition.partOf {source target : Nat} {symbol : Symbol} {before after : List State}
    (h : AddsTransition source symbol target before after) : PartOf before after where
  length_le := h.length_eq.ge
  state := by
    intro i s t hs ht
    by_cases hi : i = source
    · subst hi
      obtain ⟨old, new, hold, hnew, hid, hitems, -, hentries⟩ := h.added
      rw [hs] at hold
      rw [ht] at hnew
      cases hold
      cases hnew
      rw [hentries]
      exact ⟨hid.symm, hitems.symm, List.prefix_append _ _⟩
    · rw [h.other i hi, hs] at ht
      cases ht
      exact ⟨rfl, rfl, List.prefix_refl _⟩

/-- The states before an event are a part of those after it. -/
theorem Event.Changes.partOf {event : Event} {before after : List State}
    (h : event.Changes before after) : PartOf before after := by
  cases event with
  | initialised => cases h
  | linked =>
      obtain ⟨source, symbol, target, -, hadds⟩ := h
      exact hadds.partOf
  | created =>
      obtain ⟨source, symbol, target, items, -, -, -, hadds⟩ := h
      exact (partOf_append _ _).trans hadds.partOf
  | processing | computed | completed =>
      cases h
      exact .refl before

/-- The number of a state is its place, and transitions lead to such numbers. -/
structure Placed (states : List State) : Prop where
  /-- The number of a state is its place. -/
  id : ∀ (i : Nat) (s : State), states[i]? = some s → s.id = i
  /-- A transition leads to the number of a state. -/
  target : ∀ (i : Nat) (s : State), states[i]? = some s → ∀ next ∈ s.transitions.values,
    ∃ j < states.length, next = (j : Int)

namespace Placed

/-- The construction begins with a state in its place. -/
theorem initial (system : ItemSystem) : Placed [firstState system] where
  id := by
    intro i s hs
    obtain ⟨rfl, rfl⟩ := eq_of_getElem?_firstState hs
    rfl
  target := by
    intro i s hs next hnext
    obtain ⟨rfl, rfl⟩ := eq_of_getElem?_firstState hs
    cases hnext

/-- A new state comes to its place. -/
theorem append (h : Placed states) (items : List NumberedItem) :
    Placed (states ++ [newState states items]) where
  id := by
    intro i s hs
    rcases getElem?_append_newState_cases hs with hs | ⟨rfl, rfl⟩
    · exact h.id i s hs
    · rfl
  target := by
    intro i s hs next hnext
    rcases getElem?_append_newState_cases hs with hs | ⟨rfl, rfl⟩
    · obtain ⟨j, hj, rfl⟩ := h.target i s hs next hnext
      exact ⟨j, by simp; omega, rfl⟩
    · cases hnext

/-- A transition to one of the states keeps them in their places. -/
theorem addsTransition (h : Placed states) {source target : Nat} {symbol : Symbol}
    {after : List State} (hadds : AddsTransition source symbol target states after) :
    Placed after := by
  obtain ⟨old, new, hold, hnew, hid, -, -, hentries⟩ := hadds.added
  constructor
  · intro i s hs
    by_cases hi : i = source
    · subst hi
      rw [hnew] at hs
      cases hs
      rw [hid, h.id i old hold]
    · rw [hadds.other i hi] at hs
      exact h.id i s hs
  · intro i s hs next hnext
    rw [hadds.length_eq]
    by_cases hi : i = source
    · subst hi
      rw [hnew] at hs
      cases hs
      rw [OrderedMap.values, hentries, List.map_append, List.mem_append] at hnext
      rcases hnext with hnext | hnext
      · exact h.target i old hold next hnext
      · exact ⟨target, hadds.target_lt, List.mem_singleton.mp hnext⟩
    · rw [hadds.other i hi] at hs
      exact h.target i s hs next hnext

/-- An event keeps the states in their places. -/
theorem changes {event : Event} {before after : List State} (h : Placed before)
    (hchanges : event.Changes before after) : Placed after := by
  cases event with
  | initialised => cases hchanges
  | linked =>
      obtain ⟨source, symbol, target, -, hadds⟩ := hchanges
      exact h.addsTransition hadds
  | created =>
      obtain ⟨source, symbol, target, items, -, -, rfl, hadds⟩ := hchanges
      exact (h.append items).addsTransition hadds
  | processing | computed | completed =>
      cases hchanges
      exact h

end Placed

/-! ## The whole construction -/

/-- The construction leads from the first state to all of them, in a step at each end, one for each
state, and two for each transition. -/
theorem exists_trail_construct (g : Grammar) (hasLookahead : Bool) :
    ∃ later, (construct (computed g hasLookahead)).steps =
        (.initialised g.augmentedProduction, [firstState (computed g hasLookahead)]) :: later ∧
      Trail Event.Changes [firstState (computed g hasLookahead)] later
        (construct (computed g hasLookahead)).states ∧
      (construct (computed g hasLookahead)).steps.length =
        2 + (construct (computed g hasLookahead)).states.length +
          2 * transitionCount (construct (computed g hasLookahead)).states := by
  have hshows := (processes_construct g hasLookahead).shows .start
  have hlength := hshows.length_eq
  have hfirst : transitionCount [firstState (computed g hasLookahead)] = 0 := rfl
  unfold construct at hlength ⊢
  refine ⟨_, rfl, hshows.trail.append (.single rfl), ?_⟩
  simp only [List.length_append, List.length_cons, List.length_nil, grammar_computed] at hlength ⊢
  omega

/-! ## The history -/

/-- The history of a collection. -/
structure Recorded (system : ItemSystem) (collection : Collection) : Prop where
  /-- It has a snapshot at each end, one for each state, and two for each transition. -/
  length_eq : collection.history.length =
    2 + collection.states.length + 2 * transitionCount collection.states
  /-- It shows the construction step by step, from the first state to all states. -/
  replay : History.Replay Event.Changes (.initialised collection.augmented) [firstState system]
    collection.states collection.history
  /-- At any time there are the first ones of the states, with some of their transitions. -/
  partOf : ∀ snapshot ∈ collection.history, PartOf snapshot.data collection.states
  /-- At any time transitions lead to states that are there. -/
  closed : ∀ snapshot ∈ collection.history, ∀ s ∈ snapshot.data,
    ∀ next ∈ s.transitions.values, ∃ t ∈ snapshot.data, t.id = next

/-- In their places, states have transitions to states that are there. -/
theorem Placed.closed (h : Placed states) {s : State} (hs : s ∈ states) {next : Int}
    (hnext : next ∈ s.transitions.values) : ∃ t ∈ states, t.id = next := by
  obtain ⟨i, hi⟩ := List.getElem?_of_mem hs
  obtain ⟨j, hj, rfl⟩ := h.target i s hi next hnext
  exact ⟨states[j], List.getElem_mem hj, h.id j _ (List.getElem?_eq_getElem hj)⟩

/-- For every grammar and every shift-reduce algorithm the collection can be built, and **its history
is a faithful replay** of the construction. -/
theorem exists_recorded (g : Grammar) {algorithm : Algorithm}
    (halgorithm : algorithm ∈ Algorithm.shiftReduce) :
    ∃ system collection, ofAlgorithm g (FirstFollow.compute g) algorithm = .ok system ∧
      build g (FirstFollow.compute g) algorithm = .ok collection ∧ Recorded system collection := by
  obtain ⟨collection, hbuild, -⟩ := exists_built g halgorithm
  have hsystem := ofAlgorithm_eq (g := g) halgorithm
  obtain ⟨later, hsteps, htrail, hlength⟩ := exists_trail_construct g (algorithm = .lr1)
  obtain ⟨hpart, hparts⟩ := htrail.rel_final PartOf.refl PartOf.trans fun _ _ _ h => h.partOf
  have hplaced := htrail.forall_mem (fun _ _ _ hchanges h => Placed.changes h hchanges)
    (.initial _)
  have hdata : ∀ snapshot ∈ History.ofSteps (construct (computed g (algorithm = .lr1))).steps,
      PartOf snapshot.data (construct (computed g (algorithm = .lr1))).states ∧
        Placed snapshot.data := by
    rw [hsteps]
    intro snapshot hsnapshot
    rcases List.mem_cons.mp (History.mem_steps_of_mem hsnapshot) with hfirst | hlater
    · rw [show snapshot.data = [firstState _] from congrArg Prod.snd hfirst]
      exact ⟨hpart, .initial _⟩
    · exact ⟨hparts _ hlater, hplaced _ hlater⟩
  refine ⟨_, collection, hsystem, hbuild, ?_⟩
  rw [eq_of_build hsystem hbuild]
  refine
    { length_eq := (History.length_ofSteps _).trans hlength
      replay := ?_
      partOf := fun snapshot hsnapshot => (hdata snapshot hsnapshot).1
      closed := fun snapshot hsnapshot _ hs _ hnext =>
        (hdata snapshot hsnapshot).2.closed hs hnext }
  rw [hsteps]
  exact htrail.replay _

/-- The automaton of nested brackets has five states and five transitions, so its history has
seventeen snapshots. The second transition on an opening bracket leads back to its state. -/
theorem exists_recorded_nested :
    ∃ system collection,
      ofAlgorithm .nested (FirstFollow.compute .nested) .slr1 = .ok system ∧
      build .nested (FirstFollow.compute .nested) .slr1 = .ok collection ∧
      Recorded system collection ∧ collection.history.length = 17 ∧
      (collection.history.filterMap fun snapshot => snapshot.event.caption.target) =
        [1, 2, 2, 3, 4] := by
  obtain ⟨system, collection, hsystem, hbuild, hrecorded⟩ := exists_recorded .nested
    (show Algorithm.slr1 ∈ Algorithm.shiftReduce by decide)
  have hhistory : (build .nested (FirstFollow.compute .nested) .slr1).toOption.map (fun c =>
      (c.history.length, c.history.filterMap fun snapshot => snapshot.event.caption.target)) =
        some (17, [1, 2, 2, 3, 4]) := by decide +kernel
  rw [hbuild] at hhistory
  obtain ⟨hlength, htargets⟩ := Prod.mk.inj (Option.some.inj hhistory)
  exact ⟨system, collection, hsystem, hbuild, hrecorded, hlength, htargets⟩

end TableParsing.Collection
