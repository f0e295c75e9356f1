import TableParsing.Proofs.Item.Closure
import TableParsing.Collection

/-!
# The construction of a collection

While the states are built, they satisfy `Linked`: the number of a state is its place, no two
states have the same items, each transition leads to the state with the items of the goto, and
each state but the first has the items of a goto out of an earlier one. One state at a time gets
its transitions, in the order of the symbols after its dots; the states before it have all of
theirs, and the states behind it have none.

A transition to a known state keeps this (`Linked.link`), and so does a new state without
transitions (`Linked.append`). The construction is a sequence of such steps, one for each symbol of
each state (`Underway`), so what the steps keep, it keeps (`Underway.linked`).
-/

namespace TableParsing.Collection

variable {system : ItemSystem} {place : Nat} {done : List Symbol} {states : List State}

/-! ## Looking for a state -/

/-- The state that is found has the given items. -/
theorem exists_of_find? {items : List NumberedItem} {target : Nat}
    (h : find? states items = some target) :
    ∃ t, states[target]? = some t ∧ NumberedItem.sameItems t.items items = true := by
  obtain ⟨hlt, hsame, -⟩ := List.findIdx?_eq_some_iff_getElem.mp h
  exact ⟨_, List.getElem?_eq_getElem hlt, hsame⟩

/-- If none is found, no state has the given items. -/
theorem not_sameItems_of_find? {items : List NumberedItem} (h : find? states items = none)
    {t : State} (ht : t ∈ states) : NumberedItem.sameItems t.items items = false :=
  List.findIdx?_eq_none_iff.mp h t ht

/-- What one transition makes of the states. -/
theorem getElem?_link (states : List State) (source : Nat) (symbol : Symbol) (target i : Nat) :
    (link states source symbol target)[i]? = states[i]?.map fun state =>
      if source = i then
        { state with transitions := state.transitions.insert symbol (target : Int) }
      else state := by
  rw [link, List.getElem?_modify]
  cases states[i]? <;> rfl

/-- A state after a transition has been added differs from the old one in its transitions only, and
only at the source. -/
theorem of_getElem?_link {source target i : Nat} {symbol : Symbol} {s : State}
    (h : (link states source symbol target)[i]? = some s) :
    ∃ old : State, states[i]? = some old ∧ s.items = old.items ∧ s.id = old.id ∧
      s.transitions =
        if source = i then old.transitions.insert symbol (target : Int) else old.transitions := by
  rw [getElem?_link, Option.map_eq_some_iff] at h
  obtain ⟨old, hold, rfl⟩ := h
  refine ⟨old, hold, ?_⟩
  split <;> exact ⟨rfl, rfl, rfl⟩

/-- A transition keeps the items of every state. -/
theorem exists_getElem?_link {i : Nat} {s : State} (hs : states[i]? = some s) (source : Nat)
    (symbol : Symbol) (target : Nat) :
    ∃ s', (link states source symbol target)[i]? = some s' ∧ s'.items = s.items := by
  rw [getElem?_link, hs, Option.map_some]
  refine ⟨_, rfl, ?_⟩
  split <;> rfl

/-- The state with some items that is put behind the others. -/
def newState (states : List State) (items : List NumberedItem) : State :=
  ⟨states.length, items, .empty⟩

/-- The old states keep their places. -/
theorem getElem?_append_newState {i : Nat} {s : State} (hs : states[i]? = some s)
    (items : List NumberedItem) : (states ++ [newState states items])[i]? = some s := by
  rw [List.getElem?_append_left (List.getElem?_eq_some_iff.mp hs).1, hs]

/-- A state of the longer list is an old one or the new one. -/
theorem getElem?_append_newState_cases {items : List NumberedItem} {i : Nat} {s : State}
    (h : (states ++ [newState states items])[i]? = some s) :
    states[i]? = some s ∨ i = states.length ∧ s = newState states items := by
  by_cases hi : i < states.length
  · rw [List.getElem?_append_left hi] at h
    exact Or.inl h
  · rw [List.getElem?_append_right (Nat.not_lt.mp hi), List.getElem?_singleton] at h
    split at h
    · next hzero => exact Or.inr ⟨by omega, (Option.some.inj h).symm⟩
    · cases h

/-! ## The invariant -/

/-- The symbols on which a state has transitions, when those of the state at one place are being
added and some of them have been. -/
def linkedSymbols (place : Nat) (done : List Symbol) (i : Nat) (items : List NumberedItem) :
    List Symbol :=
  if i < place then NumberedItem.expected items else if i = place then done else []

/-- States in the middle of the construction. -/
structure Linked (system : ItemSystem) (place : Nat) (done : List Symbol) (states : List State) :
    Prop where
  /-- The first state has the items of the added start symbol. -/
  first : ∃ s, states[0]? = some s ∧ s.items = (firstState system).items
  /-- The number of a state is its place. -/
  id : ∀ (i : Nat) (s : State), states[i]? = some s → s.id = i
  /-- A state with transitions has them in the order of the symbols after its dots. -/
  keys : ∀ (i : Nat) (s : State), states[i]? = some s →
    s.transitions.keys = linkedSymbols place done i s.items
  /-- A transition leads to the state with the items of the goto. -/
  target : ∀ (i : Nat) (s : State) symbol n, states[i]? = some s →
    s.transitions.get? symbol = some n →
      ∃ (j : Nat) (t : State), n = (j : Int) ∧ states[j]? = some t ∧
        NumberedItem.sameItems t.items (system.goto s.items symbol) = true
  /-- No two states have the same items. -/
  distinct : ∀ (i j : Nat) (s t : State), states[i]? = some s → states[j]? = some t →
    NumberedItem.sameItems s.items t.items = true → i = j
  /-- Any state but the first has the items of a goto out of an earlier one. -/
  reached : ∀ (j : Nat) (t : State), states[j]? = some t →
    j = 0 ∨ ∃ (i : Nat) (s : State) (symbol : Symbol), i < j ∧ states[i]? = some s ∧
      symbol ∈ NumberedItem.expected s.items ∧ t.items = system.goto s.items symbol

/-- There is only one state at first. -/
theorem eq_of_getElem?_firstState {i : Nat} {s : State}
    (hs : [firstState system][i]? = some s) : i = 0 ∧ s = firstState system := by
  cases i with
  | zero => exact ⟨rfl, (Option.some.inj hs).symm⟩
  | succ i => cases hs

/-- The construction begins with one state. -/
theorem Linked.initial (system : ItemSystem) : Linked system 0 [] [firstState system] where
  first := ⟨firstState system, rfl, rfl⟩
  id := by
    intro i s hs
    obtain ⟨rfl, rfl⟩ := eq_of_getElem?_firstState hs
    rfl
  keys := by
    intro i s hs
    obtain ⟨rfl, rfl⟩ := eq_of_getElem?_firstState hs
    rfl
  target := by
    intro i s symbol n hs hget
    obtain ⟨rfl, rfl⟩ := eq_of_getElem?_firstState hs
    cases hget
  distinct := by
    intro i j s t hs ht _
    rw [(eq_of_getElem?_firstState hs).1, (eq_of_getElem?_firstState ht).1]
  reached := fun _ _ ht => Or.inl (eq_of_getElem?_firstState ht).1

/-- A transition on a further symbol is behind those that there are. -/
theorem Linked.keys_link (h : Linked system place done states) {symbol : Symbol} (target : Nat)
    (hnew : symbol ∉ done) {i : Nat} {s : State}
    (hs : (Collection.link states place symbol target)[i]? = some s) :
    s.transitions.keys = linkedSymbols place (done ++ [symbol]) i s.items := by
  obtain ⟨old, hold, hitems, -, htransitions⟩ := of_getElem?_link hs
  have hkeys := h.keys i old hold
  rw [htransitions, hitems]
  split
  · next hi =>
      subst hi
      rw [linkedSymbols, if_neg (Nat.lt_irrefl _), if_pos rfl] at hkeys ⊢
      rw [OrderedMap.keys_insert, hkeys, if_neg hnew]
  · next hi =>
      rw [linkedSymbols, if_neg (Ne.symm hi)] at hkeys ⊢
      exact hkeys

/-- With a transition to the state with the items of the goto, all transitions lead to such
states. -/
theorem Linked.target_link (h : Linked system place done states) {s t : State} {symbol : Symbol}
    {target : Nat} (hs : states[place]? = some s) (ht : states[target]? = some t)
    (hsame : NumberedItem.sameItems t.items (system.goto s.items symbol) = true) {i : Nat}
    {s' : State} (hs' : (Collection.link states place symbol target)[i]? = some s') {X : Symbol}
    {n : Int} (hget : s'.transitions.get? X = some n) :
    ∃ (j : Nat) (t' : State), n = (j : Int) ∧ states[j]? = some t' ∧
      NumberedItem.sameItems t'.items (system.goto s'.items X) = true := by
  obtain ⟨old, hold, hitems, -, htransitions⟩ := of_getElem?_link hs'
  rw [hitems]
  rw [htransitions] at hget
  split at hget
  · next hi =>
      rw [OrderedMap.get?_insert] at hget
      split at hget
      · next hX =>
          subst hi hX
          rw [hs] at hold
          cases hold
          exact ⟨target, t, (Option.some.inj hget).symm, ht, hsame⟩
      · exact h.target i old X n hold hget
  · exact h.target i old X n hold hget

/-- A transition on a further symbol, to the state with the items of the goto. -/
theorem Linked.link (h : Linked system place done states) {s t : State} {symbol : Symbol}
    {target : Nat} (hs : states[place]? = some s) (ht : states[target]? = some t)
    (hsame : NumberedItem.sameItems t.items (system.goto s.items symbol) = true)
    (hnew : symbol ∉ done) :
    Linked system place (done ++ [symbol]) (link states place symbol target) where
  first := by
    obtain ⟨s₀, hs₀, hitems⟩ := h.first
    obtain ⟨s', hs', hitems'⟩ := exists_getElem?_link hs₀ place symbol target
    exact ⟨s', hs', hitems'.trans hitems⟩
  id := by
    intro i s' hs'
    obtain ⟨old, hold, -, hid, -⟩ := of_getElem?_link hs'
    rw [hid, h.id i old hold]
  keys := fun _ _ hs' => h.keys_link target hnew hs'
  target := by
    intro i s' X n hs' hget
    obtain ⟨j, t', hn, ht', hsame'⟩ := h.target_link hs ht hsame hs' hget
    obtain ⟨t'', ht'', hitems⟩ := exists_getElem?_link ht' place symbol target
    exact ⟨j, t'', hn, ht'', by rwa [hitems]⟩
  distinct := by
    intro i j s' t' hs' ht' hsame'
    obtain ⟨old, hold, hitems, -, -⟩ := of_getElem?_link hs'
    obtain ⟨old', hold', hitems', -, -⟩ := of_getElem?_link ht'
    rw [hitems, hitems'] at hsame'
    exact h.distinct i j old old' hold hold' hsame'
  reached := by
    intro j t' ht'
    obtain ⟨old, hold, hitems, -, -⟩ := of_getElem?_link ht'
    rcases h.reached j old hold with hj | ⟨i, s'', X, hlt, hs'', hX, hgoto⟩
    · exact Or.inl hj
    · obtain ⟨s', hs', hitems'⟩ := exists_getElem?_link hs'' place symbol target
      exact Or.inr ⟨i, s', X, hlt, hs', by rwa [hitems'], by rw [hitems, hitems', hgoto]⟩

/-- A new state with the items of a goto that no state has. -/
theorem Linked.append (h : Linked system place done states) {s : State} {symbol : Symbol}
    (hs : states[place]? = some s) (hsymbol : symbol ∈ NumberedItem.expected s.items)
    (hnone : find? states (system.goto s.items symbol) = none) :
    Linked system place done (states ++ [newState states (system.goto s.items symbol)]) where
  first := by
    obtain ⟨s₀, hs₀, hitems⟩ := h.first
    exact ⟨s₀, getElem?_append_newState hs₀ _, hitems⟩
  id := by
    intro i s' hs'
    rcases getElem?_append_newState_cases hs' with hs' | ⟨rfl, rfl⟩
    · exact h.id i s' hs'
    · rfl
  keys := by
    intro i s' hs'
    have hplace : place < states.length := (List.getElem?_eq_some_iff.mp hs).1
    rcases getElem?_append_newState_cases hs' with hs' | ⟨rfl, rfl⟩
    · exact h.keys i s' hs'
    · rw [linkedSymbols, if_neg (by omega), if_neg (by omega)]
      rfl
  target := by
    intro i s' X n hs' hget
    rcases getElem?_append_newState_cases hs' with hs' | ⟨rfl, rfl⟩
    · obtain ⟨j, t, hn, ht, hsame⟩ := h.target i s' X n hs' hget
      exact ⟨j, t, hn, getElem?_append_newState ht _, hsame⟩
    · cases hget
  distinct := by
    intro i j s' t hs' ht hsame
    -- The new state is not the same as an old one.
    have hother : ∀ (i : Nat) (s' : State), states[i]? = some s' →
        NumberedItem.sameItems s'.items (system.goto s.items symbol) = false := fun i s' hs' =>
      not_sameItems_of_find? hnone (List.mem_of_getElem? hs')
    rcases getElem?_append_newState_cases hs' with hs' | ⟨rfl, rfl⟩ <;>
      rcases getElem?_append_newState_cases ht with ht | ⟨rfl, rfl⟩
    · exact h.distinct i j s' t hs' ht hsame
    · exact absurd ((hother i s' hs').symm.trans hsame) Bool.false_ne_true
    · rw [NumberedItem.sameItems_comm] at hsame
      exact absurd ((hother j t ht).symm.trans hsame) Bool.false_ne_true
    · rfl
  reached := by
    intro j t ht
    rcases getElem?_append_newState_cases ht with ht | ⟨rfl, rfl⟩
    · rcases h.reached j t ht with hj | ⟨i, s', X, hlt, hs', hX, hgoto⟩
      · exact Or.inl hj
      · exact Or.inr ⟨i, s', X, hlt, getElem?_append_newState hs' _, hX, hgoto⟩
    · have hplace : place < states.length := (List.getElem?_eq_some_iff.mp hs).1
      exact Or.inr
        ⟨place, s, symbol, hplace, getElem?_append_newState hs _, hsymbol, rfl⟩

/-! ## The steps of the construction -/

/-- What is done for one symbol of a state: the event, and the states with the transition on the
symbol. -/
def linkStep (system : ItemSystem) (source : Nat) (items : List NumberedItem) (symbol : Symbol)
    (states : List State) : Event × List State :=
  match find? states (system.goto items symbol) with
  | some target => (.linked source symbol target, Collection.link states source symbol target)
  | none =>
    (.created source symbol states.length,
      Collection.link (states ++ [⟨states.length, system.goto items symbol, .empty⟩]) source symbol
        states.length)

/-- The transitions on some symbols begin with the one on the first symbol. -/
theorem addTransitions_cons (system : ItemSystem) (source : Nat) (items : List NumberedItem)
    (symbol : Symbol) (symbols : List Symbol) (states : List State) :
    addTransitions system source items (symbol :: symbols) states =
      let step := linkStep system source items symbol states
      let later := addTransitions system source items symbols step.2
      ⟨(.computed source symbol, states) :: step :: later.steps, later.states⟩ := rfl

/-- The transition of a state on one symbol. -/
theorem Linked.linkStep (h : Linked system place done states) {s : State} {symbol : Symbol}
    (hs : states[place]? = some s) (hsymbol : symbol ∈ NumberedItem.expected s.items)
    (hnew : symbol ∉ done) :
    Linked system place (done ++ [symbol]) (linkStep system place s.items symbol states).2 := by
  unfold Collection.linkStep
  split
  · next target hfind =>
      obtain ⟨t, ht, hsame⟩ := exists_of_find? hfind
      exact h.link hs ht hsame hnew
  · next hfind =>
      have ht : (states ++ [newState states (system.goto s.items symbol)])[states.length]? =
          some (newState states (system.goto s.items symbol)) := List.getElem?_concat_length
      exact (h.append hs hsymbol hfind).link (getElem?_append_newState hs _) ht
        (NumberedItem.sameItems_iff.mpr fun _ => Iff.rfl) hnew

/-- A transition keeps the items of every state. -/
theorem exists_getElem?_linkStep (system : ItemSystem) (place : Nat) (items : List NumberedItem)
    (symbol : Symbol) {i : Nat} {s : State} (hs : states[i]? = some s) :
    ∃ s', (Collection.linkStep system place items symbol states).2[i]? = some s' ∧
      s'.items = s.items := by
  unfold Collection.linkStep
  split
  · exact exists_getElem?_link hs place symbol _
  · exact exists_getElem?_link (getElem?_append_newState hs _) place symbol _

/-- A state with all its transitions has been processed. -/
theorem Linked.next (h : Linked system place done states) {s : State}
    (hs : states[place]? = some s) (hdone : done = NumberedItem.expected s.items) :
    Linked system (place + 1) [] states where
  first := h.first
  id := h.id
  keys := by
    intro i t ht
    rw [h.keys i t ht, linkedSymbols, linkedSymbols]
    rcases Nat.lt_trichotomy i place with hi | rfl | hi
    · rw [if_pos hi, if_pos (Nat.lt_succ_of_lt hi)]
    · rw [hs] at ht
      cases ht
      rw [if_neg (Nat.lt_irrefl _), if_pos rfl, if_pos (Nat.lt_succ_self _), hdone]
    · rw [if_neg (by omega), if_neg (by omega), if_neg (by omega), ite_self]
  target := h.target
  distinct := h.distinct
  reached := h.reached

/-! ## The construction as a sequence of steps -/

/-- The construction in its middle: the state at a place has got its transitions on some of its
symbols, and the states before it have all of theirs. -/
inductive Underway (system : ItemSystem) : Nat → List Symbol → List State → Prop
  | start : Underway system 0 [] [firstState system]
  | link {place : Nat} {done : List Symbol} {states : List State} {s : State} {symbol : Symbol}
      (h : Underway system place done states) (hs : states[place]? = some s)
      (hsymbol : symbol ∈ NumberedItem.expected s.items) (hnew : symbol ∉ done) :
      Underway system place (done ++ [symbol]) (linkStep system place s.items symbol states).2
  | next {place : Nat} {done : List Symbol} {states : List State} {s : State}
      (h : Underway system place done states) (hs : states[place]? = some s)
      (hdone : done = NumberedItem.expected s.items) : Underway system (place + 1) [] states

namespace Underway

/-- Every step keeps the states linked. -/
theorem linked (h : Underway system place done states) : Linked system place done states := by
  induction h with
  | start => exact .initial system
  | link _ hs hsymbol hnew ih => exact ih.linkStep hs hsymbol hnew
  | next _ hs hdone ih => exact ih.next hs hdone

/-- The transitions of a state on some of its symbols; they keep the items of the state. -/
theorem addTransitions {items : List NumberedItem} :
    (symbols done : List Symbol) → (states : List State) → Underway system place done states →
      (∃ s, states[place]? = some s ∧ s.items = items) →
      (∀ symbol ∈ symbols, symbol ∈ NumberedItem.expected items) → (done ++ symbols).Nodup →
        Underway system place (done ++ symbols)
            (addTransitions system place items symbols states).states ∧
          ∃ s, (Collection.addTransitions system place items symbols states).states[place]? =
            some s ∧ s.items = items
  | [], done, states, h, hs, _, _ => by
      rw [List.append_nil]
      exact ⟨h, hs⟩
  | symbol :: symbols, done, states, h, ⟨s, hs, hitems⟩, hsymbols, hnodup => by
      subst hitems
      have hnew : symbol ∉ done := fun hmem =>
        List.disjoint_of_nodup_append hnodup hmem List.mem_cons_self
      have hstep := h.link hs (hsymbols symbol List.mem_cons_self) hnew
      rw [addTransitions_cons, List.append_cons]
      rw [List.append_cons] at hnodup
      exact addTransitions symbols (done ++ [symbol]) _ hstep
        (exists_getElem?_linkStep system place s.items symbol hs)
        (fun X hX => hsymbols X (List.mem_cons_of_mem _ hX)) hnodup

/-- The states are processed one after the other, until all are or the bound is reached. -/
theorem process :
    (bound place : Nat) → (states : List State) → Underway system place [] states →
      ∃ last, Underway system last [] (process system bound place states).states ∧
        ((Collection.process system bound place states).states.length ≤ last ∨
          last = place + bound)
  | 0, place, states, h => ⟨place, h, Or.inr rfl⟩
  | bound + 1, place, states, h => by
      unfold Collection.process
      split
      · next hnone => exact ⟨place, h, Or.inl (List.getElem?_eq_none_iff.mp hnone)⟩
      · next s hs =>
          have hnodup : (NumberedItem.expected s.items).Nodup := nodup_distinct _
          obtain ⟨hadded, s', hs', hitems⟩ := addTransitions (NumberedItem.expected s.items) []
            states h ⟨s, hs, rfl⟩ (fun _ hX => hX) hnodup
          rw [List.nil_append] at hadded
          obtain ⟨last, hlast, hend⟩ :=
            process bound (place + 1) _ (hadded.next hs' (by rw [hitems]))
          exact ⟨last, hlast, hend.imp_right fun hl => by omega⟩

end Underway

/-- At its end the construction has processed all states, or as many as are permitted. -/
theorem underway_construct (system : ItemSystem) :
    ∃ last, Underway system last [] (construct system).states ∧
      ((construct system).states.length ≤ last ∨ last = stateBound system.grammar) := by
  obtain ⟨last, hlast, hend⟩ := Underway.process (stateBound system.grammar) 0 _ (.start)
  rw [Nat.zero_add] at hend
  exact ⟨last, hlast, hend⟩

end TableParsing.Collection
