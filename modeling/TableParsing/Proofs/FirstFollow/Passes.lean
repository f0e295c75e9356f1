import TableParsing.Proofs.FirstFollow.Replay

/-!
# The number of passes

The passes for FIRST and for FOLLOW end, each because a pass changes nothing, and the permitted number
of passes is never used up: the loops without it make the same passes (`settles_firstUpdates`,
`settles_followUpdates`). Every pass but the last is told of by an update in the history, and there
are at most as many updates as members that the sets can have, one for each terminal and one for the
marker of the family.

At the end all clauses hold, so one more pass of either kind changes nothing
(`sweep_saturated_first`, `sweep_saturated_follow`). For the FIRST clauses this is not the end of
their own passes: those for FOLLOW come after them, and leave the FIRST sets alone.
-/

namespace TableParsing

namespace FirstFollow

variable {g : Grammar}

/-! ## Updates in the history -/

/-- Whether an event is an update of a FIRST set. -/
def Event.updatesFirst : Event → Bool
  | .updated (.first _) => true
  | _ => false

/-- Whether an event is an update of a FOLLOW set. -/
def Event.updatesFollow : Event → Bool
  | .updated (.follow ..) => true
  | _ => false

/-- Clauses for FIRST sets update FIRST sets. -/
theorem updates_of_mem_firstClauses {clause : Clause} (hc : clause ∈ firstClauses g) :
    (Event.updated clause).updatesFirst = true ∧ (Event.updated clause).updatesFollow = false := by
  obtain ⟨p, -, rfl⟩ := mem_firstClauses.mp hc
  exact ⟨rfl, rfl⟩

/-- Clauses for FOLLOW sets update FOLLOW sets. -/
theorem updates_of_mem_followClauses {clause : Clause} (hc : clause ∈ followClauses g) :
    (Event.updated clause).updatesFirst = false ∧ (Event.updated clause).updatesFollow = true := by
  obtain ⟨p, -, before, s, trailer, -, -, rfl⟩ := mem_followClauses.mp hc
  exact ⟨rfl, rfl⟩

/-- How many snapshots of a history are updates of a FIRST set. -/
def firstUpdateCount (sets : FirstFollow) : Nat :=
  sets.history.countP fun snapshot => snapshot.event.updatesFirst

/-- How many snapshots of a history are updates of a FOLLOW set. -/
def followUpdateCount (sets : FirstFollow) : Nat :=
  sets.history.countP fun snapshot => snapshot.event.updatesFollow

/-- The events of some kind in the history are those among the updates. -/
theorem countP_history (p : Event → Bool) (hinitialised : p (.initialised g.startSymbol) = false)
    (hfirst : p .firstConverged = false) (hfollow : p .followConverged = false) :
    (compute g).history.countP (fun snapshot => p snapshot.event) =
      (firstUpdates g).countP (fun u => p (.updated u.clause)) +
        (followUpdates g).countP fun u => p (.updated u.clause) := by
  have hevents : (compute g).history.countP (fun snapshot => p snapshot.event) =
      ((compute g).history.map Snapshot.event).countP p := by
    rw [List.countP_map]
    rfl
  rw [hevents, map_event_history]
  simp [List.countP_append, List.countP_map, Function.comp_def, hinitialised, hfirst, hfollow]

/-- The enlargements of FIRST sets are the updates of FIRST sets in the history. -/
theorem firstUpdateCount_compute (g : Grammar) :
    (compute g).firstUpdateCount = (firstUpdates g).length := by
  have hown : ∀ u ∈ firstUpdates g, (Event.updated u.clause).updatesFirst = true := fun u hu =>
    (updates_of_mem_firstClauses ((growth_firstUpdates g).clause_mem u hu)).1
  have hother : ∀ u ∈ followUpdates g, ¬ (Event.updated u.clause).updatesFirst = true := by
    intro u hu
    rw [(updates_of_mem_followClauses ((growth_followUpdates g).clause_mem u hu)).1]
    exact Bool.false_ne_true
  unfold firstUpdateCount
  rw [countP_history _ rfl rfl rfl, List.countP_eq_length.mpr hown, List.countP_eq_zero.mpr hother,
    Nat.add_zero]

/-- The enlargements of FOLLOW sets are the updates of FOLLOW sets in the history. -/
theorem followUpdateCount_compute (g : Grammar) :
    (compute g).followUpdateCount = (followUpdates g).length := by
  have hown : ∀ u ∈ followUpdates g, (Event.updated u.clause).updatesFollow = true := fun u hu =>
    (updates_of_mem_followClauses ((growth_followUpdates g).clause_mem u hu)).2
  have hother : ∀ u ∈ firstUpdates g, ¬ (Event.updated u.clause).updatesFollow = true := by
    intro u hu
    rw [(updates_of_mem_firstClauses ((growth_firstUpdates g).clause_mem u hu)).2]
    exact Bool.false_ne_true
  unfold followUpdateCount
  rw [countP_history _ rfl rfl rfl, List.countP_eq_length.mpr hown, List.countP_eq_zero.mpr hother,
    Nat.zero_add]

/-! ## The passes end -/

/-- The passes for FIRST end by themselves. -/
theorem settles_firstUpdates (g : Grammar) :
    Settles (firstClauses g) (Sets.initial g) (firstUpdates g) (firstSaturated g)
      (compute g).firstPasses :=
  settles_saturate _ _ _ fun _ _ h => length_firstGrowth_lt h

/-- The passes for FOLLOW end by themselves. -/
theorem settles_followUpdates (g : Grammar) :
    Settles (followClauses g) (firstSaturated g) (followUpdates g) (saturated g)
      (compute g).followPasses :=
  settles_saturate _ _ _ fun _ _ h => length_followGrowth_lt (inRange_firstSaturated g) h

/-- A clause for FIRST sets looks at these only. -/
theorem holds_congr_of_mem_firstClauses {clause : Clause} (hc : clause ∈ firstClauses g)
    {sets sets' : Sets} (hfirst : sets.first = sets'.first) :
    clause.Holds sets ↔ clause.Holds sets' := by
  obtain ⟨p, -, rfl⟩ := mem_firstClauses.mp hc
  simp only [Clause.Holds, Clause.contribution, Clause.current, hfirst]

/-- One more pass for FIRST changes nothing. -/
theorem sweep_saturated_first (g : Grammar) :
    sweep (firstClauses g) (saturated g) = ([], saturated g) := by
  apply sweep_of_holds
  intro clause hc
  rw [holds_congr_of_mem_firstClauses hc (first_saturated g)]
  exact (settles_firstUpdates g).holds clause hc

/-- One more pass for FOLLOW changes nothing. -/
theorem sweep_saturated_follow (g : Grammar) :
    sweep (followClauses g) (saturated g) = ([], saturated g) :=
  sweep_of_holds _ (settles_followUpdates g).holds

/-! ## The bounds -/

/-- The passes for some sets end, after no more passes than the bounds on the updates allow. -/
structure Settled (g : Grammar) (sets : FirstFollow) : Prop where
  /-- The passes for FIRST are made until one changes nothing, and all that they change is told of.
  They leave the FOLLOW sets alone. -/
  first : ∃ updates, updates.length = sets.firstUpdateCount ∧
    Settles (firstClauses g) (Sets.initial g) updates ⟨sets.first, (Sets.initial g).follow⟩
      sets.firstPasses
  /-- The passes for FOLLOW are made until one changes nothing, and all that they change is told of.
  They leave the FIRST sets alone. -/
  follow : ∃ updates, updates.length = sets.followUpdateCount ∧
    Settles (followClauses g) ⟨sets.first, (Sets.initial g).follow⟩ updates
      ⟨sets.first, sets.follow⟩ sets.followPasses
  /-- Every pass for FIRST but the last is told of. -/
  firstPasses_le : sets.firstPasses ≤ 1 + sets.firstUpdateCount
  /-- A FIRST set can be enlarged by each terminal and the empty marker. -/
  firstUpdateCount_le :
    sets.firstUpdateCount ≤ g.nonTerminals.length * (g.terminals.length + 1)
  /-- Every pass for FOLLOW but the last is told of. -/
  followPasses_le : sets.followPasses ≤ 1 + sets.followUpdateCount
  /-- A FOLLOW set can be enlarged by each terminal and the end marker. -/
  followUpdateCount_le :
    sets.followUpdateCount ≤ g.nonTerminals.length * (g.terminals.length + 1)
  /-- One more pass for FIRST changes nothing. -/
  sweep_first : sweep (firstClauses g) ⟨sets.first, sets.follow⟩ = ([], ⟨sets.first, sets.follow⟩)
  /-- One more pass for FOLLOW changes nothing. -/
  sweep_follow :
    sweep (followClauses g) ⟨sets.first, sets.follow⟩ = ([], ⟨sets.first, sets.follow⟩)

/-- **The passes end**, within a bound that is given by the numbers of non-terminals and terminals. -/
theorem settled_compute (g : Grammar) : Settled g (compute g) := by
  have hmiddle : firstSaturated g = ⟨(compute g).first, (Sets.initial g).follow⟩ := by
    rw [← follow_firstSaturated g, show (compute g).first = (firstSaturated g).first from
      first_saturated g]
  have hfirst := settles_firstUpdates g
  have hfollow := settles_followUpdates g
  have hfirstCount := length_firstGrowth_lt (growth_firstUpdates g)
  have hfollowCount :=
    length_followGrowth_lt (inRange_firstSaturated g) (growth_followUpdates g)
  unfold passBound at hfirstCount hfollowCount
  refine
    { first := ⟨_, (firstUpdateCount_compute g).symm, hmiddle ▸ hfirst⟩
      follow := ⟨_, (followUpdateCount_compute g).symm, hmiddle ▸ hfollow⟩
      firstPasses_le := ?_
      firstUpdateCount_le := ?_
      followPasses_le := ?_
      followUpdateCount_le := ?_
      sweep_first := sweep_saturated_first g
      sweep_follow := sweep_saturated_follow g }
  · rw [firstUpdateCount_compute]
    exact hfirst.passes_le
  · rw [firstUpdateCount_compute]
    omega
  · rw [followUpdateCount_compute]
    exact hfollow.passes_le
  · rw [followUpdateCount_compute]
    omega

/-- For nested brackets one pass finds both updates of FIRST, and the passes for FOLLOW are as many as
its update allows. -/
example : (compute .nested).firstPasses = 2 ∧ (compute .nested).firstUpdateCount = 2 ∧
    (compute .nested).followPasses = 2 ∧ (compute .nested).followUpdateCount = 1 := by
  decide +kernel

end FirstFollow

end TableParsing
