import TableParsing.Proofs.FirstFollow.Range
import TableParsing.Proofs.History

/-!
# The history of the sets

The history of the FIRST and FOLLOW sets shows their computation step by step (`Recorded`). It begins
with the sets before any clause is used and ends with the computed ones. A snapshot of an update
differs from the one before it in the set of one symbol, which has got more members and is the one
that the caption tells of (`Event.Changes`); the snapshots between and after the passes are those
before them again. All updates of FIRST sets come before those of FOLLOW sets
(`map_event_history`).

A clause that fails enlarges the set of its symbol and no other (`changes_enlarge`), and the updates
are a growth; so nothing is changed between two snapshots that the later one does not tell of.
-/

namespace TableParsing.FirstFollow

variable {g : Grammar} {sets final : Sets} {updates : List Update}

/-! ## One update -/

/-- The set of one symbol has got more members, and the sets of the others are the same. -/
structure Enlarges (s : Symbol) (before after : SetMap) : Prop where
  /-- The symbols with sets are the same, in the same order. -/
  keys : after.keys = before.keys
  /-- The other sets are the same. -/
  other : ∀ s', s' ≠ s → after.get? s' = before.get? s'
  /-- The set of the symbol includes what it did, and more. -/
  more : ∃ smaller larger, before.get? s = some smaller ∧ after.get? s = some larger ∧
    (∀ x ∈ smaller, x ∈ larger) ∧ ∃ x ∈ larger, x ∉ smaller

/-- A set to which something new is added is enlarged. -/
theorem enlarges_insert {family : SetMap} {s : Symbol} {added : SymbolSet}
    (hs : (family.get? s).isSome) (hnew : ¬ ∀ x ∈ added, x ∈ setOf family s) :
    Enlarges s family (family.insert s (setOf family s ∪ added)) where
  keys := by rw [OrderedMap.keys_insert, if_pos ((OrderedMap.mem_keys_iff family s).mpr hs)]
  other := by
    intro s' hne
    rw [OrderedMap.get?_insert, if_neg (Ne.symm hne)]
  more := by
    obtain ⟨value, hvalue⟩ := Option.isSome_iff_exists.mp hs
    have hset : setOf family s = value := by rw [setOf, hvalue, Option.getD_some]
    rw [hset] at hnew ⊢
    refine ⟨value, value ∪ added, hvalue, ?_, ?_, ?_⟩
    · rw [OrderedMap.get?_insert, if_pos rfl]
    · exact fun x hx => SymbolSet.mem_union.mpr (Or.inl hx)
    · obtain ⟨x, hx⟩ := not_forall.mp hnew
      obtain ⟨hadded, hvalue⟩ := Classical.not_imp.mp hx
      exact ⟨x, SymbolSet.mem_union.mpr (Or.inr hadded), hvalue⟩

/-- What an event changes: an update the set of the symbol that its caption tells of, and any other
event nothing. The sets begin only once. -/
def Event.Changes (event : Event) (before after : Sets) : Prop :=
  match event with
  | .initialised _ => False
  | .updated (.first p) => ∃ s,
      event.caption =
        ⟨"Updated First(" ++ s ++ ") using rule " ++ p.text, some s, none, none⟩ ∧
      Enlarges s before.first after.first ∧ after.follow = before.follow
  | .updated (.follow p _ _) => ∃ s,
      event.caption =
        ⟨"Updated Follow(" ++ s ++ ") from rule context in " ++ p.text, some s, none, none⟩ ∧
      Enlarges s before.follow after.follow ∧ after.first = before.first
  | .firstConverged | .followConverged => after = before

/-- A clause that fails enlarges the set of its symbol and no other. -/
theorem changes_enlarge {clause : Clause}
    (hc : clause ∈ firstClauses g ∨ clause ∈ followClauses g) (hin : InRange g sets)
    (hfails : ¬ clause.Holds sets) :
    (Event.updated clause).Changes sets (clause.enlarge sets) := by
  rcases hc with hc | hc
  · obtain ⟨p, hp, rfl⟩ := mem_firstClauses.mp hc
    have hlhs := Grammar.isNonTerminal_lhs (Grammar.toRule_mem_rules hp)
    exact ⟨p.lhs, rfl, enlarges_insert (hin.first.isSome p.lhs hlhs) hfails, rfl⟩
  · obtain ⟨p, -, before, s, trailer, -, hs, rfl⟩ := mem_followClauses.mp hc
    exact ⟨s, rfl, enlarges_insert ((hin.follow.isSome_iff s).mpr hs) hfails, rfl⟩

/-! ## All updates -/

/-- An update as a step of the computation. -/
def Update.step (update : Update) : Event × Sets := (.updated update.clause, update.sets)

/-- The updates of a growth lead from its first sets to its last ones. -/
theorem Growth.trail {clauses : List Clause}
    (hclauses : ∀ clause ∈ clauses, clause ∈ firstClauses g ∨ clause ∈ followClauses g)
    (h : Growth clauses sets updates final) (hin : InRange g sets) :
    Trail Event.Changes sets (updates.map Update.step) final := by
  induction h with
  | nil sets => exact .nil sets
  | cons hmem hfails _ ih =>
      have hc := hclauses _ hmem
      exact .cons (changes_enlarge hc hin hfails) (ih (hin.enlarge hc))

/-- A growth is by the clauses of a list. -/
theorem Growth.clause_mem {clauses : List Clause} (h : Growth clauses sets updates final) :
    ∀ update ∈ updates, update.clause ∈ clauses := by
  induction h with
  | nil => exact fun _ hmem => absurd hmem List.not_mem_nil
  | cons hmem _ _ ih => exact List.forall_mem_cons.mpr ⟨hmem, ih⟩

/-! ## The computation -/

/-- The enlargements of FIRST sets. -/
def firstUpdates (g : Grammar) : List Update :=
  (saturate (firstClauses g) (passBound g) (Sets.initial g)).updates

/-- The enlargements of FOLLOW sets. -/
def followUpdates (g : Grammar) : List Update :=
  (saturate (followClauses g) (passBound g) (firstSaturated g)).updates

/-- The enlargements of FIRST sets are a growth. -/
theorem growth_firstUpdates (g : Grammar) :
    Growth (firstClauses g) (Sets.initial g) (firstUpdates g) (firstSaturated g) :=
  growth_saturate _ _ _

/-- The enlargements of FOLLOW sets are a growth. -/
theorem growth_followUpdates (g : Grammar) :
    Growth (followClauses g) (firstSaturated g) (followUpdates g) (saturated g) :=
  growth_saturate _ _ _

/-- The steps of the computation behind the first one. -/
def laterSteps (g : Grammar) : List (Event × Sets) :=
  (firstUpdates g).map Update.step ++ (.firstConverged, firstSaturated g) ::
    (followUpdates g).map Update.step ++ [(.followConverged, saturated g)]

/-- The history has the steps of the computation. -/
theorem history_compute (g : Grammar) :
    (compute g).history =
      .ofSteps ((.initialised g.startSymbol, Sets.initial g) :: laterSteps g) := by
  rfl

/-- The steps lead from the sets at the start to the computed ones. -/
theorem trail_laterSteps (g : Grammar) :
    Trail Event.Changes (Sets.initial g) (laterSteps g) (saturated g) := by
  have hfirst := (growth_firstUpdates g).trail (fun _ hc => Or.inl hc) (.initial g)
  have hfollow := (growth_followUpdates g).trail (fun _ hc => Or.inr hc)
    (inRange_firstSaturated g)
  have hconverged : Trail Event.Changes (firstSaturated g)
      [(.firstConverged, firstSaturated g)] (firstSaturated g) := .single rfl
  have hfinished : Trail Event.Changes (saturated g)
      [(.followConverged, saturated g)] (saturated g) := .single rfl
  exact (hfirst.append (hconverged.append hfollow)).append hfinished

/-- The events in their order. -/
theorem map_event_history (g : Grammar) :
    (compute g).history.map Snapshot.event =
      .initialised g.startSymbol :: (firstUpdates g).map (fun u => Event.updated u.clause) ++
        .firstConverged :: (followUpdates g).map (fun u => Event.updated u.clause) ++
          [.followConverged] := by
  rw [history_compute, History.map_event_ofSteps, laterSteps]
  simp [Update.step, Function.comp_def]

/-! ## The history -/

/-- The history of computed sets. -/
structure Recorded (g : Grammar) (sets : FirstFollow) : Prop where
  /-- It shows the computation step by step, from the sets at the start to the computed ones. -/
  replay : History.Replay Event.Changes (.initialised g.startSymbol) (Sets.initial g)
    ⟨sets.first, sets.follow⟩ sets.history
  /-- The updates of FIRST sets come before those of FOLLOW sets. -/
  order : ∃ firsts follows : List Clause,
    (∀ clause ∈ firsts, clause ∈ firstClauses g) ∧
    (∀ clause ∈ follows, clause ∈ followClauses g) ∧
    sets.history.map Snapshot.event =
      .initialised g.startSymbol :: firsts.map Event.updated ++
        .firstConverged :: follows.map Event.updated ++ [.followConverged]

/-- **The history is a faithful replay** of the computation of FIRST and FOLLOW. -/
theorem recorded_compute (g : Grammar) : Recorded g (compute g) where
  replay := by
    rw [history_compute]
    exact (trail_laterSteps g).replay _
  order := by
    refine ⟨(firstUpdates g).map Update.clause, (followUpdates g).map Update.clause, ?_, ?_, ?_⟩
    · exact List.forall_mem_map.mpr (growth_firstUpdates g).clause_mem
    · exact List.forall_mem_map.mpr (growth_followUpdates g).clause_mem
    · rw [map_event_history, List.map_map, List.map_map]
      rfl

end TableParsing.FirstFollow
