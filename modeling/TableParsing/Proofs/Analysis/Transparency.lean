import TableParsing.Analysis
import TableParsing.Proofs.OrderedMap

/-!
# Answers do not depend on what is kept

An analysis keeps the results that it has computed. This module says what a question is to be
answered with where nothing is kept (`Query.direct`), and shows that an analysis answers with that
whatever has been asked before (`answers_eq_fresh`).

The reason is one invariant, `Faithful`: what is kept is what is computed directly. An operation is
`Transparent` if it gives the direct result, keeps the invariant, and neither drops nor replaces
anything that was kept. Operations call one another, so the property is closed under what they do
with each other's results: `Transparent.map` and `Transparent.trans`. A question about the states
of an algorithm that has none is transparent like the others: its direct result is the failure, and
the sets that are computed before the failure shows are kept.
-/

namespace TableParsing.Analysis

variable {α β : Type} {g : Grammar} {a b c : Analysis}

/-! ## What is kept -/

/-- The results that are kept are those that are computed directly from the grammar. -/
structure Faithful (g : Grammar) (a : Analysis) : Prop where
  /-- The grammar is the one that is analysed. -/
  grammar : a.grammar = g
  /-- The kept sets. -/
  sets : ∀ sets, a.sets? = some sets → sets = FirstFollow.compute g
  /-- The kept predictive table. -/
  predictive : ∀ table, a.predictive? = some table →
    table = Table.predictive g (FirstFollow.compute g)
  /-- The kept collections. -/
  collections : ∀ algorithm collection, a.collections.get? algorithm = some collection →
    Collection.build g (FirstFollow.compute g) algorithm = .ok collection

/-- What one analysis keeps, another one keeps as well: collections are only added, behind those
that are there. -/
structure KeptIn (a b : Analysis) : Prop where
  /-- The sets are the same, if they have been computed. -/
  sets : ∀ sets, a.sets? = some sets → b.sets? = some sets
  /-- The predictive table is the same, if it has been computed. -/
  predictive : ∀ table, a.predictive? = some table → b.predictive? = some table
  /-- The collections are the first ones. -/
  collections : a.collections.entries <+: b.collections.entries

namespace KeptIn

/-- An analysis keeps what it keeps. -/
theorem refl (a : Analysis) : a.KeptIn a :=
  ⟨fun _ h => h, fun _ h => h, List.prefix_refl _⟩

/-- What is kept stays kept. -/
theorem trans (h : a.KeptIn b) (h' : b.KeptIn c) : a.KeptIn c :=
  ⟨fun sets hsets => h'.sets sets (h.sets sets hsets),
    fun table htable => h'.predictive table (h.predictive table htable),
    h.collections.trans h'.collections⟩

end KeptIn

/-- A text that is a grammar gives an analysis of the grammar in which nothing is kept. -/
theorem eq_of_read {text : String} (hread : read text = .ok a) :
    Grammar.read text = .ok a.grammar ∧
      a = { ofGrammar a.grammar with notices := Notice.ofReading text } := by
  unfold read at hread
  cases hg : Grammar.read text with
  | error failure =>
      rw [hg] at hread
      cases hread
  | ok g =>
      rw [hg] at hread
      cases hread
      exact ⟨rfl, rfl⟩

/-- An analysis that has just been made is faithful. -/
theorem faithful_of_read {text : String} (hread : read text = .ok a) :
    a.Faithful a.grammar := by
  obtain ⟨-, hfresh⟩ := eq_of_read hread
  rw [hfresh]
  refine ⟨rfl, fun _ h => ?_, fun _ h => ?_, fun _ _ h => ?_⟩ <;> cases h

/-! ## Operations -/

/-- An operation on an analysis gives a certain result, and does no harm to what is kept. -/
structure Transparent (g : Grammar) (a : Analysis) (direct : α) (operation : α × Analysis) :
    Prop where
  /-- The result. -/
  result : operation.1 = direct
  /-- What is kept afterwards is what is computed directly. -/
  faithful : operation.2.Faithful g
  /-- What was kept before still is. -/
  kept : a.KeptIn operation.2

namespace Transparent

variable {direct : α} {operation : α × Analysis}

/-- A result that is at hand. -/
theorem at_hand (h : a.Faithful g) (direct : α) : Transparent g a direct (direct, a) :=
  ⟨rfl, h, .refl a⟩

/-- A result may be put into another form. -/
theorem map (h : Transparent g a direct operation) (f : α → β) :
    Transparent g a (f direct) (f operation.1, operation.2) :=
  ⟨congrArg f h.result, h.faithful, h.kept⟩

/-- What is reported makes no difference. -/
theorem withNotices (h : Transparent g a direct operation) (notices : List Notice) :
    Transparent g a direct (operation.1, { operation.2 with notices := notices }) :=
  ⟨h.result, ⟨h.faithful.grammar, h.faithful.sets, h.faithful.predictive, h.faithful.collections⟩,
    ⟨h.kept.sets, h.kept.predictive, h.kept.collections⟩⟩

/-- Operations follow one another. -/
theorem trans (h : Transparent g a direct operation) {direct' : β} {operation' : β × Analysis}
    (h' : Transparent g operation.2 direct' operation') : Transparent g a direct' operation' :=
  ⟨h'.result, h'.faithful, h.kept.trans h'.kept⟩

end Transparent

/-- The sets are computed once. -/
theorem transparent_sets (h : a.Faithful g) :
    Transparent g a (FirstFollow.compute g) a.sets := by
  unfold Analysis.sets
  cases hsets : a.sets? with
  | some sets => exact ⟨h.sets sets hsets, h, .refl a⟩
  | none =>
      have hdirect : FirstFollow.compute a.grammar = FirstFollow.compute g := by rw [h.grammar]
      refine ⟨hdirect, ⟨h.grammar, ?_, h.predictive, h.collections⟩,
        ⟨?_, fun _ h => h, List.prefix_refl _⟩⟩
      · rintro sets ⟨⟩
        exact hdirect
      · intro sets hsome
        rw [hsets] at hsome
        cases hsome

/-- The sets are computed apart from the tables. -/
theorem predictive?_sets (a : Analysis) : a.sets.2.predictive? = a.predictive? := by
  unfold Analysis.sets
  split <;> rfl

/-- The sets are computed apart from the collections. -/
theorem collections_sets (a : Analysis) : a.sets.2.collections = a.collections := by
  unfold Analysis.sets
  split <;> rfl

/-- The predictive table is computed once, from the sets that are kept. -/
theorem transparent_predictive (h : a.Faithful g) :
    Transparent g a (Table.predictive g (FirstFollow.compute g)) a.predictive := by
  unfold Analysis.predictive
  cases htable : a.predictive? with
  | some table => exact ⟨h.predictive table htable, h, .refl a⟩
  | none =>
      have hsets := transparent_sets h
      have hdirect : Table.predictive a.grammar a.sets.1 =
          Table.predictive g (FirstFollow.compute g) := by rw [h.grammar, hsets.result]
      refine ⟨hdirect,
        ⟨hsets.faithful.grammar, hsets.faithful.sets, ?_, hsets.faithful.collections⟩,
        hsets.kept.trans ⟨fun _ h => h, ?_, List.prefix_refl _⟩⟩
      · rintro table ⟨⟩
        exact hdirect
      · intro table hsome
        rw [predictive?_sets, htable] at hsome
        cases hsome

/-- The states of an algorithm are computed once, if it has any. -/
theorem transparent_collection (h : a.Faithful g) (algorithm : Algorithm) :
    Transparent g a (Collection.build g (FirstFollow.compute g) algorithm)
      (a.collection algorithm) := by
  unfold Analysis.collection
  cases hget : a.collections.get? algorithm with
  | some collection => exact ⟨(h.collections algorithm collection hget).symm, h, .refl a⟩
  | none =>
      have hsets := transparent_sets h
      simp only [h.grammar, hsets.result]
      cases hbuild : Collection.build g (FirstFollow.compute g) algorithm with
      | error failure => exact ⟨rfl, hsets.faithful, hsets.kept⟩
      | ok collection =>
          have hnew : algorithm ∉ a.sets.2.collections.keys := by
            rw [collections_sets, OrderedMap.mem_keys_iff, hget]
            exact Bool.false_ne_true
          refine ⟨rfl, ⟨hsets.faithful.grammar, hsets.faithful.sets, hsets.faithful.predictive, ?_⟩,
            hsets.kept.trans ⟨fun _ h => h, fun _ h => h, ?_⟩⟩
          · intro other found hfound
            rw [OrderedMap.get?_insert] at hfound
            split at hfound
            · next heq =>
                cases hfound
                exact heq ▸ hbuild
            · exact hsets.faithful.collections other found hfound
          · rw [OrderedMap.entries_insert _ hnew]
            exact List.prefix_append _ _

/-- The table of an algorithm, computed directly. -/
def directTable (g : Grammar) : Algorithm → Except Failure Table
  | .ll1 => .ok (Table.predictive g (FirstFollow.compute g))
  | algorithm =>
    (Collection.build g (FirstFollow.compute g) algorithm).map Collection.table

/-- The table of an algorithm is one of the kept results or part of one. -/
theorem transparent_table (h : a.Faithful g) (algorithm : Algorithm) :
    Transparent g a (directTable g algorithm) (a.table algorithm) := by
  cases algorithm with
  | ll1 => exact (transparent_predictive h).map Except.ok
  | lr0 => exact (transparent_collection h .lr0).map (Except.map Collection.table)
  | slr1 => exact (transparent_collection h .slr1).map (Except.map Collection.table)
  | lr1 => exact (transparent_collection h .lr1).map (Except.map Collection.table)

/-- The simulated parse with the table of an algorithm, computed directly. -/
def directRun (g : Grammar) (algorithm : Algorithm) (tokens : List Symbol)
    (options : RunOptions) : Except Failure ParseResult :=
  (directTable g algorithm).map fun table => TableParsing.simulate g table tokens options

/-- A parse is simulated with the table, if there is one. -/
theorem transparent_simulate (h : a.Faithful g) (algorithm : Algorithm) (tokens : List Symbol)
    (options : RunOptions) :
    Transparent g a (directRun g algorithm tokens options)
      (a.simulate algorithm tokens options) := by
  have htable := transparent_table h algorithm
  unfold Analysis.simulate directRun
  simp only [htable.result, h.grammar]
  cases directTable g algorithm with
  | error failure => exact ⟨rfl, htable.faithful, htable.kept⟩
  | ok table =>
      have hrun : Transparent (α := Except Failure ParseResult) g a
          (.ok (TableParsing.simulate g table tokens options))
          (.ok (TableParsing.simulate g table tokens options), (a.table algorithm).2) :=
        ⟨rfl, htable.faithful, htable.kept⟩
      exact hrun.withNotices _

/-- Collections are built one after the other, up to the first failure. -/
theorem transparent_collectionsOf :
    (algorithms : List Algorithm) → {a : Analysis} → a.Faithful g →
      Transparent g a (algorithms.mapM (Collection.build g (FirstFollow.compute g)))
        (a.collectionsOf algorithms)
  | [], a, h => .at_hand h (Except.ok [])
  | algorithm :: rest, a, h => by
      have hfirst := transparent_collection h algorithm
      have hrest := transparent_collectionsOf rest hfirst.faithful
      rw [List.mapM_cons]
      unfold Analysis.collectionsOf
      simp only [hfirst.result]
      cases Collection.build g (FirstFollow.compute g) algorithm with
      | error failure => exact ⟨rfl, hfirst.faithful, hfirst.kept⟩
      | ok collection => exact hfirst.trans (hrest.map (Except.map (collection :: ·)))

/-! ## Questions -/

namespace Query

/-- The name of an algorithm in a question. -/
def algorithm? : Query → Option Json
  | .collection name => some name
  | .table name => some name
  | .simulate name _ _ => some name
  | _ => none

/-- What a question is to be answered with, computed from the grammar alone. -/
def direct (g : Grammar) : Query → Except Failure Answer
  | .grammar => .ok (.grammar g)
  | .sets => .ok (.sets (FirstFollow.compute g))
  | .predictive => .ok (.predictive (Table.predictive g (FirstFollow.compute g)))
  | .collection name =>
    (Algorithm.resolve name).bind fun algorithm =>
      (Collection.build g (FirstFollow.compute g) algorithm).map .collection
  | .table name =>
    (Algorithm.resolve name).bind fun algorithm => (directTable g algorithm).map .table
  | .simulate name tokens options =>
    (Algorithm.resolve name).bind fun algorithm =>
      (directRun g algorithm tokens options).map .result
  | .everything =>
    (Algorithm.shiftReduce.mapM (Collection.build g (FirstFollow.compute g))).map
      (.everything g (FirstFollow.compute g) (Table.predictive g (FirstFollow.compute g)))

end Query

/-- An operation of an algorithm that is asked for by name. -/
theorem transparent_resolve (h : a.Faithful g) (name : Json) {direct : Algorithm → Except Failure β}
    {operation : Algorithm → Except Failure β × Analysis}
    (hoperation : ∀ algorithm, Transparent g a (direct algorithm) (operation algorithm))
    (form : β → Answer) :
    Transparent g a
      ((Algorithm.resolve name).bind fun algorithm => (direct algorithm).map form)
      (match Algorithm.resolve name with
      | .error failure => (.error failure, a)
      | .ok algorithm => ((operation algorithm).1.map form, (operation algorithm).2)) := by
  cases Algorithm.resolve name with
  | error failure => exact .at_hand h _
  | ok algorithm => exact (hoperation algorithm).map (Except.map form)

/-- Every question is answered with what is computed directly. -/
theorem transparent_answer (h : a.Faithful g) (q : Query) :
    Transparent g a (q.direct g) (a.answer q) := by
  cases q with
  | grammar => exact ⟨congrArg (Except.ok ∘ Answer.grammar) h.grammar, h, .refl a⟩
  | sets => exact (transparent_sets h).map (Except.ok ∘ Answer.sets)
  | predictive => exact (transparent_predictive h).map (Except.ok ∘ Answer.predictive)
  | collection name => exact transparent_resolve h name (transparent_collection h) .collection
  | table name => exact transparent_resolve h name (transparent_table h) .table
  | simulate name tokens options =>
      exact transparent_resolve h name (transparent_simulate h · tokens options) .result
  | everything =>
      have hsets := transparent_sets h
      have hpredictive := transparent_predictive hsets.faithful
      have hall := transparent_collectionsOf Algorithm.shiftReduce hpredictive.faithful
      have hkept := hsets.kept.trans (hpredictive.kept.trans hall.kept)
      refine ⟨?_, hall.faithful, hkept⟩
      simp only [answer, Query.direct, h.grammar, hsets.result, hpredictive.result, hall.result]

/-! ## Questions one after the other -/

/-- The answers to questions that are asked one after the other. -/
def answers (a : Analysis) : List Query → List (Except Failure Answer)
  | [] => []
  | q :: rest => (a.answer q).1 :: (a.answer q).2.answers rest

/-- The analysis after questions that are asked one after the other. -/
def after (a : Analysis) : List Query → Analysis
  | [] => a
  | q :: rest => (a.answer q).2.after rest

/-- Questions are asked in two parts. -/
theorem after_append (more : List Query) :
    (queries : List Query) → (a : Analysis) →
      a.after (queries ++ more) = (a.after queries).after more
  | [], _ => rfl
  | q :: rest, a => after_append more rest (a.answer q).2

/-- What is kept after any number of questions is what is computed directly. -/
theorem Faithful.after :
    (queries : List Query) → {a : Analysis} → a.Faithful g → (a.after queries).Faithful g
  | [], _, h => h
  | q :: rest, _, h => after rest (transparent_answer h q).faithful

/-- Nothing that was kept is lost by any number of questions. -/
theorem Faithful.keptIn_after :
    (queries : List Query) → {a : Analysis} → a.Faithful g → a.KeptIn (a.after queries)
  | [], a, _ => .refl a
  | q :: rest, _, h =>
      (transparent_answer h q).kept.trans (keptIn_after rest (transparent_answer h q).faithful)

/-- Each of a row of questions is answered with what is computed directly. -/
theorem Faithful.answers :
    (queries : List Query) → {a : Analysis} → a.Faithful g →
      a.answers queries = queries.map (Query.direct g)
  | [], _, _ => rfl
  | q :: rest, _, h =>
      congrArg₂ List.cons (transparent_answer h q).result
        (answers rest (transparent_answer h q).faithful)

/-- A question about an unknown algorithm changes nothing. -/
theorem answer_of_unknown {q : Query} {name : Json} (hname : q.algorithm? = some name)
    (hunknown : Algorithm.ofJson? name = none) (a : Analysis) :
    a.answer q = (.error (.unknownAlgorithm name), a) := by
  have hresolve : Algorithm.resolve name = .error (.unknownAlgorithm name) := by
    rw [Algorithm.resolve, hunknown]
  cases q with
  | grammar | sets | predictive | everything => cases hname
  | collection | table | simulate =>
      cases hname
      simp only [answer, hresolve]

/-- A text is read for analysis. Whatever has been asked before, a question is answered as it is
when nothing has been asked, and so with what is computed from the grammar alone. After each
question what is kept is what is computed directly, what was kept before still is, and a question
about an unknown algorithm is refused and changes nothing. -/
theorem answers_eq_fresh {text : String} (hread : read text = .ok a) :
    Grammar.read text = .ok a.grammar ∧
    (∀ q, (a.answer q).1 = q.direct a.grammar) ∧
    ∀ queries,
      a.answers queries = queries.map (fun q => (a.answer q).1) ∧
      (a.after queries).Faithful a.grammar ∧
      (∀ more, (a.after queries).KeptIn (a.after (queries ++ more))) ∧
      ∀ q name, q.algorithm? = some name → Algorithm.ofJson? name = none →
        (a.after queries).answer q = (.error (.unknownAlgorithm name), a.after queries) := by
  have hfresh := faithful_of_read hread
  have hdirect : ∀ q, (a.answer q).1 = q.direct a.grammar := fun q =>
    (transparent_answer hfresh q).result
  refine ⟨(eq_of_read hread).1, hdirect, fun queries => ⟨?_, hfresh.after queries, fun more => ?_,
    fun q name hname hunknown => answer_of_unknown hname hunknown _⟩⟩
  · rw [hfresh.answers queries]
    exact List.map_congr_left fun q _ => (hdirect q).symm
  · rw [after_append]
    exact (hfresh.after queries).keptIn_after more

/-- A question that fails leaves the sets for the one after it, and an unknown name changes
nothing. -/
theorem answers_eq_fresh_nested :
    ∃ a, read "S -> a S b |" = .ok a ∧
      (let states : Query := .collection (.str "LL(1)")
      let run : Query := .simulate (.str "slr1") ["a", "b"] .standard
      let unknown : Query := .table (.str "CYK")
      (a.answer states).1.isOk = false ∧ (a.after [states]).sets?.isSome = true ∧
      a.answers [states, run, unknown] = [states, run, unknown].map (fun q => (a.answer q).1) ∧
      (a.after [states, run]).collections.keys = [.slr1] ∧
      (a.after [states, run]).answer unknown =
        (.error (.unknownAlgorithm (.str "CYK")), a.after [states, run])) := by
  obtain ⟨a, hread⟩ : ∃ a, read "S -> a S b |" = .ok a := ⟨_, rfl⟩
  obtain ⟨-, -, hall⟩ := answers_eq_fresh hread
  cases hread
  refine ⟨_, rfl, by decide +kernel, by decide +kernel, (hall _).1, by decide +kernel, ?_⟩
  exact (hall _).2.2.2 _ _ rfl (by decide +kernel)

end TableParsing.Analysis
