import TableParsing.Proofs.Analysis.Transparency
import TableParsing.Proofs.Collection.Built
import TableParsing.Proofs.Table.Predictive

/-!
# What is looked up is there

The builders look up sets, rows, items and moments that they take to be there, and where one were
missing they would go on with an empty one. This never happens (`grounded`), whatever the grammar:
all sets are made before the first clause is used, all rows before the first production is entered,
dots only move inside of bodies, and a trace begins before the first step.

Where a builder reports that something is missing, it never has to: every algorithm gives a table
(`exists_directTable`), and every input of every algorithm can be run (`exists_directRun`).
-/

namespace TableParsing

/-- Nothing that is looked up in the analysis of a grammar is missing. -/
structure Grounded (g : Grammar) : Prop where
  /-- At all times every non-terminal has a FIRST set and a FOLLOW set. -/
  sets : ∀ snapshot ∈ (FirstFollow.compute g).history, ∀ s ∈ g.nonTerminals,
    (snapshot.data.first.get? s).isSome ∧ (snapshot.data.follow.get? s).isSome
  /-- The predictive table has no rows but those that it was made with, which are those of the
  non-terminals. -/
  rows : (Table.predictive g (FirstFollow.compute g)).rows.keys = g.nonTerminals.map .nonTerminal
  /-- The states of every shift-reduce algorithm can be built, each of their items has its dot in
  its body, and the grammar has its production unless the item is of the added start symbol. -/
  items : ∀ algorithm ∈ Algorithm.shiftReduce, ∃ collection,
    Collection.build g (FirstFollow.compute g) algorithm = .ok collection ∧
      ∀ state ∈ collection.states, ∀ item ∈ state.items, item.isPlaced = true ∧
        (item.lhs ≠ g.augmentedProduction.lhs → (g.production? item.index).isSome)
  /-- A trace has a last moment. -/
  traces : ∀ table tokens options, (simulate g table tokens options).trace ≠ []

/-- The dot of an item of the automaton is in its body. -/
theorem Item.isPlaced_dotted (r : Rule) (place : Nat) (lookahead : Option Symbol) :
    (Item.dotted r place lookahead).isPlaced = true := by
  have hdot : (Item.dotted r place lookahead).dot = place := rfl
  rw [Item.isPlaced, hdot]
  exact decide_eq_true (by omega)

/-- Nothing is missing in the analysis of any grammar. -/
theorem grounded (g : Grammar) : Grounded g where
  sets := by
    intro snapshot hsnapshot s hs
    have hrange := FirstFollow.inRange_of_mem_history g snapshot hsnapshot
    have hn := Grammar.isNonTerminal_iff.mpr hs
    exact ⟨hrange.first.isSome s hn, (hrange.follow.isSome_iff s).mpr hn⟩
  rows := Table.keys_rows_predictive g _
  items := by
    intro algorithm halgorithm
    obtain ⟨collection, hbuild, hbuilt⟩ := Collection.exists_built g halgorithm
    refine ⟨collection, hbuild, fun state hstate item hitem => ?_⟩
    obtain ⟨p, hp, place, -, lookahead, -, rfl⟩ := hbuilt.linked.isItem hstate item hitem
    refine ⟨Item.isPlaced_dotted p.toRule place lookahead, fun hlhs => ?_⟩
    have hproduction := Grammar.mem_productions_of_lhs_ne hp hlhs
    exact Option.isSome_of_eq_some (Grammar.production?_index hproduction)
  traces := by
    intro table tokens options
    unfold simulate
    split <;> exact List.cons_ne_nil _ _

namespace Analysis

/-- Every shift-reduce algorithm gives a table. -/
theorem exists_map_table (g : Grammar) {algorithm : Algorithm}
    (halgorithm : algorithm ∈ Algorithm.shiftReduce) :
    ∃ table, (Collection.build g (FirstFollow.compute g) algorithm).map Collection.table =
      .ok table := by
  obtain ⟨collection, hbuild, -⟩ := (grounded g).items algorithm halgorithm
  exact ⟨collection.table, by rw [hbuild]; rfl⟩

/-- Every algorithm gives a table. -/
theorem exists_directTable (g : Grammar) (algorithm : Algorithm) :
    ∃ table, directTable g algorithm = .ok table := by
  cases algorithm with
  | ll1 => exact ⟨_, rfl⟩
  | lr0 => exact exists_map_table g (by decide)
  | slr1 => exact exists_map_table g (by decide)
  | lr1 => exact exists_map_table g (by decide)

/-- A parse can be simulated with every algorithm. -/
theorem exists_directRun (g : Grammar) (algorithm : Algorithm) (tokens : List Symbol)
    (options : RunOptions) : ∃ result, directRun g algorithm tokens options = .ok result := by
  obtain ⟨table, htable⟩ := exists_directTable g algorithm
  exact ⟨_, by rw [directRun, htable]; rfl⟩

end Analysis

end TableParsing
