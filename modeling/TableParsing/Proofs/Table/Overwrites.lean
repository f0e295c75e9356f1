import TableParsing.Proofs.FirstFollow.Lookahead
import TableParsing.Proofs.Table.Predictive

/-!
# Overwritten cells

The productions of a non-terminal that predict a symbol meet in one cell. The last of them stays
there, and the list of overwritten cells tells of each that the next one has replaced it, in their
order (`exists_chain`). So nothing is overwritten iff no two productions of a non-terminal predict
the same symbol.

The productions are entered one after the other, and each under all its symbols before the next
(`Held.predictAll`). A production may predict a symbol twice, by what its right-hand side begins
with and by what may follow its left-hand side; the second time it finds itself in the cell, and
nothing is replaced (`Held.predict`). Two productions with the same text are different, and one of
them replaces the other.
-/

namespace TableParsing

/-- The symbols that a production is to be predicted by: what its right-hand side begins with and, if
that derives the empty word, what may follow its left-hand side. -/
def FirstFollow.predictSet (sets : FirstFollow) (p : Production) : SymbolSet :=
  let first := sets.ofSequence p.rhs
  if epsilon ∈ first then first.erase epsilon ∪ setOf sets.follow p.lhs else first.erase epsilon

/-- A production is entered under the symbols that it is to be predicted by. -/
theorem FirstFollow.mem_predictSet {sets : FirstFollow} {p : Production} {symbol : Symbol} :
    symbol ∈ sets.predictSet p ↔ symbol ∈ Table.predicted sets p := by
  rw [mem_predicted, predictSet, ofSequence]
  split
  · next hε => rw [SymbolSet.mem_union, SymbolSet.mem_erase, and_iff_right hε]
  · next hε => rw [SymbolSet.mem_erase, or_iff_left fun h => hε h.1]

namespace Table

variable {g : Grammar} {sets : FirstFollow} {table : Table} {lhs symbol : Symbol}
  {chain : List Production}

/-! ## Neighbours in a list -/

/-- The neighbours in a list with one more element at its end. -/
theorem zip_tail_concat {α : Type} (x : α) :
    (xs : List α) → (xs ++ [x]).zip (xs ++ [x]).tail =
      xs.zip xs.tail ++ (xs.getLast?.map fun y => (y, x)).toList
  | [] => rfl
  | [_] => rfl
  | y :: z :: xs => congrArg ((y, z) :: ·) (zip_tail_concat x (z :: xs))

/-- Neighbours are related if all earlier elements are to the later ones. -/
theorem rel_of_mem_zip_tail {α : Type} {R : α → α → Prop} {pair : α × α} :
    (xs : List α) → xs.Pairwise R → pair ∈ xs.zip xs.tail → R pair.1 pair.2
  | [], _, h => absurd h List.not_mem_nil
  | [_], _, h => absurd h List.not_mem_nil
  | x :: y :: xs, hpairwise, h => by
      obtain ⟨hfirst, hrest⟩ := List.pairwise_cons.mp hpairwise
      rcases List.mem_cons.mp h with rfl | h
      · exact hfirst y List.mem_cons_self
      · exact rel_of_mem_zip_tail (y :: xs) hrest h

/-! ## The history of a cell -/

/-- The overwrites of one cell. -/
def overwritesAt (table : Table) (lhs symbol : Symbol) : List Overwrite :=
  table.overwrites.filter fun o => o.nonTerminal = lhs ∧ o.terminal = symbol

/-- The overwrites of a cell in which each of some productions has replaced the one before it. -/
def replacements (lhs symbol : Symbol) (chain : List Production) : List Overwrite :=
  (chain.zip chain.tail).map fun pair => ⟨lhs, symbol, pair.1, pair.2⟩

/-- A cell has held some productions one after the other. -/
structure Held (table : Table) (lhs symbol : Symbol) (chain : List Production) : Prop where
  /-- The cell holds the last of them. -/
  get?_eq : table.get? (.nonTerminal lhs) symbol = chain.getLast?.map .predict
  /-- Each has been replaced by the next. -/
  overwrites_eq : table.overwritesAt lhs symbol = replacements lhs symbol chain

/-- The production in the cell is the last that it has held. -/
theorem Held.production?_eq (h : Held table lhs symbol chain) :
    (table.get? (.nonTerminal lhs) symbol).bind Action.production? = chain.getLast? := by
  rw [h.get?_eq]
  cases chain.getLast? <;> rfl

/-- Entering a production in another cell does not change what a cell has held. -/
theorem Held.predict_of_ne (h : Held table lhs symbol chain) {p : Production} {symbol' : Symbol}
    (hne : ¬ (p.lhs = lhs ∧ symbol' = symbol)) :
    Held (table.predict p symbol') lhs symbol chain where
  get?_eq := by
    rw [get?_predict, if_neg fun heq => hne (heq.imp_left Row.nonTerminal.inj)]
    exact h.get?_eq
  overwrites_eq := by
    rw [overwritesAt, overwrites_predict, List.filter_append, ← overwritesAt, h.overwrites_eq]
    apply List.append_right_eq_self.mpr
    unfold overwritten
    split
    · split
      · rfl
      · exact List.filter_cons_of_neg (by simpa using hne)
    · rfl

/-- A cell that last held a production keeps it when it is entered once more. -/
theorem Held.predict_again {p : Production} (h : Held table p.lhs symbol chain)
    (hlast : chain.getLast? = some p) :
    Held (table.predict p symbol) p.lhs symbol chain where
  get?_eq := by
    rw [get?_predict, if_pos ⟨rfl, rfl⟩, hlast]
    rfl
  overwrites_eq := by
    rw [overwritesAt, overwrites_predict, overwritten, h.production?_eq, hlast]
    simp only [if_true, List.append_nil]
    exact h.overwrites_eq

/-- A production that is entered where another one is, or nothing, comes after what the cell has
held. -/
theorem Held.predict_concat {p : Production} (h : Held table p.lhs symbol chain)
    (hlast : chain.getLast? ≠ some p) :
    Held (table.predict p symbol) p.lhs symbol (chain ++ [p]) where
  get?_eq := by
    rw [get?_predict, if_pos ⟨rfl, rfl⟩, List.getLast?_concat]
    rfl
  overwrites_eq := by
    rw [overwritesAt, overwrites_predict, List.filter_append, ← overwritesAt, h.overwrites_eq,
      overwritten, h.production?_eq, replacements, replacements, zip_tail_concat, List.map_append]
    -- Of the cell's own overwrite and of the new pair of neighbours there is one iff it was filled.
    congr 1
    cases hchain : chain.getLast? with
    | none => rfl
    | some old =>
        have hne : old ≠ p := fun heq => hlast (heq ▸ hchain)
        simp [hne]

/-- What a cell has held once a production is entered in it. -/
def heldWith (chain : List Production) (p : Production) : List Production :=
  if chain.getLast? = some p then chain else chain ++ [p]

/-- Entering a production in its cell adds it to what the cell has held, unless it is there. -/
theorem Held.predict {p : Production} (h : Held table p.lhs symbol chain) :
    Held (table.predict p symbol) p.lhs symbol (heldWith chain p) := by
  unfold heldWith
  split
  · next hlast => exact h.predict_again hlast
  · next hlast => exact h.predict_concat hlast

/-- The second time a production finds itself in the cell. -/
theorem heldWith_heldWith (chain : List Production) (p : Production) :
    heldWith (heldWith chain p) p = heldWith chain p := by
  have hlast : (heldWith chain p).getLast? = some p := by
    unfold heldWith
    split
    · assumption
    · exact List.getLast?_concat
  rw [heldWith, if_pos hlast]

/-! ## Entering productions one after the other -/

/-- Entries in two lists are entered one list after the other. -/
theorem predictAll_append (table : Table) (entries others : List (Production × Symbol)) :
    table.predictAll (entries ++ others) = (table.predictAll entries).predictAll others :=
  List.foldl_append

/-- A production that is entered under some symbols comes once into each cell of its row under one of
them, and into no other cell. -/
theorem Held.predictAll_map (h : Held table lhs symbol chain) (p : Production)
    (symbols : List Symbol) :
    Held (table.predictAll (symbols.map fun s => (p, s))) lhs symbol
      (if p.lhs = lhs ∧ symbol ∈ symbols then heldWith chain p else chain) := by
  induction symbols generalizing table chain with
  | nil =>
      rw [if_neg fun hcell => List.not_mem_nil hcell.2]
      exact h
  | cons s symbols ih =>
      change Held ((table.predict p s).predictAll (symbols.map fun s => (p, s))) lhs symbol _
      by_cases hcell : p.lhs = lhs ∧ s = symbol
      · obtain ⟨rfl, rfl⟩ := hcell
        have hrest := ih h.predict
        rw [heldWith_heldWith, ite_self] at hrest
        rw [if_pos ⟨rfl, List.mem_cons_self⟩]
        exact hrest
      · have hrest := ih (h.predict_of_ne hcell)
        have hiff : (p.lhs = lhs ∧ symbol ∈ s :: symbols) ↔ (p.lhs = lhs ∧ symbol ∈ symbols) :=
          and_congr_right fun hlhs =>
            List.mem_cons.trans (or_iff_right fun heq => hcell ⟨hlhs, heq.symm⟩)
        rw [if_congr hiff rfl rfl]
        exact hrest

/-- The productions of a list that predict a symbol for a non-terminal. -/
def predictors (sets : FirstFollow) (lhs symbol : Symbol) (ps : List Production) :
    List Production :=
  ps.filter fun p => p.lhs = lhs ∧ symbol ∈ predicted sets p

/-- Productions that are entered one after the other come into a cell in their order. -/
theorem Held.predictAll_flatMap (h : Held table lhs symbol chain) {ps : List Production}
    (hnodup : ps.Nodup) (hfresh : ∀ p ∈ ps, p ∉ chain) :
    Held (table.predictAll (ps.flatMap fun p => (predicted sets p).map fun s => (p, s)))
      lhs symbol (chain ++ predictors sets lhs symbol ps) := by
  induction ps generalizing table chain with
  | nil =>
      rw [predictors, List.filter_nil, List.append_nil]
      exact h
  | cons p ps ih =>
      obtain ⟨hp, hnodup⟩ := List.nodup_cons.mp hnodup
      rw [List.forall_mem_cons] at hfresh
      rw [List.flatMap_cons, predictAll_append]
      have hlast : chain.getLast? ≠ some p := fun heq => hfresh.1 (List.mem_of_getLast? heq)
      have hheld := h.predictAll_map p (predicted sets p)
      rw [heldWith, if_neg hlast] at hheld
      by_cases hcell : p.lhs = lhs ∧ symbol ∈ predicted sets p
      · have hfresh' : ∀ q ∈ ps, q ∉ chain ++ [p] := by
          intro q hq hmem
          rcases List.mem_append.mp hmem with hmem | hmem
          · exact hfresh.2 q hq hmem
          · exact hp (List.mem_singleton.mp hmem ▸ hq)
        rw [if_pos hcell] at hheld
        rw [predictors, List.filter_cons_of_pos (by simpa using hcell), List.append_cons chain]
        exact ih hheld hnodup hfresh'
      · rw [if_neg hcell] at hheld
        rw [predictors, List.filter_cons_of_neg (by simpa using hcell)]
        exact ih hheld hnodup hfresh.2

/-! ## The table of a grammar -/

/-- A cell of the predictive table has held the productions for its row that predict its column. -/
theorem held_predictive (g : Grammar) (sets : FirstFollow) (lhs symbol : Symbol) :
    Held (predictive g sets) lhs symbol (predictors sets lhs symbol g.productions) := by
  rw [predictive_eq_predictAll]
  have hempty : Held (withRows .ll1 (g.terminals ++ [endMarker]) []
      (g.nonTerminals.map .nonTerminal)) lhs symbol [] := by
    refine ⟨?_, rfl⟩
    rw [get?_withRows]
    rfl
  exact hempty.predictAll_flatMap g.nodup_productions fun _ _ => List.not_mem_nil

/-- Nothing is overwritten iff no two productions of a non-terminal predict the same symbol. -/
theorem overwrites_eq_nil_iff :
    (predictive g sets).overwrites = [] ↔
      ∀ p ∈ g.productions, ∀ q ∈ g.productions, p ≠ q → p.lhs = q.lhs →
        ∀ symbol, ¬ (symbol ∈ predicted sets p ∧ symbol ∈ predicted sets q) := by
  constructor
  · intro hclean p hp q hq hne hlhs symbol hsymbol
    exact hne (eq_of_mem_predicted hclean hp hq hlhs hsymbol.1 hsymbol.2)
  · intro hdisjoint
    apply List.eq_nil_iff_forall_not_mem.mpr
    intro o ho
    -- The overwrite is of neighbours among the productions that predict its symbol.
    have hmem : o ∈ (predictive g sets).overwritesAt o.nonTerminal o.terminal :=
      List.mem_filter.mpr ⟨ho, by simp⟩
    rw [(held_predictive g sets _ _).overwrites_eq] at hmem
    obtain ⟨pair, hpair, -⟩ := List.mem_map.mp hmem
    have hlt := rel_of_mem_zip_tail _ (g.pairwise_index_productions.filter _) hpair
    have hreplaced := List.mem_filter.mp (List.of_mem_zip hpair).1
    have hproduction := List.mem_filter.mp (List.mem_of_mem_tail (List.of_mem_zip hpair).2)
    obtain ⟨hlhs, hsymbol⟩ := of_decide_eq_true hreplaced.2
    obtain ⟨hlhs', hsymbol'⟩ := of_decide_eq_true hproduction.2
    exact hdisjoint _ hreplaced.1 _ hproduction.1 (fun heq => absurd hlt (heq ▸ Int.lt_irrefl _))
      (hlhs.trans hlhs'.symm) _ ⟨hsymbol, hsymbol'⟩

/-- The predictive table of a grammar holds in each cell the last of the productions that are to be
predicted there and lists, in order, all that were replaced. So nothing is overwritten iff the
productions of each non-terminal are predicted by different symbols. Every cell is under a terminal
or the end marker. -/
theorem exists_chain (g : Grammar) :
    (∀ lhs symbol, ∃ chain : List Production,
      chain.Pairwise (fun p q => p.index < q.index) ∧
      (∀ p, p ∈ chain ↔
        p ∈ g.productions ∧ p.lhs = lhs ∧ symbol ∈ (FirstFollow.compute g).predictSet p) ∧
      (predictive g (FirstFollow.compute g)).get? (.nonTerminal lhs) symbol =
        chain.getLast?.map .predict ∧
      (predictive g (FirstFollow.compute g)).overwritesAt lhs symbol =
        replacements lhs symbol chain) ∧
    ((predictive g (FirstFollow.compute g)).overwrites = [] ↔
      ∀ p ∈ g.productions, ∀ q ∈ g.productions, p ≠ q → p.lhs = q.lhs →
        ∀ symbol, ¬ (symbol ∈ (FirstFollow.compute g).predictSet p ∧
          symbol ∈ (FirstFollow.compute g).predictSet q)) ∧
    (∀ row symbol action,
      (predictive g (FirstFollow.compute g)).get? row symbol = some action →
        symbol ∈ g.terminals ∨ symbol = endMarker) := by
  refine ⟨fun lhs symbol => ?_, ?_, fun row symbol action hcell => ?_⟩
  · have hheld := held_predictive g (FirstFollow.compute g) lhs symbol
    refine ⟨_, g.pairwise_index_productions.filter _, fun p => ?_, hheld.get?_eq,
      hheld.overwrites_eq⟩
    rw [List.mem_filter, decide_eq_true_iff, FirstFollow.mem_predictSet]
  · simp only [FirstFollow.mem_predictSet]
    exact overwrites_eq_nil_iff
  · obtain ⟨p, hp, hpredicted, -, -⟩ := exists_of_get?_predictive hcell
    exact FirstFollow.mem_predicted_cases hp hpredicted

/-- All three rules for sums begin with `id`. The last two have the same text. -/
example :
    ((predictive .sums (FirstFollow.compute .sums)).overwritesAt "E" "id").map
      (fun o => (o.replaced.index, o.production.index)) = [(0, 1), (1, 2)] := by
  decide +kernel

end Table

end TableParsing
