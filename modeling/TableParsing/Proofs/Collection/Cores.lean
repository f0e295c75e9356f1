import TableParsing.Proofs.Collection.Paths

/-!
# Items without their lookaheads

The automaton without lookaheads follows the one with lookaheads. If some symbols lead somewhere in
the latter, they do so in the former, and the state there holds the cores of the items, that is the
items without their lookaheads (`exists_leads_core`). This is a map of items along paths: the cores
of the first items of the two automata agree, and the core of an item calls for the cores of the
items that the item calls for (`itemMap_core`). The converse needs lookaheads to exist
(`exists_leads_fine` in the refinement of the two automata).
-/

namespace TableParsing

/-- The item without its lookahead. -/
def Item.core (item : Item) : Item := { item with lookahead := none }

namespace Item

@[simp] theorem next?_core (item : Item) : item.core.next? = item.next? := rfl

@[simp] theorem advance_core (item : Item) : item.core.advance = item.advance.core := rfl

variable {item other : Item}

/-- Items with the same core have the same symbol after their dots. -/
theorem next?_eq_of_core_eq (h : item.core = other.core) : item.next? = other.next? := by
  rw [← next?_core item, h, next?_core]

/-- Items with the same core and the same lookahead are the same. -/
theorem eq_of_core_eq (h : item.core = other.core) (hlookahead : item.lookahead = other.lookahead) :
    item = other := by
  cases item
  cases other
  cases h
  cases hlookahead
  rfl

end Item

namespace Collection

open ItemSystem

variable {g : Grammar} {fine coarse : List State}

/-- The core of an item calls for the cores of the items that the item calls for. -/
theorem exists_calledFor_core {item : Item} {called : NumberedItem}
    (hcalled : called ∈ (computed g true).calledFor item) :
    ∃ other ∈ (computed g false).calledFor item.core, other.toItem = called.toItem.core := by
  obtain ⟨p, hp, hnext, lookahead, -, rfl⟩ := mem_calledFor.mp hcalled
  refine ⟨.dotted p 0 none, mem_calledFor.mpr ⟨p, hp, hnext, none, ?_, rfl⟩, rfl⟩
  rw [lookaheads_of_not rfl]
  exact List.mem_singleton_self none

/-- Leaving out the lookaheads goes from the one system of items to the other. -/
theorem itemMap_core (g : Grammar) : ItemMap (computed g true) (computed g false) Item.core where
  next?_eq := Item.next?_core
  advance_eq := Item.advance_core
  start_eq := rfl
  exists_called _ _ hcalled := exists_calledFor_core hcalled

/-- **Paths without lookaheads**: symbols that lead somewhere in the automaton with lookaheads do so
in the one without, and the cores of the items are held there. -/
theorem exists_leads_core (hfine : Linked (computed g true) fine.length [] fine)
    (hcoarse : Linked (computed g false) coarse.length [] coarse) {symbols : List Symbol}
    {number : Int} (hleads : Leads fine 0 symbols number) :
    ∃ number', Leads coarse 0 symbols number' ∧
      ∀ item, Holds fine number item → Holds coarse number' item.core :=
  exists_leads_map hfine hcoarse (itemMap_core g) hleads

end Collection

end TableParsing
