import Fum.Model.Data

/-!
# Node lifetime

The arena hands out slots from the free list, else from the high-water mark, else
from a fresh chunk; the iteration vector lists the live slots densely and removes by
swapping with its back. SOURCE: hash_table.hpp:337-384
-/

set_option autoImplicit false

namespace Fum.Model

open Effects

variable {τ : Traits}

/-! ## Slots -/

/-- `NodeAllocTraits::allocate(node_alloc, kChunkSize)`. -/
def allocateChunk : Exec τ (Chunk τ) := do
  mayThrow .chunk
  let id ← freshId
  modifyHeap fun h => { h with chunks := h.chunks.acquire id }
  let t ← getTable
  pure { id := id, tag := t.allocator, nodes := fun _ => Node.raw }

/-- `ensure_arena_slot`. Nothing gives the chunk back when `push_back` throws.
SOURCE: hash_table.hpp:338-345 -/
def ensureArenaSlot : Exec τ Unit := do
  let t ← getTable
  if t.freeListHead ≠ kNullIndex then
    pure ()
  else if t.arenaHighWater < t.arenaSize then
    pure ()
  else do
    let chunk ← allocateChunk
    mayThrow .chunksGrowth
    modifyTable fun t => { t with chunks := t.chunks ++ [chunk] }

/-- `acquire_node`. SOURCE: hash_table.hpp:348-356 -/
def acquireNode : Exec τ ℕ := do
  ensureArenaSlot
  let t ← getTable
  if t.freeListHead ≠ kNullIndex then do
    modifyTable fun t => { t with freeListHead := (t.nodeAt t.freeListHead).aux }
    pure t.freeListHead
  else do
    modifyTable fun t => { t with arenaHighWater := wrap32 (t.arenaHighWater + 1) }
    pure t.arenaHighWater

/-- What `release_node` does to the table. -/
def Table.release (t : Table τ) (index : ℕ) : Table τ :=
  { t.setNode index { t.nodeAt index with aux := t.freeListHead } with freeListHead := index }

/-- `release_node`. SOURCE: hash_table.hpp:357-360 -/
def releaseNode (index : ℕ) : Exec τ Unit := modifyTable fun t => t.release index

/-! ## Elements -/

/-- The constructor of an element, in storage that the caller provides. -/
def constructElement (value : τ.Value) : Exec τ (Element τ) := do
  mayThrow .construct
  let serial ← freshId
  modifyHeap fun h => { h with elements := h.elements.acquire serial, moved := true }
  pure { serial := serial, value := value }

/-- The destructor of an element. -/
def destroyElement (element : Element τ) : Exec τ Unit :=
  modifyHeap fun h => { h with elements := h.elements.giveBack element.serial }

/-- A write to the storage of a node. -/
def Table.setStorage (t : Table τ) (index : ℕ) (storage : Option (Element τ)) : Table τ :=
  t.setNode index { t.nodeAt index with storage := storage }

/-- `construct_value`. SOURCE: hash_table.hpp:362-366 -/
def constructValue (index : ℕ) (value : τ.Value) : Exec τ Unit := do
  let element ← constructElement value
  modifyTable fun t => t.setStorage index (some element)

/-- `destroy_value`. SOURCE: hash_table.hpp:367-369 -/
def destroyValue (index : ℕ) : Exec τ Unit := do
  let element ← elementAt index
  destroyElement element
  modifyTable fun t => t.setStorage index none

/-- An assignment to the value that lives in a node. -/
def assignValue (index : ℕ) (f : τ.Value → τ.Value) : Exec τ Unit := do
  let element ← elementAt index
  modifyTable fun t => t.setStorage index (some { element with value := f element.value })

/-! ## The iteration vector -/

/-- What the first line of `link_into_iteration` does to the table. -/
def Table.setAux (t : Table τ) (index aux : ℕ) : Table τ :=
  t.setNode index { t.nodeAt index with aux := aux }

/-- `link_into_iteration`. SOURCE: hash_table.hpp:372-375 -/
def linkIntoIteration (index : ℕ) : Exec τ Unit := do
  modifyTable fun t => t.setAux index (wrap32 t.size)
  mayThrow .iterationGrowth
  modifyTable fun t => { t with iteration := t.iteration ++ [index] }

/-- `unlink_from_iteration`: the back of the vector takes the place of the removed
node. SOURCE: hash_table.hpp:378-384 -/
def unlinkFromIteration (index : ℕ) : Exec τ Unit := do
  let t ← getTable
  let position := (t.nodeAt index).aux
  match t.iteration.getLast? with
  | none => Action.undefined
  | some last =>
      if position < t.size then do
        modifyTable fun t => { t with iteration := t.iteration.set position last }
        modifyTable fun t => t.setAux last position
        modifyTable fun t => { t with iteration := t.iteration.dropLast }
      else Action.undefined

end Fum.Model
