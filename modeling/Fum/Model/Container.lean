import Fum.Model.Sizing

/-!
# The member functions of a container

Insertion, erasure, lookup and node extraction of one table. An iterator into the
table is the index of the node it designates, and `kNullIndex` is `end()`.
SOURCE: hash_table.hpp:529-610, 866-1006, 1166-1222; unordered_map.hpp:95-160
-/

set_option autoImplicit false

namespace Fum.Model

open Effects

variable {τ : Traits}

/-! ## Iterators -/

/-- `begin`. SOURCE: hash_table.hpp:838-844 -/
def Table.begin (t : Table τ) : ℕ := t.iteration.headD kNullIndex

/-- `basic_iterator::operator++`. SOURCE: hash_table.hpp:174-181 -/
def Table.next (t : Table τ) (node : ℕ) : ℕ :=
  t.iteration.getD (wrap32 ((t.nodeAt node).aux + 1)) kNullIndex

/-- The nodes from `first` up to `last`, by repeated `++`; `none` if `last` is never
reached from `first` or a node on the way holds no element. -/
def Table.range (t : Table τ) : ℕ → ℕ → ℕ → Option (List ℕ)
  | 0, _, _ => none
  | fuel + 1, first, last =>
      if first = last then some []
      else if (t.nodeAt first).storage.isSome then
        (t.range fuel (t.next first) last).map (first :: ·)
      else none

/-- The nodes that an iteration from `begin()` to `end()` visits. -/
def Table.traversal (t : Table τ) : Option (List ℕ) :=
  t.range (kNullIndex + 1) t.begin kNullIndex

/-! ## Insertion -/

/-- The first half of an insertion: a slot with the element constructed in it, given
back if the constructor throws. SOURCE: hash_table.hpp:541-547, 577-586, 1202-1208 -/
def buildNode (value : τ.Value) : Exec τ ℕ := do
  let nodeIndex ← acquireNode
  (constructValue nodeIndex value).cleanup (releaseNode nodeIndex)
  pure nodeIndex

/-- `insert_known_absent`. SOURCE: hash_table.hpp:530-534 -/
def insertKnownAbsent (nodeIndex : ℕ) (hash : UInt64) : Exec τ Unit := do
  let state ← probeStart hash
  placeAndShiftUp state.1 state.2 nodeIndex

/-- The second half of an insertion: room in the index, the entry in the iteration
vector and the place in a bucket. Only the first two are undone by an exception.
SOURCE: hash_table.hpp:557-565, 587-595, 1209-1217 -/
def attachNode (nodeIndex : ℕ) : Exec τ Unit := do
  (do
    reserveForOneMore
    linkIntoIteration nodeIndex).cleanup (do
    destroyValue nodeIndex
    releaseNode nodeIndex)
  let key ← keyAt nodeIndex
  let hash ← callMixedHash key
  insertKnownAbsent nodeIndex hash

/-- `emplace_impl`: construct first, then probe. SOURCE: hash_table.hpp:539-567 -/
def emplaceImpl (value : τ.Value) : Exec τ (ℕ × Bool) := do
  let nodeIndex ← buildNode value
  let key ← keyAt nodeIndex
  let hash ← callMixedHash key
  let existing ← findBucket key hash
  let t ← getTable
  if existing ≠ t.bucketCount then do
    let bucket ← bucketAt existing
    destroyValue nodeIndex
    releaseNode nodeIndex
    pure (bucket.nodeIndex, false)
  else do
    attachNode nodeIndex
    pure (nodeIndex, true)

/-- `try_emplace_impl`: probe first, construct only if the key is absent.
SOURCE: hash_table.hpp:569-598 -/
def tryEmplaceImpl (key : τ.Key) (mapped : τ.Mapped) : Exec τ (ℕ × Bool) := do
  let hash ← callMixedHash key
  let existing ← findBucket key hash
  let t ← getTable
  if existing ≠ t.bucketCount then do
    let bucket ← bucketAt existing
    pure (bucket.nodeIndex, false)
  else do
    let nodeIndex ← buildNode (τ.makeValue key mapped)
    attachNode nodeIndex
    pure (nodeIndex, true)

/-- `insert_or_assign_impl`. SOURCE: hash_table.hpp:600-610 -/
def insertOrAssignImpl (key : τ.Key) (mapped : τ.Mapped) : Exec τ (ℕ × Bool) := do
  let hash ← callMixedHash key
  let existing ← findBucket key hash
  let t ← getTable
  if existing ≠ t.bucketCount then do
    let bucket ← bucketAt existing
    assignValue bucket.nodeIndex fun value => τ.assignMapped value mapped
    pure (bucket.nodeIndex, false)
  else
    tryEmplaceImpl key mapped

/-- `insert(first, last)` and `insert(init)`. SOURCE: hash_table.hpp:900-906 -/
def insertRange (values : List τ.Value) : Exec τ Unit :=
  Action.forEach values fun value => do
    let _ ← emplaceImpl value
    pure ()

/-! ## Removal -/

/-- `destroy_all_values`. SOURCE: hash_table.hpp:613-617 -/
def destroyAllValues : Exec τ Unit := do
  let t ← getTable
  Action.forEach t.iteration destroyValue

/-- `clear`. SOURCE: hash_table.hpp:866-878 -/
def clear : Exec τ Unit := do
  let t ← getTable
  if t.iteration = [] ∧ t.freeListHead = kNullIndex ∧ t.arenaHighWater = 0 then
    pure ()
  else do
    destroyAllValues
    modifyTable fun t =>
      { t.setCells emptyCells with
        iteration := [], arenaHighWater := 0, freeListHead := kNullIndex }

/-- Find the bucket of a live node by its key and erase it. -/
def eraseNode (node : ℕ) : Exec τ Unit := do
  let key ← keyAt node
  let hash ← callMixedHash key
  let bucketIndex ← findBucket key hash
  eraseLocated bucketIndex

/-- `erase(pos)`: the iterator to what now stands at the position of the erased
element. SOURCE: hash_table.hpp:919-927 -/
def eraseAt (node : ℕ) : Exec τ ℕ := do
  let t ← getTable
  let position := (t.nodeAt node).aux
  eraseNode node
  let t ← getTable
  pure (t.iteration.getD position kNullIndex)

/-- `erase(first, last)`. SOURCE: hash_table.hpp:931-942 -/
def eraseRange (first last : ℕ) : Exec τ ℕ := do
  let t ← getTable
  match t.range (kNullIndex + 1) first last with
  | none => Action.undefined
  | some doomed => do
      Action.forEach doomed fun _ => mayThrow .scratch
      Action.forEach doomed eraseNode
      pure last

/-- The loop of `erase_if` from the iterator `it` on. The predicate may keep a state: it
knows the values it has been asked about, which are recorded in `asked`. -/
def eraseIfLoop (predicate : List τ.Value → τ.Value → Bool) :
    ℕ → ℕ → ℕ → List τ.Value → Exec τ (ℕ × List τ.Value)
  | 0, _, _, _ => Action.diverge
  | fuel + 1, it, erased, asked =>
      if it = kNullIndex then
        pure (erased, asked)
      else do
        let element ← elementAt it
        if predicate asked element.value then do
          let following ← eraseAt it
          eraseIfLoop predicate fuel following (erased + 1) (asked ++ [element.value])
        else do
          let t ← getTable
          eraseIfLoop predicate fuel (t.next it) erased (asked ++ [element.value])

/-- `erase_if`: the number of erased elements, with the record of what the predicate was
asked. SOURCE: unordered_map.hpp:193-208, unordered_set.hpp:101-115 -/
def eraseIf (predicate : List τ.Value → τ.Value → Bool) : Exec τ (ℕ × List τ.Value) := do
  let t ← getTable
  eraseIfLoop predicate (kNullIndex + 1) t.begin 0 []

/-- `erase(key)`. SOURCE: hash_table.hpp:943-949 -/
def eraseKey (key : τ.Key) : Exec τ ℕ := do
  let hash ← callMixedHash key
  let bucketIndex ← findBucket key hash
  let t ← getTable
  if bucketIndex = t.bucketCount then
    pure 0
  else do
    eraseLocated bucketIndex
    pure 1

/-! ## Lookup -/

/-- `find`. SOURCE: hash_table.hpp:977-988 -/
def find (key : τ.Key) : Exec τ ℕ := do
  let hash ← callMixedHash key
  let bucketIndex ← findBucket key hash
  let t ← getTable
  if bucketIndex = t.bucketCount then
    pure kNullIndex
  else do
    let bucket ← bucketAt bucketIndex
    pure bucket.nodeIndex

/-- `count`. SOURCE: hash_table.hpp:974-976 -/
def count (key : τ.Key) : Exec τ ℕ := do
  let hash ← callMixedHash key
  let bucketIndex ← findBucket key hash
  let t ← getTable
  pure (if bucketIndex = t.bucketCount then 0 else 1)

/-- `contains`. SOURCE: hash_table.hpp:989-991 -/
def contains (key : τ.Key) : Exec τ Bool := do
  let hash ← callMixedHash key
  let bucketIndex ← findBucket key hash
  let t ← getTable
  pure (bucketIndex != t.bucketCount)

/-- `equal_range`. SOURCE: hash_table.hpp:992-1006 -/
def equalRange (key : τ.Key) : Exec τ (ℕ × ℕ) := do
  let it ← find key
  let t ← getTable
  if it = kNullIndex then
    pure (it, it)
  else
    pure (it, t.next it)

/-- `at`, with the text of its exception. SOURCE: unordered_map.hpp:95-108 -/
def atKey (key : τ.Key) : Exec τ (Except String τ.Mapped) := do
  let it ← find key
  if it = kNullIndex then
    pure (.error "fum::unordered_map::at: key not found")
  else do
    let element ← elementAt it
    pure (.ok (τ.mappedOf element.value))

/-! ## Node handles -/

/-- A default-constructed `node_type`. -/
def Handle.default : Handle τ := ⟨none, τ.defaultAlloc⟩

/-- What `node_type::release` does to the memory. SOURCE: hash_table.hpp:1093-1099 -/
def Heap.releaseHandle (h : Heap) (handle : Handle τ) : Heap :=
  match handle.value with
  | none => h
  | some cell =>
      { h with
        elements := h.elements.giveBack cell.element.serial
        cells := h.cells.giveBack cell.id }

/-- `AllocTraits::allocate(allocator_, 1)`. -/
def allocateCell : Exec τ ℕ := do
  mayThrow .handleCell
  let id ← freshId
  modifyHeap fun h => { h with cells := h.cells.acquire id }
  pure id

/-- `extract_located`. SOURCE: hash_table.hpp:1166-1178 -/
def extractLocated (bucketIndex : ℕ) : Exec τ (Handle τ) := do
  let bucket ← bucketAt bucketIndex
  let id ← allocateCell
  let source ← elementAt bucket.nodeIndex
  let element ← (constructElement source.value).cleanup
    (modifyHeap fun h => { h with cells := h.cells.giveBack id })
  assignValue bucket.nodeIndex τ.movedFrom
  eraseLocated bucketIndex
  let t ← getTable
  pure ⟨some ⟨id, t.allocator, element⟩, t.allocator⟩

/-- `extract(key)`. SOURCE: hash_table.hpp:1181-1185 -/
def extractKey (key : τ.Key) : Exec τ (Handle τ) := do
  let hash ← callMixedHash key
  let bucketIndex ← findBucket key hash
  let t ← getTable
  if bucketIndex = t.bucketCount then
    pure Handle.default
  else
    extractLocated bucketIndex

/-- `extract(pos)`. SOURCE: hash_table.hpp:1186-1189 -/
def extractAt (node : ℕ) : Exec τ (Handle τ) := do
  let key ← keyAt node
  let hash ← callMixedHash key
  let bucketIndex ← findBucket key hash
  extractLocated bucketIndex

/-- `insert(node_type&&)`: the value returned and what is left of the argument.
SOURCE: hash_table.hpp:1192-1219 -/
def insertNode (handle : Handle τ) : Exec τ (InsertReturnType τ × Handle τ) :=
  match handle.value with
  | none => pure (⟨kNullIndex, false, Handle.default⟩, handle)
  | some cell => do
      let key := τ.keyOf cell.element.value
      let hash ← callMixedHash key
      let existing ← findBucket key hash
      let t ← getTable
      if existing ≠ t.bucketCount then do
        let bucket ← bucketAt existing
        pure (⟨bucket.nodeIndex, false, handle⟩, { handle with value := none })
      else do
        let nodeIndex ← buildNode cell.element.value
        attachNode nodeIndex
        modifyHeap fun h => h.releaseHandle handle
        pure (⟨nodeIndex, true, Handle.default⟩, { handle with value := none })

/-! ## Operations -/

/-- A call of a member function of one table. -/
inductive Op (τ : Traits) where
  /-- `insert`, `emplace` or `emplace_hint`. -/
  | insert (value : τ.Value)
  /-- `try_emplace` or `operator[]`. -/
  | tryEmplace (key : τ.Key) (mapped : τ.Mapped)
  | insertOrAssign (key : τ.Key) (mapped : τ.Mapped)
  /-- `it->second = mapped`. -/
  | assign (node : ℕ) (mapped : τ.Mapped)
  | eraseKey (key : τ.Key)
  | eraseAt (node : ℕ)
  | eraseRange (first last : ℕ)
  | extractKey (key : τ.Key)
  | extractAt (node : ℕ)
  | clear
  | rehash (requested : ℕ)
  | reserve (elementCount : ℕ)
  | maxLoadFactor (newFactor : RoundedArithmetic.FloatValue τ.rounding)
  | find (key : τ.Key)

/-- What a call returns. -/
inductive Reply (τ : Traits) where
  | none
  /-- An iterator and whether an element was inserted. -/
  | inserted (it : ℕ) (flag : Bool)
  /-- The number of erased elements. -/
  | erased (n : ℕ)
  | iterator (it : ℕ)
  | node (handle : Handle τ)

/-- The call of an operation. -/
def Op.exec : Op τ → Exec τ (Reply τ)
  | .insert value => do
      let r ← emplaceImpl value
      pure (.inserted r.1 r.2)
  | .tryEmplace key mapped => do
      let r ← tryEmplaceImpl key mapped
      pure (.inserted r.1 r.2)
  | .insertOrAssign key mapped => do
      let r ← insertOrAssignImpl key mapped
      pure (.inserted r.1 r.2)
  | .assign node mapped => do
      assignValue node fun value => τ.assignMapped value mapped
      pure .none
  | .eraseKey key => do
      let n ← Model.eraseKey key
      pure (.erased n)
  | .eraseAt node => do
      let it ← Model.eraseAt node
      pure (.iterator it)
  | .eraseRange first last => do
      let it ← Model.eraseRange first last
      pure (.iterator it)
  | .extractKey key => do
      let handle ← Model.extractKey key
      pure (.node handle)
  | .extractAt node => do
      let handle ← Model.extractAt node
      pure (.node handle)
  | .clear => do
      Model.clear
      pure .none
  | .rehash requested => do
      Model.rehash requested
      pure .none
  | .reserve elementCount => do
      Model.reserve elementCount
      pure .none
  | .maxLoadFactor newFactor => do
      setMaxLoadFactor newFactor
      pure .none
  | .find key => do
      let it ← Model.find key
      pure (.iterator it)

/-- A sequence of calls, with what each returned. -/
def runOps : List (Op τ) → Exec τ (List (Reply τ))
  | [] => pure []
  | op :: ops => do
      let reply ← op.exec
      let replies ← runOps ops
      pure (reply :: replies)

end Fum.Model
