import Fum.Model.Container

/-!
# Tables and node handles of a program

The objects a program holds at one time, the constructors, assignments, exchanges
and merges that involve more than one table, and the life of a node handle. A table
or a handle is named by its position in a list; a position is never used again, and
the object is gone when it holds nothing.
SOURCE: hash_table.hpp:612-829, 951-969, 1084-1158, 1192-1264
-/

set_option autoImplicit false

namespace Fum.Model

open Effects

/-- The table objects, the handle objects and the memory of a program. -/
structure World (τ : Traits) where
  tables : List (Option (Table τ))
  handles : List (Option (Handle τ))
  heap : Heap

variable {τ : Traits} {α : Type}

/-- A program that has not run yet. -/
def World.empty : World τ := ⟨[], [], Heap.empty⟩

/-- The table object `i`, if it is alive. -/
def World.table? (w : World τ) (i : ℕ) : Option (Table τ) := w.tables[i]?.join

/-- The handle object `h`, if it is alive. -/
def World.handle? (w : World τ) (h : ℕ) : Option (Handle τ) := w.handles[h]?.join

def World.setTable (w : World τ) (i : ℕ) (t : Option (Table τ)) : World τ :=
  { w with tables := w.tables.set i t }

def World.setHandle (w : World τ) (h : ℕ) (handle : Option (Handle τ)) : World τ :=
  { w with handles := w.handles.set h handle }

/-- A member function called on the table object `i`. -/
def onTable (i : ℕ) (x : Exec τ α) : Action (World τ) α where
  run w := match w.table? i with
    | none => (.undefined, w)
    | some t =>
        let r := x.run ⟨t, w.heap⟩
        (r.1, { w.setTable i (some r.2.table) with heap := r.2.heap })

def readTable (i : ℕ) : Action (World τ) (Table τ) := onTable i getTable

def readHandle (h : ℕ) : Action (World τ) (Handle τ) where
  run w := match w.handle? h with
    | none => (.undefined, w)
    | some handle => (.ok handle, w)

/-- Storage for a new table object, with its members initialised. -/
def newTable (t : Table τ) : Action (World τ) ℕ where
  run w := (.ok w.tables.length, { w with tables := w.tables ++ [some t] })

/-- The end of a table object without a destructor. -/
def dropTable (i : ℕ) : Action (World τ) Unit := Action.modify fun w => w.setTable i none

/-- A new handle object. -/
def newHandle (handle : Handle τ) : Action (World τ) ℕ where
  run w := (.ok w.handles.length, { w with handles := w.handles ++ [some handle] })

def modifyWorldHeap (f : Heap → Heap) : Action (World τ) Unit :=
  Action.modify fun w => { w with heap := f w.heap }

/-! ## Teardown and storage transfer -/

/-- `deallocate_chunks`. SOURCE: hash_table.hpp:618-624 -/
def deallocateChunks : Exec τ Unit := do
  let t ← getTable
  Action.forEach t.chunks fun chunk =>
    modifyHeap fun h => { h with chunks := h.chunks.giveBack chunk.id }
  modifyTable fun t => { t with chunks := [] }

/-- `destroy_everything`. SOURCE: hash_table.hpp:625-629 -/
def destroyEverything : Exec τ Unit := do
  destroyAllValues
  deallocateBuckets
  deallocateChunks

/-- `reset_to_empty_state`. SOURCE: hash_table.hpp:630-638 -/
def Table.resetToEmptyState (t : Table τ) : Table τ :=
  { t with
    buckets := none
    bucketCount := 0
    maxLoadCapacity := 0
    bucketShift := 64
    arenaHighWater := 0
    freeListHead := kNullIndex
    iteration := [] }

/-- What `steal_storage_from` gives the receiver, whose vectors are move-assigned and take the
allocator along if it propagates. SOURCE: hash_table.hpp:648-659 -/
def Table.stealStorageFrom (t other : Table τ) : Table τ :=
  { other with
    allocator := t.allocator
    vectorAllocator := if τ.pocma then other.vectorAllocator else t.vectorAllocator }

/-- The move assignment to the vectors of `t` leaves `chunks_` of `other` empty: it takes the
vector over as a whole, or an element-wise move leaves nothing behind. -/
def Table.givesUpChunks (other t : Table τ) : Prop :=
  τ.pocma = true ∨ other.vectorAllocator = t.vectorAllocator ∨ τ.movedVectorEmpty = true ∨
    other.chunks = []

instance (other t : Table τ) : Decidable (other.givesUpChunks t) :=
  inferInstanceAs (Decidable (_ ∨ _ ∨ _ ∨ _))

/-- What `steal_storage_from` leaves behind, where the vectors are empty.
SOURCE: hash_table.hpp:660-661 -/
def Table.afterSteal (other : Table τ) : Table τ := { other.resetToEmptyState with chunks := [] }

/-- The members of a table before the body of a constructor runs. -/
def Table.initial (factor : LoadFactor τ.rounding) (hash : τ.Key → UInt64)
    (equal : τ.Key → τ.Key → Bool) (alloc : τ.Alloc) : Table τ where
  buckets := none
  bucketCount := 0
  maxLoadCapacity := 0
  bucketShift := 64
  chunks := []
  arenaHighWater := 0
  freeListHead := kNullIndex
  iteration := []
  maxLoadFactor := factor
  hashFunction := hash
  keyEqual := equal
  allocator := alloc
  vectorAllocator := alloc

/-- The assignment of the load factor and the functors of another table. -/
def Table.adoptPolicy (t other : Table τ) : Table τ :=
  { t with
    maxLoadFactor := other.maxLoadFactor
    hashFunction := other.hashFunction
    keyEqual := other.keyEqual }

/-- `steal_storage_from` between two table objects. `reset_to_empty_state` does not clear
`chunks_`: chunks that the move has left in it belong to both tables from here on, where the
model stops. SOURCE: hash_table.hpp:648-662 -/
def stealStorage (this other : ℕ) : Action (World τ) Unit := do
  let source ← readTable other
  let t ← readTable this
  if source.givesUpChunks t then do
    onTable this (modifyTable fun t => t.stealStorageFrom source)
    onTable other (modifyTable Table.afterSteal)
  else Action.undefined

/-- `copy_contents_from`. SOURCE: hash_table.hpp:640-646 -/
def copyContentsFrom (this other : ℕ) : Action (World τ) Unit := do
  let source ← readTable other
  if source.iteration = [] then
    pure ()
  else do
    onTable this (reserve source.size)
    Action.forEach source.iteration fun node => do
      let element ← onTable other (elementAt node)
      let _ ← onTable this (emplaceImpl element.value)
      pure ()

/-- A call with the element in `node` of the table `other` as rvalue argument: it is
moved from once the call has constructed its element from it. -/
def movingNode (other node : ℕ) (x : Action (World τ) α) : Action (World τ) α where
  run w :=
    let r := x.run { w with heap := { w.heap with moved := false } }
    if r.2.heap.moved then
      (r.1, ((onTable other (assignValue node τ.movedFrom)).run r.2).2)
    else r

/-- The element-wise move of the contents of `other` into `this`.
SOURCE: hash_table.hpp:764-768, 820-825 -/
def moveContentsFrom (this other : ℕ) : Action (World τ) Unit := do
  let source ← readTable other
  onTable this (reserve source.size)
  Action.forEach source.iteration fun node => do
    let element ← onTable other (elementAt node)
    let _ ← movingNode other node (onTable this (emplaceImpl element.value))
    pure ()
  onTable other clear

/-! ## Constructors and the destructor -/

/-- `~hash_table`. SOURCE: hash_table.hpp:772 -/
def destroy (i : ℕ) : Action (World τ) Unit := do
  onTable i destroyEverything
  dropTable i

/-- The constructor from a bucket count, functors and an allocator.
SOURCE: hash_table.hpp:671-683 -/
def construct (bucketCount : ℕ) (hash : τ.Key → UInt64) (equal : τ.Key → τ.Key → Bool)
    (alloc : τ.Alloc) : Action (World τ) ℕ := do
  let i ← newTable (Table.initial (kDefaultMaxLoadFactor τ.rounding) hash equal alloc)
  (if bucketCount > 0 then
    onTable i do
      let newBucketCount ← defined (roundUpToPowerOfTwo bucketCount)
      rehashTo newBucketCount
  else pure ()).cleanup (dropTable i)
  pure i

/-- The range and initializer-list constructors: the constructor they delegate to has
completed, so an exception runs the destructor. SOURCE: hash_table.hpp:693-721 -/
def constructRange (values : List τ.Value) (bucketCount : ℕ) (hash : τ.Key → UInt64)
    (equal : τ.Key → τ.Key → Bool) (alloc : τ.Alloc) : Action (World τ) ℕ := do
  let i ← construct bucketCount hash equal alloc
  (onTable i (insertRange values)).cleanup (destroy i)
  pure i

/-- The allocator-extended copy constructor: an exception in its body ends the object
without a destructor. SOURCE: hash_table.hpp:727-735 -/
def copyConstructWith (source : ℕ) (alloc : τ.Alloc) : Action (World τ) ℕ := do
  let other ← readTable source
  let i ← newTable
    (Table.initial other.maxLoadFactor other.hashFunction other.keyEqual alloc)
  (copyContentsFrom i source).cleanup (dropTable i)
  pure i

/-- The copy constructor. SOURCE: hash_table.hpp:723-725 -/
def copyConstruct (source : ℕ) : Action (World τ) ℕ := do
  let other ← readTable source
  copyConstructWith source (τ.selectOnCopy other.allocator)

/-- The move constructor. SOURCE: hash_table.hpp:737-752 -/
def moveConstruct (source : ℕ) : Action (World τ) ℕ := do
  let other ← readTable source
  let i ← newTable other
  onTable source (modifyTable Table.afterSteal)
  pure i

/-- The allocator-extended move constructor. SOURCE: hash_table.hpp:754-770 -/
def moveConstructWith (source : ℕ) (alloc : τ.Alloc) : Action (World τ) ℕ := do
  let other ← readTable source
  let i ← newTable
    (Table.initial other.maxLoadFactor other.hashFunction other.keyEqual alloc)
  (if alloc = other.allocator then
    stealStorage i source
  else moveContentsFrom i source).cleanup (dropTable i)
  pure i

/-! ## Assignment, swap and merge -/

/-- A table that has given up its storage for another allocator. Its vectors are replaced by
new ones in a move assignment, which brings their allocator along only if a move assignment
propagates it. SOURCE: hash_table.hpp:780-786 -/
def Table.afterRelease (t : Table τ) (alloc : τ.Alloc) : Table τ :=
  { t.resetToEmptyState with
    allocator := alloc
    vectorAllocator := if τ.pocma then alloc else t.vectorAllocator }

/-- `operator=(const hash_table&)`. SOURCE: hash_table.hpp:774-801 -/
def copyAssign (this other : ℕ) : Action (World τ) Unit :=
  if this = other then pure ()
  else do
    let source ← readTable other
    let t ← readTable this
    if τ.pocca = true ∧ t.allocator ≠ source.allocator then do
      onTable this destroyEverything
      onTable this (modifyTable fun t => (t.afterRelease source.allocator).adoptPolicy source)
      copyContentsFrom this other
    else do
      onTable this (modifyTable fun t =>
        if τ.pocca then { t with allocator := source.allocator } else t)
      onTable this clear
      onTable this (modifyTable fun t => t.adoptPolicy source)
      copyContentsFrom this other

/-- `operator=(hash_table&&)`. SOURCE: hash_table.hpp:803-829 -/
def moveAssign (this other : ℕ) : Action (World τ) Unit :=
  if this = other then pure ()
  else do
    let source ← readTable other
    let t ← readTable this
    if τ.pocma = true ∨ t.allocator = source.allocator then do
      onTable this destroyEverything
      onTable this (modifyTable fun t =>
        if τ.pocma then { t.resetToEmptyState with allocator := source.allocator }
        else t.resetToEmptyState)
      stealStorage this other
    else do
      onTable this clear
      onTable this (modifyTable fun t => t.adoptPolicy source)
      moveContentsFrom this other

/-- `operator=(std::initializer_list)`. SOURCE: hash_table.hpp:831-835 -/
def assignValues (this : ℕ) (values : List τ.Value) : Action (World τ) Unit :=
  onTable this do
    clear
    insertRange values

/-- `swap`, undefined for unequal allocators that do not propagate, of the tables or of their
vectors.
SOURCE: hash_table.hpp:951-969 -/
def swap (this other : ℕ) : Action (World τ) Unit :=
  if this = other then pure ()
  else do
    let a ← readTable this
    let b ← readTable other
    if τ.pocs = true ∨ a.allocator = b.allocator ∧ a.vectorAllocator = b.vectorAllocator then do
      onTable this (modifyTable fun _ => b)
      onTable other (modifyTable fun _ => a)
    else Action.undefined

/-- The body of the loop of `merge_from`. SOURCE: hash_table.hpp:1244-1259 -/
def mergeNode (this source node : ℕ) : Action (World τ) Unit := do
  let key ← onTable source (keyAt node)
  let present ← onTable this (contains key)
  if present then
    pure ()
  else do
    let hash ← onTable source (callMixedHash key)
    let sourceBucket ← onTable source (findBucket key hash)
    let element ← onTable source (elementAt node)
    let _ ← movingNode source node (onTable this (emplaceImpl element.value))
    onTable source (eraseLocated sourceBucket)

/-- `merge_from`. SOURCE: hash_table.hpp:1234-1260 -/
def mergeFrom (this source : ℕ) : Action (World τ) Unit := do
  onTable this (mayThrow .scratch)
  let other ← readTable source
  Action.forEach other.iteration (mergeNode this source)

/-! ## Node handles -/

/-- The move constructor of `node_type`. SOURCE: hash_table.hpp:1108-1111 -/
def handleMove (source : ℕ) : Action (World τ) ℕ := do
  let other ← readHandle source
  let h ← newHandle other
  Action.modify fun w => w.setHandle source (some { other with value := none })
  pure h

/-- The move assignment of `node_type`. SOURCE: hash_table.hpp:1112-1125 -/
def handleAssign (this source : ℕ) : Action (World τ) Unit :=
  if this = source then pure ()
  else do
    let handle ← readHandle this
    let other ← readHandle source
    modifyWorldHeap fun h => h.releaseHandle handle
    Action.modify fun w => w.setHandle this
      (some ⟨other.value, if τ.pocma then other.allocator else handle.allocator⟩)
    Action.modify fun w => w.setHandle source (some { other with value := none })

/-- `node_type::swap`. SOURCE: hash_table.hpp:1146-1154 -/
def handleSwap (this source : ℕ) : Action (World τ) Unit := do
  let a ← readHandle this
  let b ← readHandle source
  Action.modify fun w => w.setHandle this
    (some ⟨b.value, if τ.pocs then b.allocator else a.allocator⟩)
  Action.modify fun w => w.setHandle source
    (some ⟨a.value, if τ.pocs then a.allocator else b.allocator⟩)

/-- The destructor of `node_type`. SOURCE: hash_table.hpp:1128 -/
def destroyHandle (h : ℕ) : Action (World τ) Unit := do
  let handle ← readHandle h
  modifyWorldHeap fun heap => heap.releaseHandle handle
  Action.modify fun w => w.setHandle h none

/-- A handle whose element has been moved from. -/
def Handle.movedFrom (handle : Handle τ) : Handle τ :=
  { handle with
    value := handle.value.map fun cell =>
      { cell with element := { cell.element with value := τ.movedFrom cell.element.value } } }

/-- A call with the element of the handle object `h` as rvalue argument; the argument
object matters afterwards only if the call throws. -/
def movingHandle (h : ℕ) (x : Action (World τ) α) : Action (World τ) α where
  run w :=
    let r := x.run { w with heap := { w.heap with moved := false } }
    if r.2.heap.moved then
      (r.1, r.2.setHandle h ((r.2.handle? h).map Handle.movedFrom))
    else r

/-- `insert(std::move(handle))`, with the returned node in a new handle object, and
`insert(hint, std::move(handle))`, which drops it.
SOURCE: hash_table.hpp:1192-1222 -/
def insertHandle (hinted : Bool) (this h : ℕ) : Action (World τ) (ℕ × Bool) := do
  let handle ← readHandle h
  let r ← movingHandle h (onTable this (insertNode handle))
  Action.modify fun w => w.setHandle h (some r.2)
  if hinted then
    modifyWorldHeap fun heap => heap.releaseHandle r.1.node
  else do
    let _ ← newHandle r.1.node
    pure ()
  pure (r.1.position, r.1.inserted)

/-! ## Steps -/

/-- A statement of a program that uses the library. -/
inductive WorldOp (τ : Traits) where
  | construct (bucketCount : ℕ) (hash : τ.Key → UInt64) (equal : τ.Key → τ.Key → Bool)
      (alloc : τ.Alloc)
  | constructRange (values : List τ.Value) (bucketCount : ℕ) (hash : τ.Key → UInt64)
      (equal : τ.Key → τ.Key → Bool) (alloc : τ.Alloc)
  | copyConstruct (source : ℕ)
  | copyConstructWith (source : ℕ) (alloc : τ.Alloc)
  | moveConstruct (source : ℕ)
  | moveConstructWith (source : ℕ) (alloc : τ.Alloc)
  | destroy (this : ℕ)
  | copyAssign (this other : ℕ)
  | moveAssign (this other : ℕ)
  | assignValues (this : ℕ) (values : List τ.Value)
  | swap (this other : ℕ)
  | merge (this source : ℕ)
  /-- A member function of one table; an extracted node becomes a handle object. -/
  | table (this : ℕ) (op : Op τ)
  | insertHandle (hinted : Bool) (this h : ℕ)
  | handleDefault
  | handleMove (source : ℕ)
  | handleAssign (this source : ℕ)
  | handleSwap (this source : ℕ)
  | handleDestroy (h : ℕ)

/-- The objects a reply brings into the program. -/
def keepReply : Reply τ → Action (World τ) Unit
  | .node handle => do
      let _ ← newHandle handle
      pure ()
  | .none => pure ()
  | .inserted _ _ => pure ()
  | .erased _ => pure ()
  | .iterator _ => pure ()

/-- A call whose result the step drops. -/
def ignoring (x : Action (World τ) α) : Action (World τ) Unit := do
  let _ ← x
  pure ()

/-- The effect of a statement. -/
def WorldOp.exec : WorldOp τ → Action (World τ) Unit
  | .construct n hash equal alloc => ignoring (Model.construct n hash equal alloc)
  | .constructRange values n hash equal alloc =>
      ignoring (Model.constructRange values n hash equal alloc)
  | .copyConstruct source => ignoring (Model.copyConstruct source)
  | .copyConstructWith source alloc => ignoring (Model.copyConstructWith source alloc)
  | .moveConstruct source => ignoring (Model.moveConstruct source)
  | .moveConstructWith source alloc => ignoring (Model.moveConstructWith source alloc)
  | .destroy this => Model.destroy this
  | .copyAssign this other => Model.copyAssign this other
  | .moveAssign this other => Model.moveAssign this other
  | .assignValues this values => Model.assignValues this values
  | .swap this other => Model.swap this other
  | .merge this source => mergeFrom this source
  | .table this op => do
      let reply ← onTable this op.exec
      keepReply reply
  | .insertHandle hinted this h => ignoring (Model.insertHandle hinted this h)
  | .handleDefault => ignoring (newHandle Handle.default)
  | .handleMove source => ignoring (Model.handleMove source)
  | .handleAssign this source => Model.handleAssign this source
  | .handleSwap this source => Model.handleSwap this source
  | .handleDestroy h => Model.destroyHandle h

/-- A statement with the place at which it throws, if any. -/
structure Step (τ : Traits) where
  op : WorldOp τ
  fault : Option (Point × ℕ)

/-- The statement run with its fault. -/
def Step.exec (step : Step τ) : Action (World τ) Unit where
  run w := step.op.exec.run { w with heap := { w.heap with fault := step.fault } }

/-- The step ends, normally or by an exception that the program catches. -/
def Step.Ends (step : Step τ) (w w' : World τ) : Prop :=
  step.exec.run w = (.ok (), w') ∨ step.exec.run w = (.thrown, w')

/-- A run of a program: the steps it takes from `w` to `w'`. -/
inductive Run : World τ → List (Step τ) → World τ → Prop where
  | nil (w : World τ) : Run w [] w
  | snoc {w w' w'' : World τ} {steps : List (Step τ)} {step : Step τ} :
      Run w steps w' → step.Ends w' w'' → Run w (steps ++ [step]) w''

end Fum.Model
