import Fum.Base.Outcome
import Fum.Base.Rounding
import Mathlib.Data.Nat.Log
import Mathlib.Logic.Function.Basic

/-!
# The state of a hash table

The template parameters, the storage and the members of `detail::hash_table`, and
the part of the program's memory that outlives a table object.

Integers of the code that can wrap in a run (`node_index_type`, the packed probe
distance) are naturals taken modulo `2 ^ 32`. `size_type` is a natural. Two functions can
take a count out of its range before any memory is asked for, the conversion of a quotient
of floats and `std::bit_ceil`, and both are undefined there. No allocator has `2 ^ 61`
buckets to give, so twice the count of an array that there is does not wrap; that an
allocation fails, for this or any other reason, is a fault of the operation.
An array of nodes or of buckets is a function of the index together with its length.
-/

set_option autoImplicit false

namespace Fum.Model

open Effects RoundedArithmetic

/-! ## Template parameters -/

/-- The `Traits` policy with what the engine asks of the types behind it: how a
value yields its key, how `try_emplace` builds one from a key and the arguments of
the mapped value, what an assignment to `second` does, what a moved-from value is,
and how the allocator propagates. SOURCE: hash_table.hpp:7-15, unordered_map.hpp:52-65 -/
structure Traits where
  Key : Type
  Mapped : Type
  Value : Type
  Alloc : Type
  keyOf : Value → Key
  mappedOf : Value → Mapped
  /-- `std::piecewise_construct` from a key and the arguments of the mapped value. -/
  makeValue : Key → Mapped → Value
  /-- `value.second = mapped`. -/
  assignMapped : Value → Mapped → Value
  /-- What a value is after it has been moved from. -/
  movedFrom : Value → Value
  /-- `is_avalanching<hasher>::value`. -/
  isAvalanching : Bool
  /-- The arithmetic of `float`. -/
  rounding : Rounding
  allocEq : DecidableEq Alloc
  /-- A value-initialised allocator. -/
  defaultAlloc : Alloc
  /-- `select_on_container_copy_construction`. -/
  selectOnCopy : Alloc → Alloc
  pocca : Bool
  pocma : Bool
  pocs : Bool
  /-- An element-wise move of a `std::vector` leaves it empty; the standard leaves this open. -/
  movedVectorEmpty : Bool
  keyOf_makeValue : ∀ key mapped, keyOf (makeValue key mapped) = key
  keyOf_assignMapped : ∀ value mapped, keyOf (assignMapped value mapped) = keyOf value
  mappedOf_makeValue : ∀ key mapped, mappedOf (makeValue key mapped) = mapped
  mappedOf_assignMapped : ∀ value mapped, mappedOf (assignMapped value mapped) = mapped

instance (τ : Traits) : DecidableEq τ.Alloc := τ.allocEq

/-! ## Constants -/

/-- `kNullIndex`, the end of the free list and of an iteration. -/
def kNullIndex : ℕ := 2 ^ 32 - 1

/-- One unit of probe distance in a packed bucket word. -/
def kDistInc : ℕ := 1 <<< 8

/-- The low eight bits of a packed bucket word. -/
def kFingerprintMask : ℕ := kDistInc - 1

/-- Nodes in an arena chunk. -/
def kChunkSize : ℕ := 1024

def kInitialBucketCount : ℕ := 8

/-- A `std::uint32_t`. -/
def wrap32 (n : ℕ) : ℕ := n % 2 ^ 32

/-! ## Storage -/

/-- A constructed element: the value and the number of its construction. -/
structure Element (τ : Traits) where
  serial : ℕ
  value : τ.Value

/-- `Node`: raw storage, `none` while no element lives in it, and the field that
is the position in the iteration vector of a live node and the next-free link of a
dead one. SOURCE: hash_table.hpp:100-113 -/
structure Node (τ : Traits) where
  storage : Option (Element τ)
  aux : ℕ

/-- An arena chunk with its identity and the allocator that allocated it. -/
structure Chunk (τ : Traits) where
  id : ℕ
  tag : τ.Alloc
  nodes : ℕ → Node τ

/-- `Bucket`. SOURCE: hash_table.hpp:89-95 -/
structure Bucket where
  distAndFingerprint : ℕ
  nodeIndex : ℕ
  deriving DecidableEq, Repr

/-- A bucket array with its identity, the allocator that allocated it and the
number of buckets it was allocated for. -/
structure BucketArray (τ : Traits) where
  id : ℕ
  tag : τ.Alloc
  size : ℕ
  cells : ℕ → Bucket

/-- A load factor the setter stores: positive, never a NaN.
SOURCE: hash_table.hpp:1049-1050 -/
inductive LoadFactor (R : Rounding) where
  | infinity
  | finite (q : ℚ) (pos : 0 < q) (represented : R.round q = q)

/-- The data members of `hash_table`. SOURCE: hash_table.hpp:283-299 -/
structure Table (τ : Traits) where
  buckets : Option (BucketArray τ)
  bucketCount : ℕ
  maxLoadCapacity : ℕ
  bucketShift : ℕ
  chunks : List (Chunk τ)
  arenaHighWater : ℕ
  freeListHead : ℕ
  iteration : List ℕ
  maxLoadFactor : LoadFactor τ.rounding
  hashFunction : τ.Key → UInt64
  keyEqual : τ.Key → τ.Key → Bool
  allocator : τ.Alloc
  /-- The allocator of the vectors `chunks_` and `iteration_`. -/
  vectorAllocator : τ.Alloc

/-- The element a node handle owns, in a cell allocated for it alone. -/
structure Cell (τ : Traits) where
  id : ℕ
  tag : τ.Alloc
  element : Element τ

/-- `node_type`. SOURCE: hash_table.hpp:1084-1158 -/
structure Handle (τ : Traits) where
  value : Option (Cell τ)
  allocator : τ.Alloc

/-- `insert_return_type`. SOURCE: hash_table.hpp:1160-1164 -/
structure InsertReturnType (τ : Traits) where
  position : ℕ
  inserted : Bool
  node : Handle τ

/-! ## Memory -/

/-- The places of an operation where an exception can start. -/
inductive Point where
  /-- The allocation of an arena chunk. -/
  | chunk
  /-- The growth of `chunks_` in `push_back`. -/
  | chunksGrowth
  /-- The growth of `iteration_` in `push_back`. -/
  | iterationGrowth
  /-- The allocation of a bucket array. -/
  | bucketArray
  /-- The allocation of the cell of a node handle. -/
  | handleCell
  /-- The allocation of a local vector of node indices. -/
  | scratch
  /-- The constructor of an element. -/
  | construct
  /-- A call of the hasher. -/
  | hash
  /-- A call of `key_equal`. -/
  | equal
  deriving DecidableEq, Repr

/-- What has been acquired and what has been given back, in order. -/
structure Account where
  opened : List ℕ
  closed : List ℕ
  deriving DecidableEq, Repr

/-- The memory behind the tables: the place at which the operation in progress
throws, if any (`some (p, n)` is the `n`-th passage of `p` from here on), and the
record of everything constructed and allocated so far. -/
structure Heap where
  fault : Option (Point × ℕ)
  nextId : ℕ
  elements : Account
  chunks : Account
  arrays : Account
  cells : Account
  /-- The insertion in progress has constructed its element, so that an rvalue
  argument has been moved from. -/
  moved : Bool
  /-- The calls of `rehash_to`: the new bucket count and the number of live nodes. -/
  rehashes : List (ℕ × ℕ)
  deriving DecidableEq, Repr

/-- A table and the memory it runs in. -/
structure Store (τ : Traits) where
  table : Table τ
  heap : Heap

/-- A member function of `hash_table`. -/
abbrev Exec (τ : Traits) (α : Type) := Action (Store τ) α

namespace Account

def empty : Account := ⟨[], []⟩

def acquire (a : Account) (id : ℕ) : Account := { a with opened := a.opened ++ [id] }

def giveBack (a : Account) (id : ℕ) : Account := { a with closed := a.closed ++ [id] }

end Account

/-- The memory of a program that has not run yet. -/
def Heap.empty : Heap where
  fault := none
  nextId := 0
  elements := .empty
  chunks := .empty
  arrays := .empty
  cells := .empty
  moved := false
  rehashes := []

variable {τ : Traits}

/-! ## The state monad of a member function -/

def getTable : Exec τ (Table τ) := do
  let s ← Action.get
  pure s.table

def modifyTable (f : Table τ → Table τ) : Exec τ Unit :=
  Action.modify fun s => { s with table := f s.table }

def modifyHeap (f : Heap → Heap) : Exec τ Unit :=
  Action.modify fun s => { s with heap := f s.heap }

/-- Pass the point `p`, which throws if the fault of the operation says so. -/
def mayThrow (p : Point) : Exec τ Unit where
  run s := match s.heap.fault with
    | none => (.ok (), s)
    | some (q, n) =>
        if q = p then
          match n with
          | 0 => (.thrown, { s with heap := { s.heap with fault := none } })
          | n + 1 => (.ok (), { s with heap := { s.heap with fault := some (q, n) } })
        else (.ok (), s)

/-- A number never given out before. -/
def freshId : Exec τ ℕ := do
  let s ← Action.get
  modifyHeap fun h => { h with nextId := h.nextId + 1 }
  pure s.heap.nextId

/-! ## Arena addressing -/

/-- Storage nothing has been written to. -/
def Node.raw : Node τ := ⟨none, 0⟩

/-- `node_at`: `chunks_[index / kChunkSize][index % kChunkSize]`.
SOURCE: hash_table.hpp:302-307 -/
def Table.nodeAt (t : Table τ) (index : ℕ) : Node τ :=
  match t.chunks[index / kChunkSize]? with
  | some chunk => chunk.nodes (index % kChunkSize)
  | none => Node.raw

/-- A write through the reference that `node_at` returns. -/
def Table.setNode (t : Table τ) (index : ℕ) (node : Node τ) : Table τ :=
  { t with
    chunks := t.chunks.modify (index / kChunkSize) fun chunk =>
      { chunk with nodes := Function.update chunk.nodes (index % kChunkSize) node } }

/-- The number of nodes in the chunks. -/
def Table.arenaSize (t : Table τ) : ℕ := t.chunks.length * kChunkSize

/-- `size`. SOURCE: hash_table.hpp:858 -/
def Table.size (t : Table τ) : ℕ := t.iteration.length

/-- `max_size`. SOURCE: hash_table.hpp:859-861 -/
def maxSize : ℕ := kNullIndex - 1

/-- `*node_at(index).value_ptr()`, undefined where no element lives. -/
def elementAt (index : ℕ) : Exec τ (Element τ) := do
  let t ← getTable
  match (t.nodeAt index).storage with
  | some element => pure element
  | none => Action.undefined

/-- `key_at`. SOURCE: hash_table.hpp:333-335 -/
def keyAt (index : ℕ) : Exec τ τ.Key := do
  let element ← elementAt index
  pure (τ.keyOf element.value)

/-- `buckets_[index]`, undefined through a null pointer and past the end. -/
def bucketAt (index : ℕ) : Exec τ Bucket := do
  let t ← getTable
  match t.buckets with
  | none => Action.undefined
  | some array => if index < array.size then pure (array.cells index) else Action.undefined

end Fum.Model
