import Fum.Model.Probe

/-!
# The bucket array and its size

Allocation of the bucket array, the load factor and the rebuild of the index.
SOURCE: hash_table.hpp:463-527, 1049-1073
-/

set_option autoImplicit false

namespace Fum.Model

open Effects RoundedArithmetic

variable {τ : Traits}

/-! ## The load factor -/

/-- `kDefaultMaxLoadFactor`, the value of the literal `0.8f`. -/
def kDefaultMaxLoadFactor (R : Rounding) : LoadFactor R :=
  .finite (R.round (4 / 5)) (R.round_pos (by norm_num)) (R.idem _)

/-- What the setter stores: `new_factor > 0.0f ? new_factor : kDefaultMaxLoadFactor`.
SOURCE: hash_table.hpp:1049-1050 -/
def LoadFactor.ofFloat {R : Rounding} : FloatValue R → LoadFactor R
  | .infinity => .infinity
  | .finite q represented =>
      if pos : 0 < q then .finite q pos represented else kDefaultMaxLoadFactor R
  | .nan => kDefaultMaxLoadFactor R
  | .negInfinity => kDefaultMaxLoadFactor R

/-- `compute_load_capacity`. SOURCE: hash_table.hpp:483-491 -/
def computeLoadCapacity {R : Rounding} (factor : LoadFactor R) (count : ℕ) : ℕ :=
  match factor with
  | .infinity => count - 1
  | .finite q _ _ =>
      if q ≥ 1 then count - 1
      else
        let capacity := ⌊R.round (R.round count * q)⌋₊
        if capacity < count then capacity else count - 1

/-- `std::bit_ceil` of a `std::size_t`: the least power of two that is not less, undefined
where `std::size_t` does not have it. -/
def bitCeil (value : ℕ) : Option ℕ :=
  if value ≤ 2 ^ 63 then some (2 ^ Nat.clog 2 value) else none

/-- `std::countr_zero` of a `std::size_t`: the number of trailing zero bits. -/
def countrZero (value : ℕ) : ℕ := Nat.findGreatest (fun k => 2 ^ k ∣ value) 63

/-- `round_up_to_power_of_two`. SOURCE: hash_table.hpp:505-509 -/
def roundUpToPowerOfTwo (value : ℕ) : Option ℕ :=
  if value < kInitialBucketCount then some kInitialBucketCount else bitCeil value

/-- `static_cast<size_type>` of a `float` that is not negative: its integral part, undefined
where `std::size_t` does not have it. -/
def toSizeType (value : ℚ) : Option ℕ := if value < 2 ^ 64 then some ⌊value⌋₊ else none

/-- `bucket_count_for_elements`. A `float` below `2 ^ 64` is so far below it that adding one
does not wrap. SOURCE: hash_table.hpp:520-527 -/
def bucketCountForElements {R : Rounding} (factor : LoadFactor R) (elementCount : ℕ) :
    Option ℕ :=
  if elementCount = 0 then some 0
  else
    let needed : ℚ := match factor with
      | .infinity => 0
      | .finite q _ _ => R.round (R.round elementCount / q)
    (toSizeType needed).bind fun count => roundUpToPowerOfTwo (count + 1)

/-- A result that the source may leave undefined. -/
def defined {α : Type} : Option α → Exec τ α
  | some a => pure a
  | none => Action.undefined

/-! ## The bucket array -/

/-- `deallocate_buckets`. SOURCE: hash_table.hpp:464-470 -/
def deallocateBuckets : Exec τ Unit := do
  let t ← getTable
  match t.buckets with
  | none => pure ()
  | some array => do
      modifyHeap fun h => { h with arrays := h.arrays.giveBack array.id }
      modifyTable fun t => { t with buckets := none }

/-- A bucket array after `memset`. -/
def emptyCells : ℕ → Bucket := fun _ => ⟨0, 0⟩

/-- What `allocate_buckets` does to the table once it has the memory. -/
def Table.withBuckets (t : Table τ) (array : BucketArray τ) (newBucketCount : ℕ) : Table τ :=
  { t with
    buckets := some array
    bucketCount := newBucketCount
    bucketShift := 64 - countrZero newBucketCount
    maxLoadCapacity := computeLoadCapacity t.maxLoadFactor newBucketCount }

/-- `allocate_buckets`. SOURCE: hash_table.hpp:472-481 -/
def allocateBuckets (newBucketCount : ℕ) : Exec τ Unit := do
  mayThrow .bucketArray
  let id ← freshId
  modifyHeap fun h => { h with arrays := h.arrays.acquire id }
  modifyTable fun t =>
    t.withBuckets ⟨id, t.allocator, newBucketCount, emptyCells⟩ newBucketCount

/-- The body of the loop of `rehash_to`: hash the key of a live node and place it from
its home bucket. -/
def replaceNode (node : ℕ) : Exec τ Unit := do
  let key ← keyAt node
  let hash ← callMixedHash key
  let t ← getTable
  placeAndShiftUp (distAndFingerprintFromHash hash) (t.homeFromHash hash) node

/-- `rehash_to`, recorded in the memory. SOURCE: hash_table.hpp:495-503 -/
def rehashTo (newBucketCount : ℕ) : Exec τ Unit := do
  let t ← getTable
  modifyHeap fun h => { h with rehashes := h.rehashes ++ [(newBucketCount, t.size)] }
  deallocateBuckets
  allocateBuckets newBucketCount
  Action.forEach t.iteration replaceNode

/-- `reserve_for_one_more`. SOURCE: hash_table.hpp:512-518 -/
def reserveForOneMore : Exec τ Unit := do
  let t ← getTable
  if t.bucketCount = 0 then
    rehashTo kInitialBucketCount
  else if t.size + 1 > t.maxLoadCapacity then
    rehashTo (t.bucketCount * 2)
  else pure ()

/-! ## Hash policy -/

/-- `max_load_factor(new_factor)`. SOURCE: hash_table.hpp:1049-1054 -/
def setMaxLoadFactor (newFactor : FloatValue τ.rounding) : Exec τ Unit := do
  modifyTable fun t => { t with maxLoadFactor := LoadFactor.ofFloat newFactor }
  modifyTable fun t =>
    if t.bucketCount ≠ 0 then
      { t with maxLoadCapacity := computeLoadCapacity t.maxLoadFactor t.bucketCount }
    else t

/-- The bucket count that `rehash` asks for, before it is rounded up.
SOURCE: hash_table.hpp:1056-1059 -/
def Table.rehashTarget (t : Table τ) (requested : ℕ) : Option ℕ :=
  (bucketCountForElements t.maxLoadFactor t.size).map fun minimumForSize =>
    if requested < minimumForSize then minimumForSize else requested

/-- What `rehash` does to an empty table of which no buckets are asked. -/
def Table.dropBuckets (t : Table τ) : Table τ :=
  { t with bucketCount := 0, maxLoadCapacity := 0, bucketShift := 64 }

/-- `rehash`. SOURCE: hash_table.hpp:1055-1070 -/
def rehash (requested : ℕ) : Exec τ Unit := do
  let t ← getTable
  let target ← defined (t.rehashTarget requested)
  if target = 0 then
    if t.bucketCount ≠ 0 ∧ t.iteration = [] then do
      deallocateBuckets
      modifyTable Table.dropBuckets
    else pure ()
  else do
    let newBucketCount ← defined (roundUpToPowerOfTwo target)
    rehashTo newBucketCount

/-- `reserve`. SOURCE: hash_table.hpp:1071-1073 -/
def reserve (elementCount : ℕ) : Exec τ Unit := do
  let t ← getTable
  let requested ← defined (bucketCountForElements t.maxLoadFactor elementCount)
  rehash requested

end Fum.Model
