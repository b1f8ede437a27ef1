import Fum.Model.Arena
import Mathlib.Algebra.Order.Floor.Semiring

/-!
# The Robin Hood core

Hashing, the packed bucket words and the four loops over the bucket array. A loop
of the code carries no counter; here it carries one, and running out of it means that
the loop never ends. `Table.loopFuel` is no shorter than any of the loops that end:
each of them repeats a pair of index and distance, or fills or lowers a word, before
that.
-/

set_option autoImplicit false

namespace Fum.Model

open Effects

variable {τ : Traits}

/-! ## Hashing -/

/-- `mix_bits`. SOURCE: hash_table.hpp:46-53 -/
def mixBits (value : UInt64) : UInt64 :=
  let value := value ^^^ (value >>> 33)
  let value := value * 0xff51afd7ed558ccd
  let value := value ^^^ (value >>> 33)
  let value := value * 0xc4ceb9fe1a85ec53
  value ^^^ (value >>> 33)

/-- What `mixed_hash` computes. SOURCE: hash_table.hpp:310-317 -/
def Table.mixedHash (t : Table τ) (key : τ.Key) : UInt64 :=
  let raw := t.hashFunction key
  if τ.isAvalanching then raw else mixBits raw

/-- `mixed_hash`, a call of the hasher. -/
def callMixedHash (key : τ.Key) : Exec τ UInt64 := do
  mayThrow .hash
  let t ← getTable
  pure (t.mixedHash key)

/-- `key_equal_(a, b)`. -/
def callKeyEqual (a b : τ.Key) : Exec τ Bool := do
  mayThrow .equal
  let t ← getTable
  pure (t.keyEqual a b)

/-- `dist_and_fingerprint_from_hash`. SOURCE: hash_table.hpp:318-321 -/
def distAndFingerprintFromHash (hash : UInt64) : ℕ :=
  kDistInc ||| (hash.toNat &&& kFingerprintMask)

/-- `home_from_hash`. SOURCE: hash_table.hpp:322-324 -/
def Table.homeFromHash (t : Table τ) (hash : UInt64) : ℕ := hash.toNat >>> t.bucketShift

/-- `next_bucket`. SOURCE: hash_table.hpp:328-330 -/
def nextBucket (bucketCount index : ℕ) : ℕ := (index + 1) &&& (bucketCount - 1)

/-- `dist_and_fingerprint += kDistInc` on a `std::uint32_t`. -/
def addDist (word : ℕ) : ℕ := wrap32 (word + kDistInc)

/-- More steps than any probe loop takes that ends. -/
def loopFuel (bucketCount : ℕ) : ℕ := bucketCount * 2 ^ 24

/-! ## The loops -/

/-- The loop of `probe_start`. SOURCE: hash_table.hpp:391-401 -/
def probeStartLoop (bucketCount : ℕ) (cells : ℕ → Bucket) : ℕ → ℕ → ℕ → Option (ℕ × ℕ)
  | 0, _, _ => none
  | fuel + 1, word, index =>
      if word < (cells index).distAndFingerprint then
        probeStartLoop bucketCount cells fuel (addDist word) (nextBucket bucketCount index)
      else some (word, index)

/-- The loop of `place_and_shift_up`. SOURCE: hash_table.hpp:404-417 -/
def placeLoop (bucketCount : ℕ) : ℕ → (ℕ → Bucket) → ℕ → ℕ → ℕ → Option (ℕ → Bucket)
  | 0, _, _, _, _ => none
  | fuel + 1, cells, word, index, node =>
      let resident := cells index
      if resident.distAndFingerprint ≠ 0 then
        if word > resident.distAndFingerprint then
          placeLoop bucketCount fuel (Function.update cells index ⟨word, node⟩)
            (addDist resident.distAndFingerprint) (nextBucket bucketCount index)
            resident.nodeIndex
        else
          placeLoop bucketCount fuel cells (addDist word) (nextBucket bucketCount index) node
      else some (Function.update cells index ⟨word, node⟩)

/-- The loop of `erase_bucket`, at the hole `index` whose successor is `next`.
SOURCE: hash_table.hpp:442-452 -/
def eraseLoop (bucketCount : ℕ) : ℕ → (ℕ → Bucket) → ℕ → ℕ → Option (ℕ → Bucket)
  | 0, _, _, _ => none
  | fuel + 1, cells, index, next =>
      if (cells next).distAndFingerprint ≥ 2 * kDistInc then
        eraseLoop bucketCount fuel
          (Function.update cells index
            ⟨(cells next).distAndFingerprint - kDistInc, (cells next).nodeIndex⟩)
          next (nextBucket bucketCount next)
      else some (Function.update cells index ⟨0, kNullIndex⟩)

/-! ## The functions around the loops -/

/-- The buckets behind `buckets_`, undefined through a null pointer. -/
def getCells : Exec τ (ℕ → Bucket) := do
  let t ← getTable
  match t.buckets with
  | none => Action.undefined
  | some array => pure array.cells

/-- Writes through `buckets_`. -/
def Table.setCells (t : Table τ) (cells : ℕ → Bucket) : Table τ :=
  { t with buckets := t.buckets.map fun array => { array with cells := cells } }

/-- A loop that ended, or one that never does. -/
def ended {α : Type} : Option α → Exec τ α
  | some a => pure a
  | none => Action.diverge

/-- `probe_start`: the packed word and the index where a new node belongs. -/
def probeStart (hash : UInt64) : Exec τ (ℕ × ℕ) := do
  let t ← getTable
  let cells ← getCells
  ended (probeStartLoop t.bucketCount cells (loopFuel t.bucketCount)
    (distAndFingerprintFromHash hash) (t.homeFromHash hash))

/-- `place_and_shift_up`. -/
def placeAndShiftUp (word index node : ℕ) : Exec τ Unit := do
  let t ← getTable
  let cells ← getCells
  let cells' ← ended (placeLoop t.bucketCount (loopFuel t.bucketCount) cells word index node)
  modifyTable fun t => t.setCells cells'

/-- `erase_bucket`. -/
def eraseBucket (index : ℕ) : Exec τ Unit := do
  let t ← getTable
  let cells ← getCells
  let cells' ← ended (eraseLoop t.bucketCount (loopFuel t.bucketCount) cells index
    (nextBucket t.bucketCount index))
  modifyTable fun t => t.setCells cells'

/-- The loop of `find_bucket`. SOURCE: hash_table.hpp:426-437 -/
def findBucketLoop (key : τ.Key) : ℕ → ℕ → ℕ → Exec τ ℕ
  | 0, _, _ => Action.diverge
  | fuel + 1, word, index => do
      let t ← getTable
      let bucket ← bucketAt index
      if word = bucket.distAndFingerprint then do
        let other ← keyAt bucket.nodeIndex
        let same ← callKeyEqual key other
        if same then
          pure index
        else findBucketLoop key fuel (addDist word) (nextBucket t.bucketCount index)
      else if word > bucket.distAndFingerprint then
        pure t.bucketCount
      else findBucketLoop key fuel (addDist word) (nextBucket t.bucketCount index)

/-- `find_bucket`: the bucket of the key, or `bucket_count_` if it is absent.
SOURCE: hash_table.hpp:420-438 -/
def findBucket (key : τ.Key) (hash : UInt64) : Exec τ ℕ := do
  let t ← getTable
  if t.bucketCount = 0 then
    pure t.bucketCount
  else
    findBucketLoop key (loopFuel t.bucketCount) (distAndFingerprintFromHash hash)
      (t.homeFromHash hash)

/-- `erase_located`. SOURCE: hash_table.hpp:455-461 -/
def eraseLocated (bucketIndex : ℕ) : Exec τ Unit := do
  let bucket ← bucketAt bucketIndex
  eraseBucket bucketIndex
  destroyValue bucket.nodeIndex
  unlinkFromIteration bucket.nodeIndex
  releaseNode bucket.nodeIndex

end Fum.Model
