import Fum.Analysis.Frames
import Fum.Analysis.Loops

/-!
# The index of a table

`Indexed H L t k cells`: the bucket array of the table has `2 ^ k` buckets, and its cells
are a Robin Hood layout of the nodes in `L`, each under the hash that `H` gives it. The
hash of a node is a parameter because a node that has been moved from keeps its bucket
until it is erased.
-/

set_option autoImplicit false

namespace Fum.Analysis

open Fum.Model Effects RobinHood

variable {τ : Traits} {U : Stuck → Prop} {s : Store τ} {t : Table τ} {H : ℕ → UInt64}
  {L : List ℕ} {k : ℕ} {cells : ℕ → Bucket}

/-! ## Homes -/

/-- The home bucket of a node. -/
def homeOf (k : ℕ) (H : ℕ → UInt64) (x : ℕ) : ℕ := (H x).toNat >>> (64 - countrZero (2 ^ k))

/-- The fingerprint of a node. -/
def fpOf (H : ℕ → UInt64) (x : ℕ) : ℕ := fingerprint (H x)

theorem fpOf_lt (H : ℕ → UInt64) (x : ℕ) : fpOf H x < kDistInc := fingerprint_lt _

theorem countrZero_two_pow (k : ℕ) : countrZero (2 ^ k) = min k 63 := by
  unfold countrZero
  rw [Nat.findGreatest_eq_iff]
  refine ⟨min_le_right _ _, fun _ => pow_dvd_pow 2 (min_le_left _ _), fun n hn hle hdvd => ?_⟩
  have hnk : n ≤ k := (Nat.pow_dvd_pow_iff_le_right (by decide)).mp hdvd
  omega

/-- The shift leaves an index into the array. -/
theorem shiftRight_lt (k : ℕ) (h : UInt64) : h.toNat >>> (64 - countrZero (2 ^ k)) < 2 ^ k := by
  rw [countrZero_two_pow, Nat.shiftRight_eq_div_pow]
  have hlt : h.toNat < 2 ^ 64 := h.toNat_lt
  have hsplit : (2 : ℕ) ^ 64 = 2 ^ (64 - min k 63) * 2 ^ min k 63 := by
    rw [← pow_add]
    congr 1
    omega
  have hdiv : h.toNat / 2 ^ (64 - min k 63) < 2 ^ min k 63 :=
    Nat.div_lt_of_lt_mul (by rw [← hsplit]; exact hlt)
  exact Nat.lt_of_lt_of_le hdiv (Nat.pow_le_pow_right (by decide) (min_le_left _ _))

theorem homeOf_lt (k : ℕ) (H : ℕ → UInt64) (x : ℕ) : homeOf k H x < 2 ^ k := shiftRight_lt k _

/-! ## The invariant -/

/-- The bucket array is a layout of the nodes in `L`. -/
structure Indexed (H : ℕ → UInt64) (L : List ℕ) (t : Table τ) (k : ℕ) (cells : ℕ → Bucket) :
    Prop where
  three_le : 3 ≤ k
  bucketCount : t.bucketCount = 2 ^ k
  bucketShift : t.bucketShift = 64 - countrZero (2 ^ k)
  buckets : ∃ array, t.buckets = some array ∧ array.size = 2 ^ k ∧ array.cells = cells
  layout : BucketLayout k (homeOf k H) (fpOf H) cells
  holds : ∀ x, InBucket k cells x ↔ x ∈ L

namespace Indexed

theorem bucketCount_ne_zero (I : Indexed H L t k cells) : t.bucketCount ≠ 0 := by
  rw [I.bucketCount]
  exact (Nat.two_pow_pos k).ne'

theorem homeFromHash (I : Indexed H L t k cells) (hash : UInt64) :
    t.homeFromHash hash = hash.toNat >>> (64 - countrZero (2 ^ k)) := by
  unfold Table.homeFromHash
  rw [I.bucketShift]

/-- Only the hashes of the nodes in the buckets matter. -/
theorem congr {H' : ℕ → UInt64} (I : Indexed H L t k cells) (h : ∀ x ∈ L, H' x = H x) :
    Indexed H' L t k cells where
  three_le := I.three_le
  bucketCount := I.bucketCount
  bucketShift := I.bucketShift
  buckets := I.buckets
  holds := I.holds
  layout := by
    refine ⟨I.layout.linked, fun p hp hocc => ?_, I.layout.inj⟩
    obtain ⟨d, hd, hword, hpos⟩ := I.layout.seated p hp hocc
    have hmem : nodes cells p ∈ L := (I.holds _).mp ⟨p, hp, hocc, rfl⟩
    refine ⟨d, hd, ?_, ?_⟩
    · unfold fpOf
      rw [h _ hmem]
      exact hword
    · unfold homeOf
      rw [h _ hmem]
      exact hpos

/-- The order of the nodes does not matter. -/
theorem perm {L' : List ℕ} (I : Indexed H L t k cells) (h : ∀ x, x ∈ L' ↔ x ∈ L) :
    Indexed H L' t k cells :=
  ⟨I.three_le, I.bucketCount, I.bucketShift, I.buckets, I.layout, fun x =>
    (I.holds x).trans (h x).symm⟩

/-- The index is the same in a table with the same index. -/
theorem sameIndex {t' : Table τ} (I : Indexed H L t k cells) (h : SameIndex t t') :
    Indexed H L t' k cells where
  three_le := I.three_le
  bucketCount := h.bucketCount.trans I.bucketCount
  bucketShift := h.bucketShift.trans I.bucketShift
  buckets := by
    rw [h.buckets]
    exact I.buckets
  layout := I.layout
  holds := I.holds

/-- The index with new contents. -/
theorem setCells {L' : List ℕ} {cells' : ℕ → Bucket} (I : Indexed H L t k cells)
    (hlayout : BucketLayout k (homeOf k H) (fpOf H) cells')
    (hholds : ∀ x, InBucket k cells' x ↔ x ∈ L') : Indexed H L' (t.setCells cells') k cells' where
  three_le := I.three_le
  bucketCount := I.bucketCount
  bucketShift := I.bucketShift
  buckets := by
    obtain ⟨array, harray, hsize, -⟩ := I.buckets
    refine ⟨{ array with cells := cells' }, ?_, hsize, rfl⟩
    show t.buckets.map _ = _
    rw [harray]
    rfl
  layout := hlayout
  holds := hholds

/-- As many buckets are occupied as there are nodes. -/
theorem card (I : Indexed H L t k cells) (hL : L.Nodup) :
    (occupied (2 ^ k) (words cells)).card = L.length := by
  rw [I.layout.card_occupied (X := L.toFinset) fun x => by
    rw [List.mem_toFinset, ← I.holds]]
  exact List.toFinset_card_of_nodup hL

theorem exists_empty (I : Indexed H L t k cells) (hL : L.Nodup) (hlt : L.length < 2 ^ k) :
    ∃ e < 2 ^ k, words cells e = 0 :=
  RobinHood.exists_empty (by rwa [I.card hL])

theorem roomy (I : Indexed H L t k cells) (hL : L.Nodup) (hroom : L.length + 2 ≤ 2 ^ 24) :
    Roomy k cells := by
  unfold Roomy
  rwa [I.card hL]

end Indexed

/-- Every loop that starts some buckets before an empty one has fuel enough. -/
theorem lt_loopFuel {j k : ℕ} (hj : j < 2 ^ k) : j < loopFuel (2 ^ k) := by
  unfold loopFuel
  have hone : 2 ^ k * 1 ≤ 2 ^ k * 2 ^ 24 := Nat.mul_le_mul_left _ (by decide)
  omega

/-! ## Placing a node -/

/-- A node that is not in the index and has a seat gets a bucket. -/
theorem post_placeAndShiftUp {β : Type} {p c x : ℕ} {f : Unit → Exec τ β}
    {Q : β → Store τ → Prop} {E : Store τ → Prop}
    (I : Indexed H L s.table k cells) (hL : L.Nodup) (hlt : L.length < 2 ^ k)
    (hroom : L.length + 2 ≤ 2 ^ 24) (hp : p < 2 ^ k)
    (hseat : Seat (2 ^ k) kDistInc (homeOf k H) (fpOf H) p c x)
    (hfit : Fits (2 ^ k) kDistInc (words cells) p c) (hx : x ∉ L)
    (hf : ∀ cells', Indexed H (L ++ [x]) (s.table.setCells cells') k cells' →
      Action.Post U (f ()) ⟨s.table.setCells cells', s.heap⟩ Q E) :
    Action.Post U (placeAndShiftUp c p x >>= f) s Q E := by
  obtain ⟨e, he, hempty⟩ := I.exists_empty hL hlt
  obtain ⟨j, hj, hje⟩ := exists_steps p he
  obtain ⟨cells', hrun, hlay, hmem⟩ := placeLoop_spec I.three_le (fpOf_lt H) he j
    (loopFuel (2 ^ k)) cells p c x I.layout hempty (I.roomy hL hroom) hp hje (lt_loopFuel hj)
    hseat hfit (fun h => hx ((I.holds x).mp h))
  have hI : Indexed H (L ++ [x]) (s.table.setCells cells') k cells' := I.setCells hlay fun y => by
    rw [hmem, I.holds, List.mem_append, List.mem_singleton]
  obtain ⟨array, harray, -, hcells⟩ := I.buckets
  unfold placeAndShiftUp
  rw [Action.bind_assoc, post_getTable]
  rw [Action.bind_assoc]
  refine post_getCells (fun array' harray' => ?_) fun hnone => ?_
  · rw [harray] at harray'
    cases harray'
    rw [hcells, I.bucketCount, hrun]
    exact hf cells' hI
  · rw [harray] at hnone
    cases hnone

/-- The seat of a node in its home bucket. -/
theorem home_seat (k : ℕ) (H : ℕ → UInt64) (x : ℕ) :
    Seat (2 ^ k) kDistInc (homeOf k H) (fpOf H) (homeOf k H x)
      (distAndFingerprintFromHash (H x)) x := by
  rw [distAndFingerprintFromHash_eq]
  exact Seat.home_seat (Nat.two_pow_pos k) x (homeOf_lt k H x)

theorem home_fits (cells : ℕ → Bucket) (p : ℕ) (hash : UInt64) :
    Fits (2 ^ k) kDistInc (words cells) p (distAndFingerprintFromHash hash) := by
  intro h
  have hlt := fingerprint_lt hash
  rw [distAndFingerprintFromHash_eq] at h
  omega

/-- `insert_known_absent` gives the node a bucket. -/
theorem post_insertKnownAbsent {β : Type} {x : ℕ} {f : Unit → Exec τ β}
    {Q : β → Store τ → Prop} {E : Store τ → Prop}
    (I : Indexed H L s.table k cells) (hL : L.Nodup) (hlt : L.length < 2 ^ k)
    (hroom : L.length + 2 ≤ 2 ^ 24) (hx : x ∉ L)
    (hf : ∀ cells', Indexed H (L ++ [x]) (s.table.setCells cells') k cells' →
      Action.Post U (f ()) ⟨s.table.setCells cells', s.heap⟩ Q E) :
    Action.Post U (insertKnownAbsent x (H x) >>= f) s Q E := by
  obtain ⟨e, he, hempty⟩ := I.exists_empty hL hlt
  obtain ⟨j, hj, hje⟩ := exists_steps (homeOf k H x) he
  obtain ⟨c, p, hrun, hp, hseat, hfit, -⟩ := probeStartLoop_spec I.layout (fpOf_lt H) he hempty
    (I.roomy hL hroom) j (loopFuel (2 ^ k)) (homeOf k H x) (distAndFingerprintFromHash (H x))
    (homeOf_lt k H x) hje (lt_loopFuel hj) (home_seat k H x) (home_fits cells _ _)
  obtain ⟨array, harray, -, hcells⟩ := I.buckets
  unfold insertKnownAbsent probeStart
  simp only [Action.bind_assoc]
  rw [post_getTable]
  refine post_getCells (fun array' harray' => ?_) fun hnone => ?_
  · rw [harray] at harray'
    cases harray'
    rw [hcells, I.bucketCount, I.homeFromHash]
    unfold homeOf at hrun
    rw [hrun]
    exact post_placeAndShiftUp I hL hlt hroom hp hseat hfit hx hf
  · rw [harray] at hnone
    cases hnone

/-! ## Erasing a bucket -/

/-- The node in an occupied bucket. -/
def BucketOf (t : Table τ) (b x : ℕ) : Prop :=
  ∃ array, t.buckets = some array ∧ b < array.size ∧ (array.cells b).distAndFingerprint ≠ 0 ∧
    (array.cells b).nodeIndex = x

/-- `erase_bucket` of an occupied bucket removes its node from the index. -/
theorem post_eraseBucket {β : Type} {b x : ℕ} {f : Unit → Exec τ β}
    {Q : β → Store τ → Prop} {E : Store τ → Prop}
    (I : Indexed H L s.table k cells) (hL : L.Nodup) (hlt : L.length < 2 ^ k)
    (hb : BucketOf s.table b x)
    (hf : ∀ cells', Indexed H (L.erase x) (s.table.setCells cells') k cells' →
      Action.Post U (f ()) ⟨s.table.setCells cells', s.heap⟩ Q E) :
    Action.Post U (eraseBucket b >>= f) s Q E := by
  obtain ⟨array, harray, hbsize, hocc, hnode⟩ := hb
  obtain ⟨array', harray', hsize, hcells⟩ := I.buckets
  rw [harray] at harray'
  cases harray'
  rw [hcells] at hocc hnode
  rw [hsize] at hbsize
  have h8 := two_le_two_pow I.three_le
  obtain ⟨e, he, hempty⟩ := I.exists_empty hL hlt
  have hbe : b ≠ e := by
    rintro rfl
    exact hocc hempty
  obtain ⟨j, hj, hje⟩ := exists_steps_succ hbsize he hbe
  obtain ⟨cells', hrun, hlay, hmem⟩ := eraseLoop_spec I.three_le (fpOf_lt H) j
    (loopFuel (2 ^ k)) cells b (I.layout.gap hbsize) hempty hbsize hbe hje
    (lt_loopFuel (Nat.lt_of_succ_lt hj))
  have hI : Indexed H (L.erase x) (s.table.setCells cells') k cells' := I.setCells hlay fun y => by
    rw [hmem, I.layout.gap_holds hbsize hocc]
    show InBucket k cells y ∧ y ≠ nodes cells b ↔ _
    rw [I.holds, hL.mem_erase_iff, and_comm]
    show y ≠ (cells b).nodeIndex ∧ _ ↔ _
    rw [hnode]
  unfold eraseBucket
  rw [Action.bind_assoc, post_getTable, Action.bind_assoc]
  refine post_getCells (fun array' harray' => ?_) fun hnone => ?_
  · rw [harray] at harray'
    cases harray'
    rw [hcells, I.bucketCount, nextBucket_eq, hrun]
    exact hf cells' hI
  · rw [harray] at hnone
    cases hnone

end Fum.Analysis
