import Fum.Analysis.Lookup
import Fum.Analysis.Accounting

/-!
# Consistent tables

A table is consistent if its slots are in order, the listed ones hold the elements, and
the bucket array indexes them by their own hashes. This module has the definition, what an
exception may leave behind, and the rebuild of the index.
-/

set_option autoImplicit false

namespace Fum.Analysis

open Fum.Model Effects RobinHood

variable {τ : Traits} {U : Stuck → Prop} {s s' : Store τ} {t t' t'' : Table τ}
  {H : ℕ → UInt64} {L : List ℕ} {k : ℕ} {cells : ℕ → Bucket}

/-! ## Definitions -/

/-- The mixed hash of the key that a node holds. -/
def ownHash (t : Table τ) (x : ℕ) : UInt64 :=
  match (t.nodeAt x).storage with
  | some e => t.mixedHash (τ.keyOf e.value)
  | none => 0

theorem ownHash_of_storage {x : ℕ} {e : Element τ} (h : (t.nodeAt x).storage = some e) :
    ownHash t x = t.mixedHash (τ.keyOf e.value) := by
  unfold ownHash
  rw [h]

/-- The hash of a node depends on its element and on the hasher. -/
theorem ownHash_congr {x : ℕ} (hs : (t'.nodeAt x).storage = (t.nodeAt x).storage)
    (hp : SamePolicy t t') : ownHash t' x = ownHash t x := by
  unfold ownHash
  rw [hs]
  cases (t.nodeAt x).storage with
  | none => rfl
  | some e => exact hp.mixedHash _

/-- The slots, the elements and the index of a table agree. -/
structure Consistent (t : Table τ) : Prop where
  slots : Slots t []
  filled : Filled t t.iteration
  index : IndexInOrder (ownHash t) t.iteration t

/-- The packed words have room for one more element than the table holds. -/
def Room (t : Table τ) : Prop := t.size + 2 ≤ 2 ^ 24

theorem Room.le_maxSize (h : Room t) : t.size ≤ maxSize := by
  unfold Room at h
  have : maxSize = 2 ^ 32 - 2 := rfl
  omega

theorem Consistent.live (h : Consistent t) {x : ℕ} (hx : x ∈ t.iteration) :
    (t.nodeAt x).storage.isSome := (h.filled x).mpr hx

theorem Consistent.storage_ne_none (h : Consistent t) {x : ℕ} (hx : x ∈ t.iteration) :
    (t.nodeAt x).storage ≠ none := Option.isSome_iff_ne_none.mp (h.live hx)

/-- The table holds the same elements in the same slots and the same order. -/
structure SameElements (t t' : Table τ) : Prop where
  iteration : t'.iteration = t.iteration
  storage : ∀ x, (t'.nodeAt x).storage = (t.nodeAt x).storage
  policy : SamePolicy t t'
  chunks : chunkIds t <+: chunkIds t'

theorem SameElements.refl (t : Table τ) : SameElements t t :=
  ⟨rfl, fun _ => rfl, SamePolicy.refl t, List.prefix_rfl⟩

theorem SameElements.ownHash (h : SameElements t t') (x : ℕ) : ownHash t' x = ownHash t x :=
  ownHash_congr (h.storage x) h.policy

theorem SameElements.filled (h : SameElements t t') (hf : Filled t t.iteration) :
    Filled t' t'.iteration := by
  intro x
  rw [h.storage, h.iteration]
  exact hf x

theorem SameArena.sameElements (h : SameArena t t') (hp : SamePolicy t t') :
    SameElements t t' :=
  ⟨h.iteration, fun x => by rw [h.nodeAt], hp, by rw [h.chunkIds]⟩

/-- An element without a bucket. -/
def Unplaced (t : Table τ) : Prop := ∃ x ∈ t.iteration, ∀ b, ¬ BucketOf t b x

/-- An element that the iteration vector does not list. -/
def Unlisted (t : Table τ) : Prop := ∃ x, (t.nodeAt x).storage.isSome ∧ x ∉ t.iteration

/-- The elements are what they were, but the bucket array is gone and `bucket_count_` is
not told. -/
structure LostBuckets (t t' : Table τ) : Prop where
  same : SameElements t t'
  slots : Slots t' []
  buckets : t'.buckets = none
  bucketCount : t'.bucketCount = t.bucketCount

/-! ## The index and its table -/

theorem IndexInOrder.congr {H' : ℕ → UInt64} (h : IndexInOrder H L t)
    (heq : ∀ x ∈ L, H' x = H x) : IndexInOrder H' L t := by
  rcases h with h | ⟨k, cells, I, hlt, hcap⟩
  · exact Or.inl h
  · exact Or.inr ⟨k, cells, I.congr heq, hlt, hcap⟩

theorem IndexInOrder.sameIndex (h : IndexInOrder H L t) (hi : SameIndex t t') :
    IndexInOrder H L t' := by
  rcases h with ⟨hb, hc, hL⟩ | ⟨k, cells, I, hlt, hcap⟩
  · exact Or.inl ⟨hi.buckets.trans hb, hi.bucketCount.trans hc, hL⟩
  · exact Or.inr ⟨k, cells, I.sameIndex hi, hlt, by rwa [hi.maxLoadCapacity]⟩

/-- In a consistent table every element has a bucket. -/
theorem IndexInOrder.placed (h : IndexInOrder H L t) {x : ℕ} (hx : x ∈ L) :
    ∃ b, BucketOf t b x := by
  rcases h with ⟨-, -, rfl⟩ | ⟨k, cells, I, -, -⟩
  · cases hx
  · obtain ⟨b, hb, hocc, hnode⟩ := (I.holds x).mpr hx
    obtain ⟨array, harray, hsize, hcells⟩ := I.buckets
    refine ⟨b, array, harray, by rwa [hsize], ?_, ?_⟩
    · rw [hcells]
      exact hocc
    · rw [hcells]
      exact hnode

/-- A bucket of the index holds one of its nodes. -/
theorem Indexed.mem_of_bucketOf (I : Indexed H L t k cells) {b x : ℕ} (hb : BucketOf t b x) :
    x ∈ L := by
  obtain ⟨array, harray, hlt, hocc, hnode⟩ := hb
  obtain ⟨array', harray', hsize, hcells⟩ := I.buckets
  rw [harray] at harray'
  cases harray'
  rw [hcells] at hocc hnode
  exact (I.holds x).mp ⟨b, by rwa [← hsize], hocc, hnode⟩

/-- The elements of a table with the same elements stay consistent with an index of them. -/
theorem Consistent.of_sameElements (h : Consistent t) (hs : SameElements t t')
    (hslots : Slots t' []) (hi : IndexInOrder (ownHash t) t.iteration t') : Consistent t' where
  slots := hslots
  filled := hs.filled h.filled
  index := by
    rw [hs.iteration]
    exact hi.congr fun x _ => hs.ownHash x

/-- Without buckets before, losing them changes nothing. -/
theorem LostBuckets.consistent (h : LostBuckets t t') (hc : Consistent t)
    (hzero : t.bucketCount = 0) : Consistent t' := by
  exact hc.of_sameElements h.same h.slots
    (Or.inl ⟨h.buckets, h.bucketCount.trans hzero, hc.index.eq_nil hzero⟩)

theorem consistent_of_restored {s s' : Store τ} (h : Restored s s') (hc : Consistent s.table) :
    Consistent s'.table ∧ SameElements s.table s'.table := by
  have hsame : SameElements s.table s'.table := ⟨h.iteration, h.storage, h.policy, h.chunks⟩
  exact ⟨hc.of_sameElements hsame h.slots (hc.index.sameIndex h.index), hsame⟩

/-- The growth threshold is below the bucket count. -/
theorem computeLoadCapacity_lt {R : RoundedArithmetic.Rounding} (factor : LoadFactor R) {n : ℕ}
    (hn : 0 < n) : computeLoadCapacity factor n < n := by
  unfold computeLoadCapacity
  cases factor with
  | infinity => exact Nat.sub_lt hn Nat.one_pos
  | finite q pos represented =>
      simp only
      split
      · exact Nat.sub_lt hn Nat.one_pos
      · split
        · assumption
        · exact Nat.sub_lt hn Nat.one_pos

/-! ## The rebuild of the index -/

/-- An array of empty buckets is the layout of no nodes. -/
theorem emptyCells_layout (k : ℕ) (H : ℕ → UInt64) :
    BucketLayout k (homeOf k H) (fpOf H) emptyCells ∧ ∀ x, ¬ InBucket k emptyCells x := by
  refine ⟨⟨fun p _ hle => ?_, fun p _ hocc => absurd rfl hocc, fun p _ q _ hocc => absurd rfl hocc⟩,
    ?_⟩
  · have h0 : words emptyCells p = 0 := rfl
    rw [h0] at hle ⊢
    exact Nat.zero_le _
  · rintro x ⟨p, -, hocc, -⟩
    exact hocc rfl

theorem withBuckets_indexed (t : Table τ) (H : ℕ → UInt64) {k : ℕ} (hk : 3 ≤ k) (id : ℕ)
    (tag : τ.Alloc) :
    Indexed H [] (t.withBuckets ⟨id, tag, 2 ^ k, emptyCells⟩ (2 ^ k)) k emptyCells where
  three_le := hk
  bucketCount := rfl
  bucketShift := rfl
  buckets := ⟨_, rfl, rfl, rfl⟩
  layout := (emptyCells_layout k H).1
  holds x := by simpa using (emptyCells_layout k H).2 x

/-- One round of the loop of `rehash_to`. -/
theorem replaceNode_spec {x : ℕ} {e : Element τ} (I : Indexed H L s.table k cells)
    (hL : L.Nodup) (hlt : L.length < 2 ^ k) (hroom : L.length + 2 ≤ 2 ^ 24) (hx : x ∉ L)
    (he : (s.table.nodeAt x).storage = some e)
    (hH : H x = s.table.mixedHash (τ.keyOf e.value)) :
    Action.Post U (replaceNode x) s
      (fun _ s' => Reindexes [.hash] s s' ∧ ∃ cells', Indexed H (L ++ [x]) s'.table k cells')
      (Throws [.hash] s) := by
  unfold replaceNode
  refine post_keyAt (fun e' he' => ?_) fun hnone => ?_
  swap
  · rw [hnone] at he
    cases he
  rw [he] at he'
  cases he'
  refine post_callMixedHash (fun f hf => ?_) fun hpoint _ => Throws.here hpoint
  rw [post_getTable, I.homeFromHash, ← hH]
  refine Action.Post.of_bind_pure (post_placeAndShiftUp I hL hlt hroom (homeOf_lt k H x)
    (home_seat k H x) (home_fits cells _ _) hx fun cells' I' => ?_)
  exact ⟨(hf.passes_self.reindexes).trans (Reindexes.setCells _ cells'), cells', I'⟩

/-- What `rehash_to` leaves once it has placed the nodes in `done`: the same arena, with these
nodes in `2 ^ k` buckets. -/
structure Rehashed (s : Store τ) (k : ℕ) (done : List ℕ) (s' : Store τ) : Prop where
  arena : SameArena s.table s'.table
  policy : SamePolicy s.table s'.table
  indexed : ∃ cells, Indexed (ownHash s.table) done s'.table k cells
  capacity : s'.table.maxLoadCapacity = computeLoadCapacity s.table.maxLoadFactor (2 ^ k)
  fault : Through [.bucketArray, .hash] s.heap.fault s'.heap.fault

/-- How `rehash_to` throws: it has already given up the old array when the allocation of the
new one fails, and a hasher that throws leaves elements without a bucket. -/
structure RehashThrown (s s' : Store τ) : Prop where
  arena : SameArena s.table s'.table
  policy : SamePolicy s.table s'.table
  index : (faultPoint s.heap.fault = some .bucketArray ∧ s'.table.buckets = none ∧
      s'.table.bucketCount = s.table.bucketCount) ∨
    (faultPoint s.heap.fault = some .hash ∧ Unplaced s'.table)

theorem deallocateBuckets_spec :
    Action.Post U deallocateBuckets s
      (fun _ s' => s'.table = { s.table with buckets := none } ∧ s'.heap.fault = s.heap.fault)
      (fun _ => False) := by
  unfold deallocateBuckets
  rw [post_getTable]
  cases hb : s.table.buckets with
  | none =>
      have heq : s.table = { s.table with buckets := none } := by rw [← hb]
      exact ⟨heq, rfl⟩
  | some array => exact ⟨rfl, rfl⟩

/-- `rehash_to` up to its loop: the old array goes first, and its size stays if the new one
cannot be allocated. -/
theorem post_rehashTo {k : ℕ} (hk : 3 ≤ k) {Q : Unit → Store τ → Prop} {E : Store τ → Prop}
    (hthrow : ∀ s', RehashThrown s s' → E s')
    (hloop : ∀ s', Rehashed s k [] s' →
      Action.Post U (Action.forEach s.table.iteration replaceNode) s' Q E) :
    Action.Post U (rehashTo (2 ^ k)) s Q E := by
  unfold rehashTo
  rw [post_getTable, post_modifyHeap]
  refine Action.Post.bind deallocateBuckets_spec (fun _ h => h.elim) ?_
  rintro ⟨⟩ s1 ⟨htable1, hfault1⟩
  have harena1 : SameArena s.table s1.table := by
    rw [htable1]
    exact ⟨rfl, rfl, rfl, rfl⟩
  have hpolicy1 : SamePolicy s.table s1.table := by
    rw [htable1]
    exact ⟨rfl, rfl, rfl, rfl⟩
  refine Action.Post.bind (Q := fun _ => Rehashed s k []) (E := RehashThrown s) ?_ hthrow
    fun _ s2 h2 => hloop s2 h2
  unfold allocateBuckets
  refine post_mayThrow_bind (fun f hf => ?_) fun hpoint _ => ?_
  · rw [post_freshId, post_modifyHeap, post_modifyTable_last]
    refine ⟨harena1.trans ⟨rfl, rfl, rfl, rfl⟩, hpolicy1.trans ⟨rfl, rfl, rfl, rfl⟩,
      ⟨_, withBuckets_indexed _ _ hk _ _⟩, ?_, ?_⟩
    · show computeLoadCapacity s1.table.maxLoadFactor (2 ^ k) = _
      rw [hpolicy1.maxLoadFactor]
    · rw [hfault1] at hf
      exact hf.through (by simp)
  · refine ⟨harena1, hpolicy1, Or.inl ⟨by rw [← hfault1]; exact hpoint, ?_, ?_⟩⟩
    · show s1.table.buckets = none
      rw [htable1]
    · show s1.table.bucketCount = _
      rw [htable1]

/-- One node more, as long as there is a bucket for it. -/
theorem Rehashed.step {k x : ℕ} {done rest : List ℕ} (h : Rehashed s k done s')
    (hsplit : s.table.iteration = done ++ x :: rest) (hL : s.table.iteration.Nodup)
    (hlive : ∀ x ∈ s.table.iteration, (s.table.nodeAt x).storage.isSome)
    (hlt : done.length < 2 ^ k) (hroom : Room s.table) :
    Action.Post U (replaceNode x) s' (fun _ => Rehashed s k (done ++ [x])) (RehashThrown s) := by
  obtain ⟨harena, hpolicy, ⟨cells, I⟩, hcap, hfault⟩ := h
  have hmem : x ∈ s.table.iteration := by
    rw [hsplit]
    simp
  have hlen : done.length + 1 ≤ s.table.iteration.length := by
    rw [hsplit, List.length_append, List.length_cons]
    omega
  rw [hsplit] at hL
  have hnot : x ∉ done := fun h => (List.nodup_append.mp hL).2.2 x h x (by simp) rfl
  obtain ⟨e, he⟩ := Option.isSome_iff_exists.mp (hlive x hmem)
  have he' : (s'.table.nodeAt x).storage = some e := by rw [harena.nodeAt, he]
  have hH : ownHash s.table x = s'.table.mixedHash (τ.keyOf e.value) := by
    rw [ownHash_of_storage he, hpolicy.mixedHash]
  unfold Room Table.size at hroom
  refine (replaceNode_spec I (List.nodup_append.mp hL).1 hlt (by omega) hnot he' hH).mono ?_ ?_
    fun _ h => h
  · rintro ⟨⟩ s4 ⟨hr, hI⟩
    exact ⟨harena.trans hr.arena, hpolicy.trans hr.policy, hI, hr.maxLoadCapacity.trans hcap,
      hfault.trans (hr.fault.mono (by simp))⟩
  · intro s4 hthrow
    refine ⟨harena.trans (by rw [hthrow.table]; exact SameArena.refl _),
      hpolicy.trans (by rw [hthrow.table]; exact SamePolicy.refl _), Or.inr ⟨?_, x, ?_, ?_⟩⟩
    · obtain ⟨p, hp, hpoint⟩ := hthrow.point
      rw [List.mem_singleton.mp hp] at hpoint
      rw [← hfault.point]
      exact hpoint
    · rw [hthrow.table, harena.iteration]
      exact hmem
    · intro b hb
      rw [hthrow.table] at hb
      exact hnot (I.mem_of_bucketOf hb)

theorem rehashTo_spec {k : ℕ} (hk : 3 ≤ k) (hL : s.table.iteration.Nodup)
    (hlive : ∀ x ∈ s.table.iteration, (s.table.nodeAt x).storage.isSome)
    (hlt : s.table.size ≤ 2 ^ k) (hroom : Room s.table) :
    Action.Post U (rehashTo (2 ^ k)) s (fun _ => Rehashed s k s.table.iteration)
      (RehashThrown s) := by
  refine post_rehashTo hk (fun _ h => h) fun s1 h1 => ?_
  refine Action.Post.forEach (Rehashed s k) h1 fun done x rest s2 hsplit h2 => ?_
  refine h2.step hsplit hL hlive ?_ hroom
  have hlen : s.table.iteration.length = done.length + (rest.length + 1) := by
    rw [hsplit, List.length_append, List.length_cons]
  unfold Table.size at hlt
  omega

/-- Room for one more element needs a larger bucket array. -/
def NeedsGrowth (t : Table τ) : Prop := t.bucketCount = 0 ∨ t.maxLoadCapacity < t.size + 1

instance (t : Table τ) : Decidable (NeedsGrowth t) := inferInstanceAs (Decidable (_ ∨ _))

/-- The bucket count once there is room for one more element. -/
def countForOneMore (t : Table τ) : ℕ :=
  if t.bucketCount = 0 then kInitialBucketCount
  else if t.maxLoadCapacity < t.size + 1 then t.bucketCount * 2
  else t.bucketCount

/-- The size of the bucket array after room has been made for one more element. -/
structure Sized (t t' : Table τ) : Prop where
  bucketCount : t'.bucketCount = countForOneMore t
  capacity : t'.maxLoadCapacity =
    if NeedsGrowth t then computeLoadCapacity t.maxLoadFactor (countForOneMore t)
    else t.maxLoadCapacity

theorem Sized.kept (h : Sized t t') (hg : ¬ NeedsGrowth t) :
    t'.bucketCount = t.bucketCount ∧ t'.maxLoadCapacity = t.maxLoadCapacity := by
  have hne : t.bucketCount ≠ 0 := fun h0 => hg (Or.inl h0)
  have hle : ¬ t.maxLoadCapacity < t.size + 1 := fun hlt => hg (Or.inr hlt)
  refine ⟨?_, by rw [h.capacity, if_neg hg]⟩
  rw [h.bucketCount]
  unfold countForOneMore
  rw [if_neg hne, if_neg hle]

/-- Room for one more in the index, nothing else changed. -/
structure Reserved (s s' : Store τ) : Prop where
  arena : SameArena s.table s'.table
  policy : SamePolicy s.table s'.table
  indexed : ∃ k cells, Indexed (ownHash s.table) s.table.iteration s'.table k cells ∧
    s.table.size + 1 < 2 ^ k ∧ s'.table.maxLoadCapacity < 2 ^ k
  fault : Through [.bucketArray, .hash] s.heap.fault s'.heap.fault
  growth : Sized s.table s'.table

theorem Rehashed.reserved {k : ℕ} (h : Rehashed s k s.table.iteration s')
    (hlt : s.table.size + 1 < 2 ^ k) (hgrow : NeedsGrowth s.table)
    (hcount : countForOneMore s.table = 2 ^ k) :
    Reserved s s' where
  arena := h.arena
  policy := h.policy
  indexed := by
    obtain ⟨cells, I⟩ := h.indexed
    refine ⟨k, cells, I, hlt, ?_⟩
    rw [h.capacity]
    exact computeLoadCapacity_lt _ (Nat.two_pow_pos k)
  fault := h.fault
  growth := by
    obtain ⟨cells, I⟩ := h.indexed
    refine ⟨by rw [I.bucketCount, hcount], ?_⟩
    rw [h.capacity, if_pos hgrow, hcount]

theorem reserveForOneMore_spec (hindex : IndexInOrder (ownHash s.table) s.table.iteration s.table)
    (hL : s.table.iteration.Nodup)
    (hlive : ∀ x ∈ s.table.iteration, (s.table.nodeAt x).storage.isSome) (hroom : Room s.table) :
    Action.Post U reserveForOneMore s (fun _ s' => Reserved s s') (RehashThrown s) := by
  unfold reserveForOneMore
  rw [post_getTable]
  rcases hindex with ⟨-, hcount, hempty⟩ | ⟨k, cells, I, hlt, hcap⟩
  · rw [if_pos hcount]
    have hsize : s.table.size = 0 := by
      unfold Table.size
      rw [hempty]
      rfl
    have hcount' : countForOneMore s.table = 2 ^ 3 := by
      unfold countForOneMore
      rw [if_pos hcount]
      rfl
    exact (rehashTo_spec (k := 3) le_rfl hL hlive (by rw [hsize]; decide) hroom).mono
      (fun _ _ h => h.reserved (by rw [hsize]; decide) (Or.inl hcount) hcount')
      (fun _ h => h) fun _ h => h
  · have hne := I.bucketCount_ne_zero
    have h8 := two_le_two_pow I.three_le
    have hlt' : s.table.size < 2 ^ k := hlt
    rw [if_neg hne]
    by_cases hgrow : s.table.size + 1 > s.table.maxLoadCapacity
    · have hdouble : s.table.bucketCount * 2 = 2 ^ (k + 1) := by
        rw [I.bucketCount, pow_succ]
      have hcount' : countForOneMore s.table = 2 ^ (k + 1) := by
        unfold countForOneMore
        rw [if_neg hne, if_pos hgrow, hdouble]
      rw [if_pos hgrow, hdouble]
      have hthree := I.three_le
      exact (rehashTo_spec (k := k + 1) (by omega) hL hlive (by omega) hroom).mono
        (fun _ _ h => h.reserved (by omega) (Or.inr hgrow) hcount') (fun _ h => h) fun _ h => h
    · rw [if_neg hgrow]
      have hnot : ¬ NeedsGrowth s.table := by
        rintro (h0 | hlt0)
        · exact hne h0
        · exact hgrow hlt0
      refine ⟨SameArena.refl _, SamePolicy.refl _, ⟨k, cells, I, by omega, hcap⟩,
        Through.refl _ _, ?_, by rw [if_neg hnot]⟩
      unfold countForOneMore
      rw [if_neg hne, if_neg hgrow]

end Fum.Analysis
