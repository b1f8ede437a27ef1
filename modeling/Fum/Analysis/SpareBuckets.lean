import Fum.Analysis.LoadFactors
import Fum.Analysis.Termination

/-!
# A bucket to spare

The sizes of a table leave a bucket to spare: it holds fewer elements than it has buckets,
and so it did at every rebuild. Every call keeps this that does not itself ask for too few
buckets, whatever the functors do and however the call ends. Since no more buckets are
occupied than there are elements, every loop of such a call meets an empty bucket; this part
is asked for only where getting stuck in a loop is not allowed.
-/

set_option autoImplicit false

namespace Fum.Analysis

open Fum.Model Effects RobinHood RoundedArithmetic

variable {τ : Traits} {α β : Type} {U : Stuck → Prop} {s s' : Store τ} {t : Table τ} {n m k : ℕ}

/-! ## The invariant -/

/-- No buckets and no elements, or a power of two of buckets, more than there are elements and
than the threshold says. -/
def Sparing (t : Table τ) : Prop :=
  (t.bucketCount = 0 ∧ t.size = 0) ∨ ∃ k, 3 ≤ k ∧ t.bucketCount = 2 ^ k ∧ t.size < 2 ^ k ∧
    t.maxLoadCapacity < 2 ^ k

/-- A bucket is to spare, and has been at every rebuild so far; where loops have to end, at
most `n` buckets are occupied. -/
structure Spare (U : Stuck → Prop) (n : ℕ) (s : Store τ) : Prop where
  sizes : Sparing s.table
  rehashes : ∀ r ∈ s.heap.rehashes, r.2 < r.1
  within : n ≤ s.table.size
  cells : ¬ U .diverged → ∀ array, s.table.buckets = some array → ∃ k, Ordered n k s.table array

theorem Sparing.size_lt (h : Sparing t) (hk : t.bucketCount = 2 ^ k) : t.size < 2 ^ k := by
  rcases h with ⟨hzero, -⟩ | ⟨k', -, hcount, hsize, -⟩
  · exact absurd (hk.symm.trans hzero) (Nat.two_pow_pos k).ne'
  · rwa [← hk, hcount]

theorem Sparing.size_lt_or (h : Sparing t) : t.bucketCount = 0 ∨ t.size < t.bucketCount := by
  rcases h with ⟨hzero, -⟩ | ⟨k, -, hcount, hsize, -⟩
  · exact Or.inl hzero
  · exact Or.inr (by rwa [hcount])

/-- The table has no more elements than another with the same buckets. -/
theorem Sparing.of_sizes {t' : Table τ} (h : Sparing t) (hcount : t'.bucketCount = t.bucketCount)
    (hcap : t'.maxLoadCapacity = t.maxLoadCapacity) (hsize : t'.size ≤ t.size) : Sparing t' := by
  rcases h with ⟨hzero, hsize0⟩ | ⟨k, hk, hk2, hlt, hcaplt⟩
  · exact Or.inl ⟨hcount.trans hzero, by omega⟩
  · exact Or.inr ⟨k, hk, hcount.trans hk2, by omega, by omega⟩

theorem Spare.mono (h : Spare U n s) (hnm : n ≤ m) (hm : m ≤ s.table.size) : Spare U m s where
  sizes := h.sizes
  rehashes := h.rehashes
  within := hm
  cells hU array harray := by
    obtain ⟨k, hk⟩ := h.cells hU array harray
    exact ⟨k, hk.mono hnm⟩

theorem Idle.size (h : Idle s s') : s'.table.size = s.table.size :=
  congrArg List.length h.iteration

theorem Idle.spare (h : Idle s s') (hs : Spare U n s) : Spare U n s' where
  sizes := hs.sizes.of_sizes h.index.bucketCount h.index.maxLoadCapacity h.size.le
  rehashes := by
    rw [h.rehashes]
    exact hs.rehashes
  within := hs.within.trans_eq h.size.symm
  cells hU array harray := by
    rw [h.index.buckets] at harray
    obtain ⟨k, hk⟩ := hs.cells hU array harray
    exact ⟨k, hk.three_le, h.index.bucketCount.trans hk.bucketCount,
      h.index.bucketShift.trans hk.bucketShift, hk.size, hk.words, hk.few⟩

theorem Idle.spare_self (h : Idle s s') (hs : Spare U n s) (hsize : s.table.size = n) :
    Spare U s'.table.size s' := by
  rw [h.size, hsize]
  exact h.spare hs

/-- What an erasure leaves: a bucket to spare, and no more elements. -/
def Thinned (U : Stuck → Prop) (n : ℕ) (s' : Store τ) : Prop :=
  Spare U s'.table.size s' ∧ s'.table.size ≤ n

theorem Idle.thinned (h : Idle s s') (hs : Spare U n s) (hsize : s.table.size = n) :
    Thinned U n s' := ⟨h.spare_self hs hsize, (h.size.trans hsize).le⟩

/-- Writing the bucket array changes no sizes. -/
theorem Reindexes.spare {ps : List Point} (h : Reindexes ps s s') (hs : Spare U n s)
    (hm : m ≤ s.table.size)
    (hcells : ¬ U .diverged → ∀ array, s'.table.buckets = some array →
      ∃ k, Ordered m k s'.table array) : Spare U m s' where
  sizes := hs.sizes.of_sizes h.bucketCount h.maxLoadCapacity
    (congrArg List.length h.arena.iteration).le
  rehashes := by
    rw [h.heap]
    exact hs.rehashes
  within := hm.trans_eq (congrArg List.length h.arena.iteration).symm
  cells := hcells

theorem Reindexes.size {ps : List Point} (h : Reindexes ps s s') :
    s'.table.size = s.table.size := congrArg List.length h.arena.iteration

theorem rehashes_releaseHandle (heap : Heap) (handle : Handle τ) :
    (heap.releaseHandle handle).rehashes = heap.rehashes := by
  unfold Heap.releaseHandle
  cases handle.value <;> rfl

/-! ## Rules -/

/-- What is claimed of a call that has to end, where this is asked for. -/
theorem post_unless {x : Exec τ α} {Q : α → Store τ → Prop} {E : Store τ → Prop}
    (hU : U .undefined) (h : ¬ U .diverged → Action.Post Stuck.undefinedOnly x s Q E) :
    Action.Post U x s (fun a s' => ¬ U .diverged → Q a s') (fun s' => ¬ U .diverged → E s') := by
  by_cases hd : U .diverged
  · refine (Action.Post.any x s).mono (fun _ _ _ hnot => absurd hd hnot)
      (fun _ _ hnot => absurd hd hnot) fun k _ => ?_
    cases k with
    | diverged => exact hd
    | undefined => exact hU
  · exact (h hd).mono (fun _ _ h' _ => h') (fun _ h' _ => h') fun k hk => hk ▸ hU

section

variable {Q : β → Store τ → Prop} {E : Store τ → Prop} (hU : U .undefined)

include hU

/-- A call without a loop, then the rest. -/
theorem post_idles {x : Exec τ α} {f : α → Exec τ β} (hx : Idles x)
    (hE : ∀ s', Idle s s' → E s')
    (hf : ∀ a s', Idle s s' → Action.Post U (f a) s' Q E) : Action.Post U (x >>= f) s Q E :=
  Action.Post.bind ((hx s).mono (fun _ _ h => h) (fun _ h => h) fun _ h => h ▸ hU) hE hf

theorem Idles.post_spare {x : Exec τ α} (hx : Idles x) (hs : Spare U n s) :
    Action.Post U x s (fun _ s' => Spare U n s' ∧ s'.table.size = s.table.size)
      (fun s' => Spare U n s' ∧ s'.table.size = s.table.size) :=
  (hx s).mono (fun _ _ h => ⟨h.spare hs, h.size⟩) (fun _ h => ⟨h.spare hs, h.size⟩)
    fun _ h => h ▸ hU

variable (hroom : ¬ U .diverged → n + 2 ≤ 2 ^ 24) (hs : Spare U n s)

include hroom hs

/-- A lookup, then the rest: a bucket that it finds is occupied. -/
theorem post_findBucket_spare {key : τ.Key} {hash : UInt64} {f : ℕ → Exec τ β}
    (hE : ∀ s', Idle s s' → E s')
    (hf : ∀ b s', Idle s s' →
      (¬ U .diverged → b = s'.table.bucketCount ∨ ∃ x, BucketOf s'.table b x) →
      Action.Post U (f b) s' Q E) : Action.Post U (findBucket key hash >>= f) s Q E := by
  have hends : ¬ U .diverged → Action.Post Stuck.undefinedOnly (findBucket key hash) s
      (fun b _ => b = s.table.bucketCount ∨ ∃ x, BucketOf s.table b x) (fun _ => True) := by
    intro hd
    cases hb : s.table.buckets with
    | some array =>
        obtain ⟨k, h⟩ := hs.cells hd array hb
        have hlt := hs.within.trans_lt (hs.sizes.size_lt h.bucketCount)
        exact findBucket_ends key hash hb h hlt (hroom hd)
    | none =>
        unfold findBucket
        rw [post_getTable]
        by_cases hzero : s.table.bucketCount = 0
        · rw [if_pos hzero]
          exact Or.inl rfl
        · obtain ⟨fuel, hfuel⟩ : ∃ fuel, loopFuel s.table.bucketCount = fuel + 1 := by
            refine ⟨loopFuel s.table.bucketCount - 1, (Nat.sub_add_cancel ?_).symm⟩
            exact Nat.mul_pos (Nat.pos_of_ne_zero hzero) (Nat.two_pow_pos 24)
          rw [if_neg hzero, hfuel]
          unfold findBucketLoop
          rw [post_getTable]
          refine post_bucketAt (fun array harray _ => ?_) fun _ => rfl
          rw [hb] at harray
          cases harray
  refine Action.Post.bind ((post_unless hU hends).and (findBucket_frame key hash))
    (fun s' h' => hE s' h'.2.idle) fun b s' h' => hf b s' h'.2.idle fun hd => ?_
  rw [h'.2.table]
  exact h'.1 hd

/-- A hash and a lookup, then the rest. -/
theorem post_locate_spare {key : τ.Key} {f : ℕ → Exec τ β} (hE : ∀ s', Idle s s' → E s')
    (hf : ∀ b s', Idle s s' →
      (¬ U .diverged → b = s'.table.bucketCount ∨ ∃ x, BucketOf s'.table b x) →
      Action.Post U (f b) s' Q E) :
    Action.Post U (callMixedHash key >>= fun hash => findBucket key hash >>= f) s Q E :=
  post_idles hU (Idles.callMixedHash key) hE fun _ _ h1 =>
    post_findBucket_spare hU hroom (h1.spare hs) (fun s2 h2 => hE s2 (h1.trans h2))
      fun b s2 h2 => hf b s2 (h1.trans h2)

/-- A node more in the buckets. -/
theorem placeAndShiftUp_spare {c p x : ℕ} (hn : n < s.table.size)
    (hseat : ∀ k array, Ordered n k s.table array → p < 2 ^ k ∧ Ranged (2 ^ k) kDistInc c ∧
      RobinHood.Fits (2 ^ k) kDistInc (words array.cells) p c) :
    Action.Post U (placeAndShiftUp c p x) s
      (fun _ s' => Reindexes [] s s' ∧ Spare U (n + 1) s') (fun _ => False) := by
  have hends : ¬ U .diverged → Action.Post Stuck.undefinedOnly (placeAndShiftUp c p x) s
      (fun _ s' => ∀ array, s'.table.buckets = some array →
        ∃ k, Ordered (n + 1) k s'.table array) (fun _ => False) := by
    intro hd
    cases hb : s.table.buckets with
    | some array =>
        obtain ⟨k, h⟩ := hs.cells hd array hb
        obtain ⟨hp, hc, hfit⟩ := hseat k array h
        refine (placeAndShiftUp_ends x hb h (hs.within.trans_lt (hs.sizes.size_lt h.bucketCount))
          (hroom hd) hp hc hfit).mono (fun _ _ h' array' harray' => ⟨k, h' array' harray'⟩)
          (fun _ h' => h') fun _ h' => h'
    | none =>
        unfold placeAndShiftUp
        rw [post_getTable]
        refine post_getCells (fun array harray => ?_) fun _ => rfl
        rw [hb] at harray
        cases harray
  exact ((post_unless hU hends).and (placeAndShiftUp_frame [] c p x)).mono
    (fun _ _ h' => ⟨h'.2, h'.2.spare hs hn h'.1⟩) (fun _ h' => h'.2) fun _ h' => h'

theorem insertKnownAbsent_spare (x : ℕ) (hash : UInt64) (hn : n < s.table.size) :
    Action.Post U (insertKnownAbsent x hash) s
      (fun _ s' => Reindexes [] s s' ∧ Spare U (n + 1) s') (fun _ => False) := by
  have hends : ¬ U .diverged → Action.Post Stuck.undefinedOnly (insertKnownAbsent x hash) s
      (fun _ s' => ∀ array, s'.table.buckets = some array →
        ∃ k, Ordered (n + 1) k s'.table array) (fun _ => False) := by
    intro hd
    cases hb : s.table.buckets with
    | some array =>
        obtain ⟨k, h⟩ := hs.cells hd array hb
        refine (insertKnownAbsent_ends x hash hb h
          (hs.within.trans_lt (hs.sizes.size_lt h.bucketCount)) (hroom hd)).mono
          (fun _ _ h' array' harray' => ⟨k, h' array' harray'⟩) (fun _ h' => h') fun _ h' => h'
    | none =>
        unfold insertKnownAbsent probeStart
        simp only [Action.bind_assoc]
        rw [post_getTable]
        refine post_getCells (fun array harray => ?_) fun _ => rfl
        rw [hb] at harray
        cases harray
  exact ((post_unless hU hends).and (insertKnownAbsent_frame [] x hash)).mono
    (fun _ _ h' => ⟨h'.2, h'.2.spare hs hn h'.1⟩) (fun _ h' => h'.2) fun _ h' => h'

end

/-! ## Rebuilds -/

theorem card_emptyCells (k : ℕ) : occupancy k emptyCells = 0 := by
  have hempty : occupied (2 ^ k) (words emptyCells) = ∅ :=
    Finset.filter_false_of_mem fun p _ => not_not.mpr rfl
  unfold occupancy
  rw [hempty, Finset.card_empty]

theorem deallocateBuckets_spare (hs : Spare U n s) :
    Action.Post U deallocateBuckets s (fun _ s' => Spare U 0 s' ∧
      s'.table.size = s.table.size ∧ s'.table.buckets = none) (fun _ => False) := by
  have hnone : ∀ heap : Heap, heap.rehashes = s.heap.rehashes →
      Spare U 0 (⟨{ s.table with buckets := none }, heap⟩ : Store τ) := fun heap hheap =>
    ⟨hs.sizes.of_sizes rfl rfl le_rfl, by rw [hheap]; exact hs.rehashes, Nat.zero_le _,
      fun _ array harray => by cases harray⟩
  unfold deallocateBuckets
  rw [post_getTable]
  cases hb : s.table.buckets with
  | none =>
      have heq : s.table = { s.table with buckets := none } := by rw [← hb]
      refine ⟨?_, rfl, hb⟩
      have h' := hnone s.heap rfl
      rwa [← heq] at h'
  | some array => exact ⟨hnone _ rfl, rfl, rfl⟩

section

variable (hU : U .undefined) (hroom : ¬ U .diverged → n + 2 ≤ 2 ^ 24)

include hU hroom

/-- One round of the loop of `rehash_to`. -/
theorem replaceNode_spare (node : ℕ) (hs : Spare U m s) (hm : m < s.table.size)
    (hmn : m ≤ n) :
    Action.Post U (replaceNode node) s
      (fun _ s' => Spare U (m + 1) s' ∧ s'.table.size = s.table.size ∧
        s'.table.bucketCount = s.table.bucketCount)
      (fun s' => Spare U m s' ∧ s'.table.size = s.table.size) := by
  have hleft : ∀ s', Idle s s' → Spare U m s' ∧ s'.table.size = s.table.size :=
    fun s' h' => ⟨h'.spare hs, h'.size⟩
  unfold replaceNode
  refine post_idles hU (Idles.keyAt node) hleft fun key s1 h1 =>
    post_idles hU (Idles.callMixedHash key) (fun s2 h2 => hleft s2 (h1.trans h2))
      fun hash s2 h2 => ?_
  have h12 := h1.trans h2
  rw [post_getTable]
  refine (placeAndShiftUp_spare hU (fun hd => (Nat.add_le_add_right hmn 2).trans (hroom hd))
    (h12.spare hs) (by rw [h12.size]; exact hm) fun k array h => ?_).mono ?_ (fun _ h' => h'.elim)
    fun _ h' => h'
  · exact ⟨h.homeFromHash_lt hash, ranged_distAndFingerprintFromHash k hash, home_fits _ _ _⟩
  · rintro ⟨⟩ s3 ⟨hr, h3⟩
    exact ⟨h3, hr.size.trans h12.size, hr.bucketCount.trans h12.index.bucketCount⟩

/-- A rebuild with more buckets than there are elements. -/
theorem rehashTo_spare (hk : 3 ≤ k) (hs : Spare U m s) (hsize : s.table.size = n)
    (hlt : n < 2 ^ k) :
    Action.Post U (rehashTo (2 ^ k)) s
      (fun _ s' => Spare U n s' ∧ s'.table.size = n ∧ s'.table.bucketCount = 2 ^ k)
      (fun s' => Spare U n s' ∧ s'.table.size = n) := by
  unfold rehashTo
  rw [post_getTable, post_modifyHeap]
  -- the old array goes, and the rebuild is on record
  have hrecord : Spare U m (⟨s.table, { s.heap with
      rehashes := s.heap.rehashes ++ [(2 ^ k, s.table.size)] }⟩ : Store τ) := by
    refine ⟨hs.sizes, fun r hr => ?_, hs.within, hs.cells⟩
    rcases List.mem_append.mp hr with h' | h'
    · exact hs.rehashes r h'
    · rw [List.mem_singleton.mp h']
      exact hsize ▸ hlt
  refine Action.Post.bind (deallocateBuckets_spare hrecord) (fun _ h' => h'.elim) ?_
  rintro ⟨⟩ s1 ⟨h1, hkept1, hnone1⟩
  have hsize1 : s1.table.size = n := hkept1.trans hsize
  refine Action.Post.bind (Q := fun _ s2 => Spare U 0 s2 ∧ s2.table.size = n ∧
    s2.table.bucketCount = 2 ^ k ∧ s2.table.iteration = s1.table.iteration)
    (E := fun s' => Spare U n s' ∧ s'.table.size = n) ?_ (fun _ h' => h') ?_
  · unfold allocateBuckets
    refine post_mayThrow_bind (fun f _ => ?_) fun _ _ => ?_
    · rw [post_freshId, post_modifyHeap, post_modifyTable_last]
      refine ⟨⟨Or.inr ⟨k, hk, rfl, hsize1.trans_lt hlt, computeLoadCapacity_lt _
        (Nat.two_pow_pos k)⟩, h1.rehashes, Nat.zero_le _, ?_⟩, hsize1, rfl, rfl⟩
      rintro - array harray
      cases harray
      exact ⟨k, hk, rfl, rfl, rfl, words_empty _ _, (card_emptyCells k).le⟩
    · exact ⟨⟨h1.sizes, h1.rehashes, hsize1.ge, fun _ array harray =>
        (Option.some_ne_none array (harray.symm.trans hnone1)).elim⟩, hsize1⟩
  rintro ⟨⟩ s2 ⟨h2, hsize2, hcount2, hiter2⟩
  -- as many buckets are occupied as nodes have been placed
  have hlen : s.table.iteration.length = n := hsize
  refine (Action.Post.forEach (fun done s' => Spare U done.length s' ∧ s'.table.size = n ∧
    s'.table.bucketCount = 2 ^ k) ⟨h2, hsize2, hcount2⟩ ?_).mono ?_ (fun _ h' => h')
    fun _ h' => h'
  · rintro done node rest s3 hsplit ⟨h3, hsize3, hcount3⟩
    have hdone : done.length < n := by
      rw [← hlen, hsplit, List.length_append, List.length_cons]
      omega
    refine (replaceNode_spare hU hroom node h3 (by omega) hdone.le).mono ?_ ?_ fun _ h' => h'
    · rintro ⟨⟩ s4 ⟨h4, hsize4, hcount4⟩
      rw [List.length_append, List.length_singleton]
      exact ⟨h4, hsize4.trans hsize3, hcount4.trans hcount3⟩
    · rintro s4 ⟨h4, hsize4⟩
      exact ⟨h4.mono hdone.le (hsize4.trans hsize3).ge, hsize4.trans hsize3⟩
  · rintro ⟨⟩ s3 ⟨h3, hsize3, hcount3⟩
    rw [hlen] at h3
    exact ⟨h3, hsize3, hcount3⟩

/-- Room for one more element leaves a bucket to spare for the next one. -/
theorem reserveForOneMore_spare (hs : Spare U n s) (hsize : s.table.size = n) :
    Action.Post U reserveForOneMore s
      (fun _ s' => Spare U n s' ∧ s'.table.size = n ∧ ∃ k, 3 ≤ k ∧ s'.table.bucketCount = 2 ^ k ∧
        n + 1 < 2 ^ k)
      (fun s' => Spare U n s' ∧ s'.table.size = n) := by
  unfold reserveForOneMore
  rw [post_getTable]
  rcases hs.sizes with ⟨hzero, hsize0⟩ | ⟨k, hk, hcount, hlt, hcap⟩
  · rw [if_pos hzero, show kInitialBucketCount = 2 ^ 3 from rfl]
    have h0 : n = 0 := hsize.symm.trans hsize0
    refine (rehashTo_spare hU hroom le_rfl hs hsize (by rw [h0]; decide)).mono ?_ (fun _ h' => h')
      fun _ h' => h'
    rintro ⟨⟩ s' ⟨h', hsize', hcount'⟩
    exact ⟨h', hsize', 3, le_rfl, hcount', by rw [h0]; decide⟩
  · have hne : s.table.bucketCount ≠ 0 := by
      rw [hcount]
      exact (Nat.two_pow_pos k).ne'
    rw [if_neg hne]
    by_cases hgrow : s.table.size + 1 > s.table.maxLoadCapacity
    · have hdouble : (2 : ℕ) ^ (k + 1) = 2 ^ k * 2 := pow_succ 2 k
      have hpos := Nat.two_pow_pos k
      rw [if_pos hgrow, hcount, ← hdouble]
      refine (rehashTo_spare hU hroom (by omega) hs hsize (by omega)).mono ?_ (fun _ h' => h')
        fun _ h' => h'
      rintro ⟨⟩ s' ⟨h', hsize', hcount'⟩
      exact ⟨h', hsize', k + 1, by omega, hcount', by omega⟩
    · rw [if_neg hgrow, post_pure]
      exact ⟨hs, hsize, k, hk, hcount, by omega⟩

/-! ## Insertion -/

omit hroom in
theorem linkIntoIteration_spare (i : ℕ) (hs : Spare U n s) (hk : 3 ≤ k)
    (hcount : s.table.bucketCount = 2 ^ k) (hlt : s.table.size + 1 < 2 ^ k) :
    Action.Post U (linkIntoIteration i) s
      (fun _ s' => Spare U n s' ∧ s'.table.size = s.table.size + 1)
      (fun s' => Spare U n s' ∧ s'.table.size = s.table.size) := by
  unfold linkIntoIteration
  refine post_idles hU (Idles.setNode i) (fun s' h' => ⟨h'.spare hs, h'.size⟩) fun _ s1 h1 =>
    post_idles hU (Idles.mayThrow .iterationGrowth)
      (fun s' h' => ⟨(h1.trans h').spare hs, (h1.trans h').size⟩) fun _ s2 h2 => ?_
  have h12 := h1.trans h2
  have hs2 := h12.spare hs
  have hsize2 : (s2.table.iteration ++ [i]).length = s.table.size + 1 := by
    rw [List.length_append, List.length_singleton]
    exact congrArg (· + 1) h12.size
  rw [post_modifyTable_last]
  refine ⟨⟨Or.inr ⟨k, hk, h12.index.bucketCount.trans hcount, ?_, ?_⟩, hs2.rehashes, ?_, ?_⟩,
    hsize2⟩
  · exact hsize2.trans_lt hlt
  · show s2.table.maxLoadCapacity < 2 ^ k
    rcases hs2.sizes with ⟨hzero, -⟩ | ⟨k', -, hcount', -, hcap'⟩
    · rw [h12.index.bucketCount, hcount] at hzero
      exact absurd hzero (Nat.two_pow_pos k).ne'
    · rwa [← hcount', h12.index.bucketCount, hcount] at hcap'
  · refine hs2.within.trans ?_
    show s2.table.size ≤ (s2.table.iteration ++ [i]).length
    rw [hsize2, h12.size]
    omega
  · intro hd array harray
    obtain ⟨k', h'⟩ := hs2.cells hd array harray
    exact ⟨k', h'.three_le, h'.bucketCount, h'.bucketShift, h'.size, h'.words, h'.few⟩

/-- A node enters the index and the iteration vector. -/
theorem attachNode_spare (i : ℕ) (hs : Spare U n s) (hsize : s.table.size = n) :
    Action.Post U (attachNode i) s (fun _ s' => Spare U s'.table.size s')
      (fun s' => Spare U s'.table.size s') := by
  have hexact : ∀ s' : Store τ, Spare U n s' ∧ s'.table.size = n → Spare U s'.table.size s' := by
    rintro s' ⟨h', hsize'⟩
    rwa [hsize']
  unfold attachNode
  refine Action.Post.bind (Q := fun _ s' => Spare U n s' ∧ s'.table.size = n + 1)
    (E := fun s' => Spare U n s' ∧ s'.table.size = n) (Action.Post.cleanup
      (E := fun s' => Spare U n s' ∧ s'.table.size = n) ?_ ?_) hexact ?_
  · refine Action.Post.bind (reserveForOneMore_spare hU hroom hs hsize) (fun _ h' => h') ?_
    rintro ⟨⟩ s1 ⟨h1, hsize1, k, hk, hcount, hlt⟩
    refine (linkIntoIteration_spare hU i h1 hk hcount (hsize1 ▸ hlt)).mono ?_ ?_
      fun _ h' => h'
    · exact fun _ s' h' => ⟨h'.1, by rw [h'.2, hsize1]⟩
    · exact fun s' h' => ⟨h'.1, h'.2.trans hsize1⟩
  · rintro s1 ⟨h1, hsize1⟩
    have hgone : Idles (destroyValue i >>= fun _ => releaseNode i : Exec τ Unit) :=
      Idles.bind (Idles.destroyValue i) fun _ => Idles.releaseNode i
    exact (hgone.post_spare hU h1).mono (fun _ _ h' => ⟨h'.1, h'.2.trans hsize1⟩)
      (fun _ h' => ⟨h'.1, h'.2.trans hsize1⟩) fun _ h' => h'
  · rintro ⟨⟩ s1 ⟨h1, hsize1⟩
    -- the node is listed, and its bucket comes last
    have hlinked : ∀ s', Idle s1 s' → Spare U s'.table.size s' := fun s' h' =>
      (h'.spare h1).mono (by rw [h'.size]; omega) le_rfl
    refine post_idles hU (Idles.keyAt i) hlinked fun key s2 h2 =>
      post_idles hU (Idles.callMixedHash key) (fun s' h' => hlinked s' (h2.trans h'))
        fun hash s3 h3 => ?_
    have h23 := h2.trans h3
    refine (insertKnownAbsent_spare hU hroom (h23.spare h1) i hash
      (by rw [h23.size]; omega)).mono ?_ (fun _ h' => h'.elim) fun _ h' => h'
    rintro ⟨⟩ s4 ⟨hr, h4⟩
    rwa [hr.size, h23.size, hsize1]

theorem emplaceImpl_spare (v : τ.Value) (hs : Spare U n s) (hsize : s.table.size = n) :
    Action.Post U (emplaceImpl v) s (fun _ s' => Spare U s'.table.size s')
      (fun s' => Spare U s'.table.size s') := by
  have hidle : ∀ s', Idle s s' → Spare U s'.table.size s' := fun s' h' => h'.spare_self hs hsize
  unfold emplaceImpl
  refine post_idles hU (Idles.buildNode v) hidle fun i s1 h1 =>
    post_idles hU (Idles.keyAt i) (fun s' h' => hidle s' (h1.trans h')) fun key s2 h2 => ?_
  have h12 := h1.trans h2
  refine post_locate_spare hU hroom (h12.spare hs) (fun s' h' => hidle s' (h12.trans h'))
    fun b s3 h3 _ => ?_
  have h13 := h12.trans h3
  rw [post_getTable]
  split_ifs with hfound
  · have hgone : ∀ bucket : Bucket, Idles (do
        destroyValue i
        releaseNode i
        pure (bucket.nodeIndex, false) : Exec τ (ℕ × Bool)) := fun bucket =>
      Idles.bind (Idles.destroyValue i) fun _ => Idles.bind (Idles.releaseNode i) fun _ =>
        Idles.pure _
    refine post_idles hU (Idles.bucketAt b) (fun s' h' => hidle s' (h13.trans h'))
      fun bucket s4 h4 => ?_
    exact (hgone bucket s4).mono (fun _ s' h' => hidle s' ((h13.trans h4).trans h'))
      (fun s' h' => hidle s' ((h13.trans h4).trans h')) fun _ h' => h' ▸ hU
  · exact Action.Post.bind (attachNode_spare hU hroom i (h13.spare hs) (h13.size.trans hsize))
      (fun _ h' => h') fun _ _ h' => h'

theorem tryEmplaceImpl_spare (key : τ.Key) (mapped : τ.Mapped) (hs : Spare U n s)
    (hsize : s.table.size = n) :
    Action.Post U (tryEmplaceImpl key mapped) s (fun _ s' => Spare U s'.table.size s')
      (fun s' => Spare U s'.table.size s') := by
  have hidle : ∀ s', Idle s s' → Spare U s'.table.size s' := fun s' h' => h'.spare_self hs hsize
  unfold tryEmplaceImpl
  refine post_locate_spare hU hroom hs hidle fun b s1 h1 _ => ?_
  rw [post_getTable]
  split_ifs with hfound
  · exact post_idles hU (Idles.bucketAt b) (fun s' h' => hidle s' (h1.trans h'))
      fun bucket s2 h2 => hidle s2 (h1.trans h2)
  · refine post_idles hU (Idles.buildNode _) (fun s' h' => hidle s' (h1.trans h'))
      fun i s2 h2 => ?_
    have h12 := h1.trans h2
    exact Action.Post.bind (attachNode_spare hU hroom i (h12.spare hs) (h12.size.trans hsize))
      (fun _ h' => h') fun _ _ h' => h'

theorem insertOrAssignImpl_spare (key : τ.Key) (mapped : τ.Mapped) (hs : Spare U n s)
    (hsize : s.table.size = n) :
    Action.Post U (insertOrAssignImpl key mapped) s (fun _ s' => Spare U s'.table.size s')
      (fun s' => Spare U s'.table.size s') := by
  have hidle : ∀ s', Idle s s' → Spare U s'.table.size s' := fun s' h' => h'.spare_self hs hsize
  unfold insertOrAssignImpl
  refine post_locate_spare hU hroom hs hidle fun b s1 h1 _ => ?_
  rw [post_getTable]
  split_ifs with hfound
  · refine post_idles hU (Idles.bucketAt b) (fun s' h' => hidle s' (h1.trans h'))
      fun bucket s2 h2 => ?_
    have h12 := h1.trans h2
    exact post_idles hU (Idles.assignValue _ _) (fun s' h' => hidle s' (h12.trans h'))
      fun _ s3 h3 => hidle s3 (h12.trans h3)
  · exact tryEmplaceImpl_spare hU hroom key mapped (h1.spare hs) (h1.size.trans hsize)

theorem insertNode_spare (handle : Handle τ) (hs : Spare U n s) (hsize : s.table.size = n) :
    Action.Post U (insertNode handle) s (fun _ s' => Spare U s'.table.size s')
      (fun s' => Spare U s'.table.size s') := by
  have hidle : ∀ s', Idle s s' → Spare U s'.table.size s' := fun s' h' => h'.spare_self hs hsize
  unfold insertNode
  cases handle.value with
  | none => exact hidle s (Idle.refl s)
  | some cell =>
      refine post_locate_spare hU hroom hs hidle fun b s1 h1 _ => ?_
      rw [post_getTable]
      split_ifs with hfound
      · exact post_idles hU (Idles.bucketAt b) (fun s' h' => hidle s' (h1.trans h'))
          fun bucket s2 h2 => hidle s2 (h1.trans h2)
      · refine post_idles hU (Idles.buildNode _) (fun s' h' => hidle s' (h1.trans h'))
          fun i s2 h2 => ?_
        have h12 := h1.trans h2
        refine Action.Post.bind (attachNode_spare hU hroom i (h12.spare hs)
          (h12.size.trans hsize)) (fun _ h' => h') fun _ s3 h3 => ?_
        have hrelease : Idles (modifyHeap fun h => h.releaseHandle handle : Exec τ Unit) :=
          Idles.modifyHeap fun h => rehashes_releaseHandle h handle
        have hlast : ∀ s', Idle s3 s' → Spare U s'.table.size s' :=
          fun s' h' => h'.spare_self h3 rfl
        exact post_idles hU hrelease hlast fun _ s4 h4 => hlast s4 h4

/-! ## Removal -/

omit hroom in
/-- A bucket that `find_bucket` has found is freed. -/
theorem eraseBucket_spare {b : ℕ} (hs : Spare U n s)
    (hb : ¬ U .diverged → ∃ x, BucketOf s.table b x) :
    Action.Post U (eraseBucket b) s (fun _ s' => Reindexes [] s s' ∧ Spare U (n - 1) s')
      (fun _ => False) := by
  have hends : ¬ U .diverged → Action.Post Stuck.undefinedOnly (eraseBucket b) s
      (fun _ s' => ∀ array, s'.table.buckets = some array →
        ∃ k, Ordered (n - 1) k s'.table array) (fun _ => False) := by
    intro hd
    obtain ⟨x, array, harray, hrest⟩ := hb hd
    obtain ⟨k, h⟩ := hs.cells hd array harray
    exact (eraseBucket_ends harray h (hs.within.trans_lt (hs.sizes.size_lt h.bucketCount))
      ⟨array, harray, hrest⟩).mono (fun _ _ h' array' harray' => ⟨k, h' array' harray'⟩)
      (fun _ h' => h') fun _ h' => h'
  exact ((post_unless hU hends).and (eraseBucket_frame [] b)).mono
    (fun _ _ h' => ⟨h'.2, h'.2.spare hs ((Nat.sub_le n 1).trans hs.within) h'.1⟩)
    (fun _ h' => h'.2) fun _ h' => h'

omit hroom in
/-- `unlink_from_iteration` leaves one entry less. -/
theorem unlinkFromIteration_spare (i : ℕ) (hs : Spare U (n - 1) s) (hsize : s.table.size = n) :
    Action.Post U (unlinkFromIteration i) s
      (fun _ s' => Spare U (n - 1) s' ∧ s'.table.size = n - 1) (fun _ => False) := by
  unfold unlinkFromIteration
  rw [post_getTable]
  simp only
  cases s.table.iteration.getLast? with
  | none => exact Action.Post.undefined hU
  | some last =>
      split_ifs with hlt
      · rw [post_modifyTable, post_modifyTable, post_modifyTable_last]
        have hlen : (s.table.iteration.set (s.table.nodeAt i).aux last).dropLast.length =
            n - 1 := by
          rw [List.length_dropLast, List.length_set]
          exact congrArg (· - 1) hsize
        refine ⟨⟨hs.sizes.of_sizes rfl rfl ?_, hs.rehashes, hlen.ge, fun hd array harray => ?_⟩,
          hlen⟩
        · exact hlen.trans_le ((Nat.sub_le n 1).trans hsize.ge)
        · obtain ⟨k, h'⟩ := hs.cells hd array harray
          exact ⟨k, h'.three_le, h'.bucketCount, h'.bucketShift, h'.size, h'.words, h'.few⟩
      · exact Action.Post.undefined hU

omit hroom in
theorem eraseLocated_spare (b : ℕ) (hs : Spare U n s) (hsize : s.table.size = n)
    (hb : ¬ U .diverged → b = s.table.bucketCount ∨ ∃ x, BucketOf s.table b x) :
    Action.Post U (eraseLocated b) s (fun _ => Thinned U n) (Thinned U n) := by
  unfold eraseLocated
  refine post_bucketAt (fun array harray hlt => ?_) fun _ => hU
  refine Action.Post.bind (eraseBucket_spare hU hs fun hd => ?_) (fun _ h' => h'.elim) ?_
  · rcases hb hd with heq | hfound
    · obtain ⟨k, h⟩ := hs.cells hd array harray
      rw [heq, h.bucketCount, h.size] at hlt
      exact absurd hlt (lt_irrefl _)
    · exact hfound
  rintro ⟨⟩ s1 ⟨hr, h1⟩
  have hsize1 := hr.size.trans hsize
  refine post_idles hU (Idles.destroyValue _) (fun s' h' => ?_) fun _ s2 h2 => ?_
  · have hsize' := h'.size.trans hsize1
    exact ⟨(h'.spare h1).mono (by omega) le_rfl, hsize'.le⟩
  refine Action.Post.bind (unlinkFromIteration_spare hU _ (h2.spare h1)
    (h2.size.trans hsize1)) (fun _ h' => h'.elim) ?_
  rintro ⟨⟩ s3 ⟨h3, hsize3⟩
  have hlast : ∀ s', Idle s3 s' → Thinned U n s' := fun s' h' =>
    ⟨h'.spare_self h3 hsize3, (h'.size.trans hsize3).trans_le (Nat.sub_le n 1)⟩
  exact (Idles.releaseNode _ s3).mono (fun _ s' h' => hlast s' h') hlast fun _ h' => h' ▸ hU

theorem eraseNode_spare (node : ℕ) (hs : Spare U n s) (hsize : s.table.size = n) :
    Action.Post U (eraseNode node) s (fun _ => Thinned U n) (Thinned U n) := by
  unfold eraseNode
  refine post_idles hU (Idles.keyAt node) (fun s' h' => h'.thinned hs hsize) fun key s1 h1 =>
    post_locate_spare hU hroom (h1.spare hs) (fun s' h' => (h1.trans h').thinned hs hsize)
      fun b s2 h2 hb => ?_
  have h12 := h1.trans h2
  exact eraseLocated_spare hU b (h12.spare hs) (h12.size.trans hsize) hb

theorem eraseAt_spare (node : ℕ) (hs : Spare U n s) (hsize : s.table.size = n) :
    Action.Post U (eraseAt node) s (fun _ => Thinned U n) (Thinned U n) := by
  unfold eraseAt
  rw [post_getTable]
  exact Action.Post.bind (eraseNode_spare hU hroom node hs hsize) (fun _ h' => h')
    fun _ _ h' => h'

theorem eraseRange_spare (first last : ℕ) (hs : Spare U n s) (hsize : s.table.size = n) :
    Action.Post U (eraseRange first last) s (fun _ => Thinned U n) (Thinned U n) := by
  unfold eraseRange
  rw [post_getTable]
  cases s.table.range (kNullIndex + 1) first last with
  | none => exact Action.Post.undefined hU
  | some doomed =>
      have hscratch : Idles (Action.forEach doomed fun _ => mayThrow .scratch : Exec τ Unit) :=
        Idles.forEach fun _ => Idles.mayThrow _
      refine post_idles hU hscratch (fun s' h' => h'.thinned hs hsize) fun _ s1 h1 => ?_
      refine Action.Post.bind (Action.Post.forEach (fun _ => Thinned U n) (h1.thinned hs hsize) ?_)
        (fun _ h' => h') fun _ _ h' => h'
      rintro done node rest s2 - ⟨h2, hle⟩
      exact (eraseNode_spare hU (fun hd => (Nat.add_le_add_right hle 2).trans (hroom hd)) node h2
        rfl).mono (fun _ _ h' => ⟨h'.1, h'.2.trans hle⟩) (fun _ h' => ⟨h'.1, h'.2.trans hle⟩)
        fun _ h' => h'

theorem eraseKey_spare (key : τ.Key) (hs : Spare U n s) (hsize : s.table.size = n) :
    Action.Post U (eraseKey key) s (fun _ => Thinned U n) (Thinned U n) := by
  unfold eraseKey
  refine post_locate_spare hU hroom hs (fun s' h' => h'.thinned hs hsize) fun b s1 h1 hb => ?_
  rw [post_getTable]
  split_ifs with hnone
  · exact h1.thinned hs hsize
  · exact Action.Post.bind (eraseLocated_spare hU b (h1.spare hs) (h1.size.trans hsize) hb)
      (fun _ h' => h') fun _ _ h' => h'

omit hroom in
theorem extractLocated_spare (b : ℕ) (hs : Spare U n s) (hsize : s.table.size = n)
    (hb : ¬ U .diverged → b = s.table.bucketCount ∨ ∃ x, BucketOf s.table b x) :
    Action.Post U (extractLocated b) s (fun _ => Thinned U n) (Thinned U n) := by
  have hidle : ∀ s', Idle s s' → Thinned U n s' := fun s' h' => h'.thinned hs hsize
  have hhanded : ∀ (v : τ.Value) (id : ℕ), Idles ((constructElement v).cleanup
      (modifyHeap fun h => { h with cells := h.cells.giveBack id })) := fun v id =>
    Idles.cleanup (Idles.constructElement v) (Idles.modifyHeap fun _ => rfl)
  unfold extractLocated
  refine post_idles hU (Idles.bucketAt b) hidle fun bucket s1 h1 =>
    post_idles hU Idles.allocateCell (fun s' h' => hidle s' (h1.trans h')) fun id s2 h2 => ?_
  have h12 := h1.trans h2
  refine post_idles hU (Idles.elementAt _) (fun s' h' => hidle s' (h12.trans h'))
    fun source s3 h3 => ?_
  have h13 := h12.trans h3
  refine post_idles hU (hhanded _ id) (fun s' h' => hidle s' (h13.trans h'))
    fun element s4 h4 => ?_
  have h14 := h13.trans h4
  refine post_idles hU (Idles.assignValue _ _) (fun s' h' => hidle s' (h14.trans h'))
    fun _ s5 h5 => ?_
  have h15 := h14.trans h5
  refine Action.Post.bind (eraseLocated_spare hU b (h15.spare hs) (h15.size.trans hsize)
    fun hd => ?_) (fun _ h' => h') fun _ _ h' => h'
  rw [h15.index.bucketCount]
  refine (hb hd).imp_right fun ⟨x, array, harray, hrest⟩ => ⟨x, array, ?_, hrest⟩
  rw [h15.index.buckets]
  exact harray

theorem extractKey_spare (key : τ.Key) (hs : Spare U n s) (hsize : s.table.size = n) :
    Action.Post U (extractKey key) s (fun _ => Thinned U n) (Thinned U n) := by
  unfold extractKey
  refine post_locate_spare hU hroom hs (fun s' h' => h'.thinned hs hsize) fun b s1 h1 hb => ?_
  rw [post_getTable]
  split_ifs with hnone
  · exact h1.thinned hs hsize
  · exact extractLocated_spare hU b (h1.spare hs) (h1.size.trans hsize) hb

theorem extractAt_spare (node : ℕ) (hs : Spare U n s) (hsize : s.table.size = n) :
    Action.Post U (extractAt node) s (fun _ => Thinned U n) (Thinned U n) := by
  unfold extractAt
  refine post_idles hU (Idles.keyAt node) (fun s' h' => h'.thinned hs hsize) fun key s1 h1 =>
    post_locate_spare hU hroom (h1.spare hs) (fun s' h' => (h1.trans h').thinned hs hsize)
      fun b s2 h2 hb => ?_
  have h12 := h1.trans h2
  exact extractLocated_spare hU b (h12.spare hs) (h12.size.trans hsize) hb

omit hroom in
/-- `clear` empties the buckets and keeps them. -/
theorem clear_spare (hs : Spare U n s) (hsize : s.table.size = n) :
    Action.Post U clear s (fun _ => Thinned U n) (Thinned U n) := by
  unfold clear
  rw [post_getTable]
  split_ifs with hempty
  · exact (Idle.refl s).thinned hs hsize
  refine post_idles hU Idles.destroyAllValues (fun s' h' => h'.thinned hs hsize) fun _ s1 h1 => ?_
  have hs1 := h1.spare hs
  rw [post_modifyTable_last]
  refine ⟨⟨hs1.sizes.of_sizes rfl rfl (Nat.zero_le _), hs1.rehashes, le_rfl,
    fun hd array harray => ?_⟩, Nat.zero_le n⟩
  have hmap : s1.table.buckets.map (fun a => { a with cells := emptyCells }) = some array := harray
  cases hb : s1.table.buckets with
  | none =>
      rw [hb] at hmap
      cases hmap
  | some array1 =>
      rw [hb] at hmap
      cases hmap
      obtain ⟨k, h'⟩ := hs1.cells hd array1 hb
      exact ⟨k, h'.three_le, h'.bucketCount, h'.bucketShift, h'.size, words_empty _ _,
        (card_emptyCells k).le⟩

/-! ## Hash policy -/

theorem rehash_spare (requested : ℕ) (hs : Spare U n s) (hsize : s.table.size = n)
    (hfits : RehashFits s.table requested) :
    Action.Post U (rehash requested) s (fun _ s' => Spare U s'.table.size s')
      (fun s' => Spare U s'.table.size s') := by
  obtain ⟨c, hc, hlt⟩ := hfits
  have hcount : rehashCount s.table requested = some c := hc
  apply post_rehash
  · intro hnone
    rw [hnone] at hcount
    cases hcount
  · intro _ hempty
    have h0 : s.table.size = 0 := by
      unfold Table.size
      rw [hempty]
      rfl
    refine Action.Post.bind (deallocateBuckets_spare hs) (fun _ h' => h'.elim) ?_
    rintro ⟨⟩ s1 ⟨h1, hkept1, hnone1⟩
    rw [post_modifyTable_last]
    exact ⟨Or.inl ⟨rfl, hkept1.trans h0⟩, h1.rehashes, le_rfl, fun _ array harray =>
      (Option.some_ne_none array (harray.symm.trans hnone1)).elim⟩
  · intro _
    exact (Idle.refl s).spare_self hs hsize
  · intro k hk hsome
    obtain rfl : 2 ^ k = c := Option.some.inj (hsome.symm.trans hcount)
    have hless := hlt (Nat.two_pow_pos k).ne'
    rw [hsize] at hless
    refine (rehashTo_spare hU hroom hk hs hsize hless).mono ?_ ?_ fun _ h' => h'
    · rintro ⟨⟩ s' ⟨h', hsize', -⟩
      rwa [hsize']
    · rintro s' ⟨h', hsize'⟩
      rwa [hsize']

end

/-- A new load factor moves the threshold, which stays below the bucket count. -/
theorem setMaxLoadFactor_spare (z : FloatValue τ.rounding) (hs : Spare U n s)
    (hsize : s.table.size = n) :
    Action.Post U (setMaxLoadFactor z) s (fun _ s' => Spare U s'.table.size s')
      (fun s' => Spare U s'.table.size s') := by
  refine Action.Post.of_run_ok (run_setMaxLoadFactor z s) ⟨?_, hs.rehashes, le_rfl, ?_⟩
  · rcases hs.sizes with ⟨hzero, hsize0⟩ | ⟨k, hk, hcount, hlt, -⟩
    · exact Or.inl ⟨hzero, hsize0⟩
    · have hne : s.table.bucketCount ≠ 0 := by
        rw [hcount]
        exact (Nat.two_pow_pos k).ne'
      refine Or.inr ⟨k, hk, hcount, hlt, ?_⟩
      show (if s.table.bucketCount ≠ 0 then _ else _) < 2 ^ k
      rw [if_pos hne, hcount]
      exact computeLoadCapacity_lt _ (Nat.two_pow_pos k)
  · intro hd array harray
    obtain ⟨k, h'⟩ := hs.cells hd array harray
    exact ⟨k, h'.three_le, h'.bucketCount, h'.bucketShift, h'.size, h'.words,
      h'.few.trans hsize.ge⟩

/-! ## Calls -/

theorem find_spare (hU : U .undefined) (hroom : ¬ U .diverged → n + 2 ≤ 2 ^ 24) (key : τ.Key)
    (hs : Spare U n s) (hsize : s.table.size = n) :
    Action.Post U (find key) s (fun _ s' => Spare U s'.table.size s')
      (fun s' => Spare U s'.table.size s') := by
  have hidle : ∀ s', Idle s s' → Spare U s'.table.size s' := fun s' h' => h'.spare_self hs hsize
  unfold find
  refine post_locate_spare hU hroom hs hidle fun b s1 h1 _ => ?_
  rw [post_getTable]
  split_ifs with hnone
  · exact hidle s1 h1
  · exact post_idles hU (Idles.bucketAt b) (fun s' h' => hidle s' (h1.trans h'))
      fun bucket s2 h2 => hidle s2 (h1.trans h2)

/-- A call that does not ask for too few buckets leaves one to spare, however it ends. -/
theorem Op.exec_spare (hU : U .undefined) (op : Op τ) (hs : Spare U s.table.size s)
    (hfits : FitsIn s.table op) (hroom : ¬ U .diverged → Room s.table) :
    Action.Post U op.exec s (fun _ s' => Spare U s'.table.size s')
      (fun s' => Spare U s'.table.size s') := by
  have hthin : ∀ {α : Type} {x : Exec τ α}, Action.Post U x s (fun _ => Thinned U s.table.size)
      (Thinned U s.table.size) → ∀ f : α → Reply τ, Action.Post U (x >>= fun a => pure (f a)) s
        (fun _ s' => Spare U s'.table.size s') (fun s' => Spare U s'.table.size s') :=
    fun hx f => Action.Post.bind hx (fun _ h' => h'.1) fun _ _ h' => h'.1
  have hkept : ∀ {α : Type} {x : Exec τ α}, Action.Post U x s
      (fun _ s' => Spare U s'.table.size s') (fun s' => Spare U s'.table.size s') →
        ∀ f : α → Reply τ, Action.Post U (x >>= fun a => pure (f a)) s
          (fun _ s' => Spare U s'.table.size s') (fun s' => Spare U s'.table.size s') :=
    fun hx f => Action.Post.bind hx (fun _ h' => h') fun _ _ h' => h'
  cases op with
  | insert value => exact hkept (emplaceImpl_spare hU hroom value hs rfl) _
  | tryEmplace key mapped => exact hkept (tryEmplaceImpl_spare hU hroom key mapped hs rfl) _
  | insertOrAssign key mapped =>
      exact hkept (insertOrAssignImpl_spare hU hroom key mapped hs rfl) _
  | assign node mapped =>
      have hlast : ∀ s', Idle s s' → Spare U s'.table.size s' := fun s' h' => h'.spare_self hs rfl
      exact post_idles hU (Idles.assignValue node _) hlast fun _ s' h' => hlast s' h'
  | eraseKey key => exact hthin (eraseKey_spare hU hroom key hs rfl) _
  | eraseAt node => exact hthin (eraseAt_spare hU hroom node hs rfl) _
  | eraseRange first last => exact hthin (eraseRange_spare hU hroom first last hs rfl) _
  | extractKey key => exact hthin (extractKey_spare hU hroom key hs rfl) _
  | extractAt node => exact hthin (extractAt_spare hU hroom node hs rfl) _
  | clear => exact hthin (clear_spare hU hs rfl) _
  | rehash requested => exact hkept (rehash_spare hU hroom requested hs rfl hfits) _
  | reserve elementCount =>
      obtain ⟨m, hm, hfitsm⟩ := hfits
      refine hkept (post_reserve (fun hnone => ?_) fun m' hm' => ?_) _
      · rw [Option.mem_def.mp hm] at hnone
        cases hnone
      · obtain rfl : m = m' := Option.some.inj (hm.symm.trans hm')
        exact rehash_spare hU hroom m hs rfl hfitsm
  | maxLoadFactor z => exact hkept (setMaxLoadFactor_spare z hs rfl) _
  | find key => exact hkept (find_spare hU hroom key hs rfl) _

end Fum.Analysis
