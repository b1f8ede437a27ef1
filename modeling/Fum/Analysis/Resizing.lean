import Fum.Analysis.Removal

/-!
# The size of the bucket array

`rehash`, `reserve` and the setter of the load factor. The bucket count that `rehash` asks
for may be too small for the elements when the load factor is above one, and undefined when the
load factor is tiny; it is large enough exactly under `RehashFits`.
-/

set_option autoImplicit false

namespace Fum.Analysis

open Fum.Model Effects RobinHood RoundedArithmetic

variable {τ : Traits} {U : Stuck → Prop} {s s' : Store τ} {t t' : Table τ} {n v : ℕ}
  {R : Rounding} {factor : LoadFactor R}

/-! ## Powers of two -/

/-- A power of two that is large enough for `v` and not below eight is large enough for `v`
rounded up. -/
theorem roundUpToPowerOfTwo_le {c k : ℕ} (h : roundUpToPowerOfTwo v = some c) (hk : 3 ≤ k) :
    c ≤ 2 ^ k ↔ v ≤ 2 ^ k := by
  refine ⟨(le_of_roundUpToPowerOfTwo h).trans, fun hv => ?_⟩
  unfold roundUpToPowerOfTwo bitCeil at h
  split at h
  · cases h
    exact two_le_two_pow hk
  · split at h
    · cases h
      exact Nat.pow_le_pow_right (by decide) (Nat.clog_le_of_le_pow hv)
    · cases h

/-- A count is rounded up as long as `std::size_t` has the power of two. -/
theorem roundUpToPowerOfTwo_isSome : (roundUpToPowerOfTwo v).isSome ↔ v ≤ 2 ^ 63 := by
  unfold roundUpToPowerOfTwo bitCeil
  by_cases hsmall : v < kInitialBucketCount
  · rw [if_pos hsmall]
    exact iff_of_true rfl (hsmall.le.trans (by decide))
  · rw [if_neg hsmall]
    by_cases hv : v ≤ 2 ^ 63
    · rw [if_pos hv]
      exact iff_of_true rfl hv
    · rw [if_neg hv]
      exact iff_of_false Bool.false_ne_true hv

/-- What a positive number of elements needs, if anything, is a rounded count. -/
theorem bucketCountForElements_pos (h : n ≠ 0) {c : ℕ}
    (hc : bucketCountForElements factor n = some c) :
    ∃ v, roundUpToPowerOfTwo (v + 1) = some c ∧ v = ⌊(match factor with
      | .infinity => (0 : ℚ)
      | .finite q _ _ => R.round (R.round n / q))⌋₊ := by
  unfold bucketCountForElements at hc
  rw [if_neg h] at hc
  obtain ⟨v, hv, hround⟩ := Option.bind_eq_some_iff.mp hc
  refine ⟨v, hround, ?_⟩
  obtain ⟨-, hfloor⟩ := Option.ite_none_right_eq_some.mp hv
  exact (Option.some.inj hfloor).symm

theorem bucketCountForElements_le (h : n ≠ 0) {c : ℕ}
    (hc : bucketCountForElements factor n = some c) {k : ℕ} (hk : 3 ≤ k) :
    c ≤ 2 ^ k ↔
      (match factor with
        | .infinity => True
        | .finite q _ _ => R.round (R.round n / q) < 2 ^ k) := by
  obtain ⟨v, hround, hv⟩ := bucketCountForElements_pos h hc
  rw [roundUpToPowerOfTwo_le hround hk, hv]
  cases factor with
  | infinity => simpa using Nat.one_le_two_pow
  | finite q pos represented =>
      simp only
      have hnonneg : 0 ≤ R.round (R.round n / q) :=
        R.round_nonneg (div_nonneg (R.round_nonneg (Nat.cast_nonneg n)) pos.le)
      rw [Nat.add_one_le_iff, Nat.floor_lt hnonneg]
      push_cast
      rfl

/-! ## Room for the elements -/

/-- The bucket count that `rehash(n)` asks for leaves a bucket to spare. -/
def RehashFits (t : Table τ) (n : ℕ) : Prop :=
  ∃ c ∈ rehashCount t n, c ≠ 0 → t.size < c

instance (t : Table τ) (n : ℕ) : Decidable (RehashFits t n) :=
  inferInstanceAs (Decidable (∃ c ∈ rehashCount t n, _ → _))

/-- The bucket count that `reserve(n)` asks for leaves a bucket to spare. -/
def ReserveFits (t : Table τ) (n : ℕ) : Prop :=
  ∃ m ∈ bucketCountForElements t.maxLoadFactor n, RehashFits t m

instance (t : Table τ) (n : ℕ) : Decidable (ReserveFits t n) :=
  inferInstanceAs (Decidable (∃ m ∈ bucketCountForElements t.maxLoadFactor n, _))

/-- The bucket count that a copy of the table reserves lies within `std::size_t`. -/
def Copyable (t : Table τ) : Prop :=
  bucketCountForElements t.maxLoadFactor t.size ≠ none

instance (t : Table τ) : Decidable (Copyable t) :=
  inferInstanceAs (Decidable (bucketCountForElements t.maxLoadFactor t.size ≠ none))

theorem copyable_of_eq_some {m : ℕ}
    (hm : bucketCountForElements t.maxLoadFactor t.size = some m) : Copyable t := by
  unfold Copyable
  rw [hm]
  exact Option.some_ne_none m

theorem copyable_of_empty (hempty : t.iteration = []) : Copyable t := by
  refine copyable_of_eq_some (m := 0) ?_
  unfold bucketCountForElements
  exact if_pos (show t.size = 0 from congrArg List.length hempty)

/-- The factor is at most one. -/
def LoadFactor.AtMostOne (factor : LoadFactor R) : Prop :=
  match factor with
  | .infinity => False
  | .finite q _ _ => q ≤ 1

instance (factor : LoadFactor R) : Decidable (LoadFactor.AtMostOne factor) :=
  match factor with
  | .infinity => isFalse id
  | .finite q _ _ => inferInstanceAs (Decidable (q ≤ 1))

theorem rehashCount_ne_zero {c : ℕ} (h : rehashCount t n = some c) (hc : c ≠ 0) :
    ∃ k, 3 ≤ k ∧ c = 2 ^ k := by
  obtain ⟨target, -, hround⟩ := Option.bind_eq_some_iff.mp h
  split at hround
  · cases hround
    exact absurd rfl hc
  · exact roundUpToPowerOfTwo_eq hround

theorem lt_bucketCountForElements (hz : LoadFactor.AtMostOne factor) (h : n ≠ 0) {c : ℕ}
    (hc : bucketCountForElements factor n = some c) : n < c := by
  obtain ⟨k, hk, rfl⟩ : ∃ k, 3 ≤ k ∧ c = 2 ^ k := by
    obtain ⟨v, hround, -⟩ := bucketCountForElements_pos h hc
    exact roundUpToPowerOfTwo_eq hround
  have hle := (bucketCountForElements_le h hc hk).mp le_rfl
  cases factor with
  | infinity => exact hz.elim
  | finite q pos represented =>
      have hlt := R.lt_two_pow_mul_of_round_div_lt pos represented hle
      have hone : (2 : ℚ) ^ k * q ≤ 2 ^ k := mul_le_of_le_one_right (by positivity) hz
      exact_mod_cast hlt.trans_le hone

/-- With a load factor of at most one, every `rehash` within range asks for buckets enough. -/
theorem rehashFits_of_atMostOne (hz : LoadFactor.AtMostOne t.maxLoadFactor)
    (hrange : rehashCount t n ≠ none) : RehashFits t n := by
  obtain ⟨c, hc⟩ := Option.ne_none_iff_exists'.mp hrange
  refine ⟨c, hc, fun hne => ?_⟩
  by_cases h0 : t.size = 0
  · rw [h0]
    exact Nat.pos_of_ne_zero hne
  · obtain ⟨-, m, hm, hle⟩ := le_of_rehashCount hc
    exact (lt_bucketCountForElements hz h0 hm).trans_le hle

/-- Without elements, every `rehash` within range asks for buckets enough. -/
theorem rehashFits_of_empty (hempty : t.iteration = []) (hrange : rehashCount t n ≠ none) :
    RehashFits t n := by
  obtain ⟨c, hc⟩ := Option.ne_none_iff_exists'.mp hrange
  refine ⟨c, hc, fun hne => ?_⟩
  rw [show t.size = 0 from congrArg List.length hempty]
  exact Nat.pos_of_ne_zero hne

/-- What elements need is rounded already, so a `rehash` of an empty table that asks for it is
within range. -/
theorem rehashCount_of_empty (hempty : t.iteration = []) {m : ℕ}
    (hm : bucketCountForElements factor n = some m) : rehashCount t m = some m := by
  have hsize : t.size = 0 := congrArg List.length hempty
  have htarget : t.rehashTarget m = some m := by
    unfold Table.rehashTarget bucketCountForElements
    rw [if_pos hsize]
    rfl
  unfold rehashCount
  rw [htarget]
  show (if m = 0 then some 0 else roundUpToPowerOfTwo m) = some m
  by_cases hzero : m = 0
  · rw [if_pos hzero, hzero]
  rw [if_neg hzero]
  have hn : n ≠ 0 := by
    rintro rfl
    unfold bucketCountForElements at hm
    rw [if_pos rfl] at hm
    cases hm
    exact hzero rfl
  obtain ⟨v, hround, -⟩ := bucketCountForElements_pos hn hm
  obtain ⟨k, hk, rfl⟩ := roundUpToPowerOfTwo_eq hround
  have hle : 2 ^ k ≤ 2 ^ 63 :=
    (roundUpToPowerOfTwo_le hround (by decide)).mpr
      (roundUpToPowerOfTwo_isSome.mp (by rw [hround]; rfl))
  obtain ⟨c, hc⟩ := Option.isSome_iff_exists.mp (roundUpToPowerOfTwo_isSome.mpr hle)
  rw [hc]
  exact congrArg some (le_antisymm ((roundUpToPowerOfTwo_le hc hk).mpr le_rfl)
    (le_of_roundUpToPowerOfTwo hc))

/-- On an empty table, `reserve` asks for buckets enough if what it asks for is defined. -/
theorem reserveFits_of_empty (hempty : t.iteration = [])
    (hrange : bucketCountForElements t.maxLoadFactor n ≠ none) : ReserveFits t n := by
  obtain ⟨m, hm⟩ := Option.ne_none_iff_exists'.mp hrange
  refine ⟨m, hm, rehashFits_of_empty hempty ?_⟩
  rw [rehashCount_of_empty hempty hm]
  exact Option.some_ne_none m

/-! ## Resizing -/

theorem RehashThrown.insertThrown (h : RehashThrown s s') (hslots : Slots s.table []) :
    InsertThrown s s' := by
  rcases h.index with ⟨hp, hb, hcount⟩ | ⟨hp, hu⟩
  · exact .lostBuckets hp ⟨h.arena.sameElements h.policy, h.arena.slots hslots, hb, hcount⟩
  · exact .unplaced hp hu

/-- `rehash_to` with buckets enough. -/
theorem rehashTo_consistent {k : ℕ} (hk : 3 ≤ k) (hc : Consistent s.table) (hroom : Room s.table)
    (hlt : s.table.size < 2 ^ k) :
    Action.Post U (rehashTo (2 ^ k)) s
      (fun _ s' => SameElements s.table s'.table ∧ Consistent s'.table ∧
        s'.table.bucketCount = 2 ^ k ∧
        s'.table.maxLoadCapacity = computeLoadCapacity s.table.maxLoadFactor (2 ^ k))
      (InsertThrown s) := by
  refine (rehashTo_spec hk hc.slots.iteration_nodup (fun _ hx => hc.live hx) hlt.le hroom).mono
    ?_ (fun _ h => h.insertThrown hc.slots) fun _ h => h
  rintro ⟨⟩ s' h'
  have hsame := h'.arena.sameElements h'.policy
  obtain ⟨cells, I⟩ := h'.indexed
  refine ⟨hsame, hc.of_sameElements hsame (h'.arena.slots hc.slots) (Or.inr ⟨k, cells, I, hlt, ?_⟩),
    I.bucketCount, h'.capacity⟩
  rw [h'.capacity]
  exact computeLoadCapacity_lt _ (Nat.two_pow_pos k)

/-- The size of the bucket array after `rehash(n)`, unless no buckets are asked for. -/
def Resized (t : Table τ) (n : ℕ) (t' : Table τ) : Prop :=
  ∀ c ∈ rehashCount t n, c ≠ 0 → t'.bucketCount = c ∧
    t'.maxLoadCapacity = computeLoadCapacity t.maxLoadFactor c

theorem resized_of_zero (h : rehashCount t n = some 0) : Resized t n t' := by
  intro c hc hne
  rw [h] at hc
  cases hc
  exact absurd rfl hne

theorem rehash_spec (n : ℕ) (hc : Consistent s.table) (hroom : Room s.table)
    (hfits : RehashFits s.table n) :
    Action.Post U (rehash n) s
      (fun _ s' => SameElements s.table s'.table ∧ Consistent s'.table ∧
        Resized s.table n s'.table) (InsertThrown s) := by
  obtain ⟨c, hcount, hspare⟩ := hfits
  have hcount : rehashCount s.table n = some c := hcount
  apply post_rehash
  · intro hnone
    rw [hnone] at hcount
    cases hcount
  · intro hzero hempty
    refine Action.Post.bind deallocateBuckets_spec (fun _ h' => h'.elim) ?_
    rintro ⟨⟩ s1 ⟨htable, -⟩
    rw [post_modifyTable_last]
    have harena : SameArena s.table s1.table.dropBuckets := by
      rw [htable]
      exact ⟨rfl, rfl, rfl, rfl⟩
    have hsame := harena.sameElements (by rw [htable]; exact ⟨rfl, rfl, rfl, rfl⟩)
    refine ⟨hsame, hc.of_sameElements hsame (harena.slots hc.slots)
      (Or.inl ⟨?_, rfl, hempty⟩), resized_of_zero hzero⟩
    show s1.table.buckets = none
    rw [htable]
  · intro hzero
    exact ⟨SameElements.refl _, hc, resized_of_zero hzero⟩
  · intro k hk hgrow
    rw [hcount] at hgrow
    cases hgrow
    refine (rehashTo_consistent hk hc hroom (hspare (Nat.two_pow_pos k).ne')).mono ?_
      (fun _ h' => h') fun _ h' => h'
    rintro - s' ⟨hsame, hc', hbuckets, hcapacity⟩
    refine ⟨hsame, hc', fun c' hc' _ => ?_⟩
    rw [hcount] at hc'
    cases hc'
    exact ⟨hbuckets, hcapacity⟩

theorem reserve_spec (n : ℕ) (hc : Consistent s.table) (hroom : Room s.table)
    (hfits : ReserveFits s.table n) :
    Action.Post U (reserve n) s
      (fun _ s' => SameElements s.table s'.table ∧ Consistent s'.table ∧
        ∀ m ∈ bucketCountForElements s.table.maxLoadFactor n, Resized s.table m s'.table)
      (InsertThrown s) := by
  obtain ⟨m, hm, hfits⟩ := hfits
  have hm : bucketCountForElements s.table.maxLoadFactor n = some m := hm
  refine post_reserve (fun hnone => by rw [hm] at hnone; cases hnone) fun m' hm' => ?_
  rw [hm] at hm'
  cases hm'
  refine (rehash_spec m hc hroom hfits).mono ?_ (fun _ h' => h') fun _ h' => h'
  rintro - s' ⟨hsame, hc', hresized⟩
  refine ⟨hsame, hc', fun m' hm' => ?_⟩
  rw [hm] at hm'
  cases hm'
  exact hresized

/-- The elements and their index, whatever the load factor. -/
structure Refactored (t t' : Table τ) : Prop where
  iteration : t'.iteration = t.iteration
  storage : ∀ x, (t'.nodeAt x).storage = (t.nodeAt x).storage
  hashFunction : t'.hashFunction = t.hashFunction
  keyEqual : t'.keyEqual = t.keyEqual
  chunks : chunkIds t' = chunkIds t

theorem setMaxLoadFactor_spec (z : FloatValue τ.rounding) (hc : Consistent s.table) :
    Action.Post U (setMaxLoadFactor z) s
      (fun _ s' => Refactored s.table s'.table ∧ Consistent s'.table ∧
        s'.table.maxLoadFactor = LoadFactor.ofFloat z ∧
        s'.table.bucketCount = s.table.bucketCount) (fun _ => False) := by
  refine Action.Post.of_run_ok (run_setMaxLoadFactor z s) ⟨⟨rfl, fun _ => rfl, rfl, rfl, rfl⟩,
    ⟨?_, hc.filled, ?_⟩, rfl, rfl⟩
  · have harena : SameArena s.table (withFactor s.table (LoadFactor.ofFloat z)) :=
      ⟨rfl, rfl, rfl, rfl⟩
    exact harena.slots hc.slots
  · rcases hc.index with ⟨hb, hcount, hL⟩ | ⟨k, cells, I, hlt, -⟩
    · exact Or.inl ⟨hb, hcount, hL⟩
    · refine Or.inr ⟨k, cells, ⟨I.three_le, I.bucketCount, I.bucketShift, I.buckets, I.layout,
        I.holds⟩, hlt, ?_⟩
      have hne := I.bucketCount_ne_zero
      show (if s.table.bucketCount ≠ 0 then _ else _) < 2 ^ k
      rw [if_pos hne, I.bucketCount]
      exact computeLoadCapacity_lt _ (Nat.two_pow_pos k)

end Fum.Analysis
