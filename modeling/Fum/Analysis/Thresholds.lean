import Fum.Analysis.Growth
import Fum.Analysis.TableInvariants
import Fum.Model.Observers

/-!
# Load factors that one growth keeps up with

A load factor of at least 1/8 and at most one is met by 8 buckets for the first element and
by twice the buckets for one element more. Under such a factor no member function and no
statement leaves a table with more elements than its threshold, however it ends.
-/

set_option autoImplicit false

namespace Fum.Analysis

open Fum.Model Effects RoundedArithmetic

variable {τ : Traits} {R : Rounding} {s : Store τ} {t : Table τ} {n k e : ℕ}
  {factor : LoadFactor R} {f : LoadFactor τ.rounding}

/-! ## What a power of two of buckets holds -/

/-- The load factor lies between 1/8 and one. -/
def Ample : LoadFactor R → Prop
  | .infinity => False
  | .finite q _ _ => 1 ≤ 8 * q ∧ q ≤ 1

theorem ample_default : Ample (kDefaultMaxLoadFactor R) := by
  refine ⟨?_, R.round_le_one (by norm_num)⟩
  have hone : R.round 1 ≤ R.round (2 ^ 3 * (4 / 5)) := R.mono (by norm_num)
  rw [R.one, R.scale] at hone
  norm_num at hone
  exact hone

theorem le_computeLoadCapacity_two_pow {q : ℚ} {pos : 0 < q} {represented : R.round q = q} :
    n ≤ computeLoadCapacity (.finite q pos represented) (2 ^ k) ↔
      n < 2 ^ k ∧ (n : ℚ) ≤ 2 ^ k * q := by
  have hcount : (0 : ℚ) < 2 ^ k := by positivity
  have hcast : (n : ℚ) < 2 ^ k ↔ n < 2 ^ k := by exact_mod_cast Iff.rfl
  have hpos : 0 < 2 ^ k := Nat.two_pow_pos k
  unfold computeLoadCapacity
  by_cases hq : q ≥ 1
  · simp only [if_pos hq]
    rw [Nat.le_sub_one_iff_lt hpos]
    refine ⟨fun hn => ⟨hn, ?_⟩, fun h => h.1⟩
    calc (n : ℚ) ≤ 2 ^ k := (hcast.mpr hn).le
      _ ≤ 2 ^ k * q := le_mul_of_one_le_right hcount.le hq
  · have hproduct : R.round (R.round ((2 ^ k : ℕ) : ℚ) * q) = 2 ^ k * q := by
      push_cast
      rw [R.round_two_pow, R.round_two_pow_mul represented]
    have hlt : (2 : ℚ) ^ k * q < 2 ^ k := mul_lt_of_lt_one_right hcount (not_le.mp hq)
    have hnonneg : (0 : ℚ) ≤ 2 ^ k * q := mul_nonneg hcount.le pos.le
    have hfloor : ⌊(2 : ℚ) ^ k * q⌋₊ < 2 ^ k := by
      rw [Nat.floor_lt hnonneg]
      exact_mod_cast hlt
    simp only [if_neg hq, hproduct, if_pos hfloor]
    rw [Nat.le_floor_iff hnonneg]
    exact ⟨fun hn => ⟨hcast.mp (hn.trans_lt hlt), hn⟩, fun h => h.2⟩

/-- The first 8 buckets hold an element. -/
theorem Ample.first (h : Ample factor) : 1 ≤ computeLoadCapacity factor (2 ^ 3) := by
  cases factor with
  | infinity => exact h.elim
  | finite q pos represented =>
      obtain ⟨hlow, -⟩ := h
      refine le_computeLoadCapacity_two_pow.mpr ⟨by decide, ?_⟩
      norm_num
      exact hlow

/-- Twice the buckets hold an element more. -/
theorem Ample.twice (h : Ample factor) (hk : 3 ≤ k)
    (hn : n ≤ computeLoadCapacity factor (2 ^ k)) :
    n + 1 ≤ computeLoadCapacity factor (2 ^ (k + 1)) := by
  cases factor with
  | infinity => exact h.elim
  | finite q pos represented =>
      obtain ⟨hlow, -⟩ := h
      obtain ⟨hlt, hle⟩ := le_computeLoadCapacity_two_pow.mp hn
      have hgain : (1 : ℚ) ≤ 2 ^ k * q :=
        calc (1 : ℚ) ≤ 2 ^ 3 * q := by norm_num; exact hlow
          _ ≤ 2 ^ k * q := mul_le_mul_of_nonneg_right
              (pow_le_pow_right₀ one_le_two hk) pos.le
      refine le_computeLoadCapacity_two_pow.mpr ⟨?_, ?_⟩
      · rw [pow_succ]
        omega
      · rw [pow_succ]
        push_cast
        linarith

/-- As many buckets as are asked for some elements hold them. -/
theorem Ample.asked {m : ℕ} (h : Ample factor) (hk : 3 ≤ k)
    (hm : bucketCountForElements factor n = some m) (hle : m ≤ 2 ^ k) :
    n ≤ computeLoadCapacity factor (2 ^ k) := by
  by_cases hn : n = 0
  · rw [hn]
    exact Nat.zero_le _
  cases factor with
  | infinity => exact h.elim
  | finite q pos represented =>
      have hquotient : R.round (R.round n / q) < 2 ^ k :=
        (bucketCountForElements_le hn hm hk).mp hle
      have hlt : (n : ℚ) < 2 ^ k * q := R.lt_two_pow_mul_of_round_div_lt pos represented hquotient
      refine le_computeLoadCapacity_two_pow.mpr ⟨?_, hlt.le⟩
      have hcount : (n : ℚ) < 2 ^ k :=
        hlt.trans_le (mul_le_of_le_one_right (by positivity) h.2)
      exact_mod_cast hcount

/-- Some millions of elements need no more buckets than `std::size_t` has. -/
theorem Ample.counted (h : Ample factor) (hn : n ≤ 2 ^ 24) :
    ∃ m, bucketCountForElements factor n = some m ∧ m ≤ 2 ^ 63 := by
  unfold bucketCountForElements
  split
  · exact ⟨0, rfl, Nat.zero_le _⟩
  cases factor with
  | infinity => exact h.elim
  | finite q pos represented =>
      have hcast : (n : ℚ) ≤ 2 ^ 24 := by exact_mod_cast hn
      have hrounded : R.round n ≤ 2 ^ 24 := R.round_two_pow 24 ▸ R.mono hcast
      have hquotient : R.round n / q ≤ 2 ^ 27 := by
        rw [div_le_iff₀ pos]
        have hlow := h.1
        linarith
      have hneeded : R.round (R.round n / q) ≤ 2 ^ 27 := R.round_two_pow 27 ▸ R.mono hquotient
      have hfloor : ⌊R.round (R.round n / q)⌋₊ ≤ 2 ^ 27 := by
        refine Nat.floor_le_of_le (hneeded.trans (le_of_eq ?_))
        norm_num
      have hcount : toSizeType (R.round (R.round n / q)) =
          some ⌊R.round (R.round n / q)⌋₊ := if_pos (hneeded.trans_lt (by norm_num))
      obtain ⟨c, hc⟩ := Option.isSome_iff_exists.mp (roundUpToPowerOfTwo_isSome.mpr
        (show ⌊R.round (R.round n / q)⌋₊ + 1 ≤ 2 ^ 63 by omega))
      refine ⟨c, ?_, (roundUpToPowerOfTwo_le (k := 63) hc (by decide)).mpr (by omega)⟩
      show (toSizeType (R.round (R.round n / q))).bind _ = some c
      rw [hcount]
      exact hc

/-- The buckets, or the elements, that the call asks room for. -/
def requested : Op τ → ℕ
  | .rehash n | .reserve n => n
  | _ => 0

/-- A table of that size can be copied. -/
theorem Ample.copyable (h : Ample t.maxLoadFactor) (hsize : t.size ≤ 2 ^ 24) : Copyable t := by
  obtain ⟨m, hm, -⟩ := h.counted hsize
  exact copyable_of_eq_some hm

/-- It can be rebuilt with any number of buckets that can be rounded up. -/
theorem Ample.rehashCount (h : Ample t.maxLoadFactor) (hsize : t.size ≤ 2 ^ 24)
    (hn : n ≤ 2 ^ 63) : Analysis.rehashCount t n ≠ none := by
  obtain ⟨m, hm, hle⟩ := h.counted hsize
  unfold Analysis.rehashCount Table.rehashTarget
  rw [hm]
  have hround : ∀ v ≤ 2 ^ 63, (if v = 0 then some 0 else roundUpToPowerOfTwo v) ≠ none := by
    intro v hv
    split
    · exact Option.some_ne_none 0
    · exact Option.isSome_iff_ne_none.mp (roundUpToPowerOfTwo_isSome.mpr hv)
  show (if (if n < m then m else n) = 0 then some 0
    else roundUpToPowerOfTwo (if n < m then m else n)) ≠ none
  refine hround _ ?_
  split <;> assumption

theorem Ample.sizableIn (h : Ample t.maxLoadFactor) (hsize : t.size ≤ 2 ^ 24) {op : Op τ}
    (hop : requested op ≤ 2 ^ 24) : SizableIn t op := by
  cases op with
  | rehash n => exact h.rehashCount hsize (hop.trans (by decide))
  | reserve n =>
      obtain ⟨m, hm, hle⟩ := h.counted hop
      exact ⟨m, hm, h.rehashCount hsize hle⟩
  | insert | tryEmplace | insertOrAssign | assign | eraseKey | eraseAt | eraseRange | extractKey
  | extractAt | clear | maxLoadFactor | find => trivial

/-! ## Tables below their threshold -/

/-- The table has the load factor `f`, and its threshold is that of its buckets and leaves
room for `e` elements more. -/
structure Below (f : LoadFactor τ.rounding) (e : ℕ) (t : Table τ) : Prop where
  factor : t.maxLoadFactor = f
  room : t.bucketCount = 0 ∧ t.size + e = 0 ∨
    ∃ k, 3 ≤ k ∧ t.bucketCount = 2 ^ k ∧ t.maxLoadCapacity = computeLoadCapacity f (2 ^ k) ∧
      t.size + e ≤ computeLoadCapacity f (2 ^ k)

theorem below_of_capacity (hfactor : t.maxLoadFactor = f) (hk : 3 ≤ k)
    (hcount : t.bucketCount = 2 ^ k)
    (hcapacity : t.maxLoadCapacity = computeLoadCapacity f (2 ^ k))
    (hsize : t.size + e ≤ computeLoadCapacity f (2 ^ k)) : Below f e t :=
  ⟨hfactor, Or.inr ⟨k, hk, hcount, hcapacity, hsize⟩⟩

theorem below_initial (hash : τ.Key → UInt64) (equal : τ.Key → τ.Key → Bool) (alloc : τ.Alloc) :
    Below f 0 (Table.initial f hash equal alloc) := ⟨rfl, Or.inl ⟨rfl, rfl⟩⟩

theorem Below.size_le (h : Below f 0 t) : t.size ≤ t.maxLoadCapacity := by
  rcases h.room with ⟨-, hzero⟩ | ⟨k, -, -, hcapacity, hle⟩
  · have hsize : t.size = 0 := hzero
    rw [hsize]
    exact Nat.zero_le _
  · rw [hcapacity]
    exact hle

/-- The quotient of rounded counts does not exceed a represented bound of the exact one. -/
theorem Below.loadFactor_le {q : ℚ} {pos : 0 < q} {represented : τ.rounding.round q = q}
    (h : Below (.finite q pos represented) 0 t) : t.loadFactor ≤ q := by
  unfold Table.loadFactor
  rcases h.room with ⟨hcount, -⟩ | ⟨k, hk, hcount, -, hsize⟩
  · rw [if_pos hcount]
    exact pos.le
  · have hpos : (0 : ℚ) < 2 ^ k := by positivity
    have hne : t.bucketCount ≠ 0 := by
      rw [hcount]
      exact (Nat.two_pow_pos k).ne'
    have hle : (t.size : ℚ) ≤ 2 ^ k * q := (le_computeLoadCapacity_two_pow.mp hsize).2
    have hround : τ.rounding.round t.size ≤ 2 ^ k * q := by
      rw [← τ.rounding.round_two_pow_mul represented k]
      exact τ.rounding.mono hle
    rw [if_neg hne, hcount]
    push_cast
    rw [τ.rounding.round_two_pow]
    calc τ.rounding.round (τ.rounding.round t.size / 2 ^ k)
        ≤ τ.rounding.round q := τ.rounding.mono ((div_le_iff₀' hpos).mpr hround)
      _ = q := represented

theorem Below.mono {e' : ℕ} (h : Below f e t) (hle : e' ≤ e) :
    Below f e' t := by
  refine ⟨h.factor, ?_⟩
  rcases h.room with ⟨hcount, hzero⟩ | ⟨k, hk, hcount, hcapacity, hsize⟩
  · exact Or.inl ⟨hcount, by omega⟩
  · exact Or.inr ⟨k, hk, hcount, hcapacity, by omega⟩

/-- Fewer elements under the same threshold. -/
theorem Below.resize {e' : ℕ} {l : List ℕ} (h : Below f e t)
    (hle : l.length + e' ≤ t.size + e) :
    Below f e' { t with iteration := l } := by
  refine ⟨h.factor, ?_⟩
  rcases h.room with ⟨hcount, hzero⟩ | ⟨k, hk, hcount, hcapacity, hsize⟩
  · exact Or.inl ⟨hcount, by show l.length + e' = 0; omega⟩
  · exact Or.inr ⟨k, hk, hcount, hcapacity, hle.trans hsize⟩

theorem below_insensitive : Insensitive (Below f e : Table τ → Prop) :=
  ⟨fun _ _ _ _ h => ⟨h.factor, h.room⟩, fun _ _ h => ⟨h.factor, h.room⟩⟩

theorem below_steady : Steady fun s : Store τ => Below f e s.table := below_insensitive.steady

/-! ## Growth -/

/-- What a new bucket array makes true of the table. -/
theorem post_rehashTo_fields {I D : Table τ → Prop} (hI : Insensitive I) (hD : Insensitive D)
    (hID : ∀ (t : Table τ) (array : BucketArray τ), I t → D (t.withBuckets array n))
    (hs : I s.table) :
    Action.Post Stuck.anyhow (rehashTo n) s (fun _ s' => D s'.table) (fun _ => True) := by
  unfold rehashTo
  rw [post_getTable, post_modifyHeap]
  refine Action.Post.bind (Q := fun _ s' => I s'.table) (E := fun _ => True) ?_
    (fun _ h' => h') fun _ s1 h1 => ?_
  · refine Action.Post.mono (Action.Keeps.post (keeps_deallocateBuckets hI.steady) ?_)
      (fun _ _ h' => h') (fun _ _ => trivial) fun _ h' => h'
    exact hs
  refine Action.Post.bind (Q := fun _ s' => D s'.table) (E := fun _ => True) ?_
    (fun _ h' => h') fun _ s2 h2 => ?_
  · unfold allocateBuckets
    refine post_mayThrow_bind (fun f _ => ?_) fun _ _ => trivial
    rw [post_freshId, post_modifyHeap, post_modifyTable_last]
    exact hID s1.table _ h1
  · exact (Action.Keeps.post (Action.Keeps.forEach fun node _ =>
      keeps_replaceNode hD.steady node) h2).mono (fun _ _ h' => h') (fun _ _ => trivial)
        fun _ h' => h'

/-- The table is below its threshold and has elements for which 2 ^ k buckets are enough. -/
def SuitedFor (f : LoadFactor τ.rounding) (e k : ℕ) (t : Table τ) : Prop :=
  Below f 0 t ∧ t.size + e ≤ computeLoadCapacity f (2 ^ k)

theorem suitedFor_insensitive : Insensitive (SuitedFor f e k : Table τ → Prop) :=
  ⟨fun _ _ _ _ h => ⟨below_insensitive.arena _ _ _ _ h.1, h.2⟩,
    fun _ _ h => ⟨below_insensitive.buckets _ _ h.1, h.2⟩⟩

theorem SuitedFor.withBuckets (h : SuitedFor f e k t) (hk : 3 ≤ k) (array : BucketArray τ) :
    Below f e (t.withBuckets array (2 ^ k)) :=
  below_of_capacity h.1.factor hk rfl (congrArg (computeLoadCapacity · (2 ^ k)) h.1.factor) h.2

theorem rehashTo_room (hk : 3 ≤ k) (hs : SuitedFor f e k s.table) :
    Action.Post Stuck.anyhow (rehashTo (2 ^ k)) s (fun _ s' => Below f e s'.table)
      (fun _ => True) :=
  post_rehashTo_fields suitedFor_insensitive below_insensitive
    (fun _ array h => h.withBuckets hk array) hs

theorem rehashTo_below (hk : 3 ≤ k) : KeepsTable (SuitedFor f e k) (rehashTo (2 ^ k)) :=
  RefillableTo.rehashTo (fun _ h => ⟨(h.withBuckets hk _).mono (Nat.zero_le _), h.2⟩)
    suitedFor_insensitive.steady

/-- The buckets that `reserve_for_one_more` asks for are enough. -/
theorem reserveForOneMore_cases {Q : Exec τ Unit → Prop} (hf : Ample f) (hs : Below f 0 s.table)
    (hidle : Below f 1 s.table → Q (pure ()))
    (hgrow : ∀ k, 3 ≤ k → SuitedFor f 1 k s.table → Q (rehashTo (2 ^ k))) :
    Q (if s.table.bucketCount = 0 then rehashTo kInitialBucketCount
      else if s.table.size + 1 > s.table.maxLoadCapacity then rehashTo (s.table.bucketCount * 2)
      else pure ()) := by
  rcases hs.room with ⟨hcount, hzero⟩ | ⟨k, hk, hcount, hcapacity, hsize⟩
  · have hsize : s.table.size = 0 := hzero
    rw [if_pos hcount]
    refine hgrow 3 le_rfl ⟨hs, ?_⟩
    rw [hsize]
    exact hf.first
  · have hne : s.table.bucketCount ≠ 0 := by
      rw [hcount]
      exact (Nat.two_pow_pos k).ne'
    rw [if_neg hne]
    split
    · rw [hcount, ← pow_succ]
      exact hgrow (k + 1) (hk.trans (Nat.le_succ k)) ⟨hs, hf.twice hk hsize⟩
    · next hroom =>
        refine hidle (below_of_capacity hs.factor hk hcount hcapacity ?_)
        rw [← hcapacity]
        exact not_lt.mp hroom

theorem reserveForOneMore_room (hf : Ample f) (hs : Below f 0 s.table) :
    Action.Post Stuck.anyhow reserveForOneMore s (fun _ s' => Below f 1 s'.table)
      (fun _ => True) := by
  unfold reserveForOneMore
  rw [post_getTable]
  exact reserveForOneMore_cases (Q := fun x => Action.Post Stuck.anyhow x s
    (fun _ s' => Below f 1 s'.table) fun _ => True) hf hs (fun h => h)
    fun k hk hfits => rehashTo_room hk hfits

theorem reserveForOneMore_below (hf : Ample f) :
    KeepsTable (Below f 0) (reserveForOneMore : Exec τ Unit) := by
  intro s hs
  unfold reserveForOneMore
  rw [run_getTable]
  exact reserveForOneMore_cases (Q := fun x => Below f 0 (x.run s).2.table) hf hs (fun _ => hs)
    fun k hk hfits => (rehashTo_below hk s hfits).1

/-! ## Member functions -/

theorem linkIntoIteration_below (i : ℕ) (hs : Below f 1 s.table) :
    Below f 0 ((linkIntoIteration i).run s).2.table := by
  have haux : Below f 1 (s.table.setAux i (wrap32 s.table.size)) := below_steady.node s i _ hs
  refine Action.Post.final (I := fun s' : Store τ => Below f 0 s'.table) ?_
  unfold linkIntoIteration
  rw [post_modifyTable]
  refine post_mayThrow_bind (fun g _ => ?_) fun _ _ => haux.mono (Nat.zero_le _)
  rw [post_modifyTable_last]
  refine haux.resize ?_
  rw [List.length_append, List.length_singleton]
  exact le_rfl

theorem attachNode_below (hf : Ample f) :
    Attachable fun s : Store τ => Below f 0 s.table := by
  have hsteady : Steady fun s : Store τ => Below f 0 s.table := below_steady
  refine fun i => Action.Keeps.bind (Action.Keeps.cleanup ?_ ?_) fun _ => ?_
  · exact Action.Keeps.bind_post (reserveForOneMore_below hf)
      (fun s hs => reserveForOneMore_room hf hs) fun _ s h' => linkIntoIteration_below i h'
  · exact Action.Keeps.bind (keeps_destroyValue hsteady i) fun _ => keeps_releaseNode hsteady i
  · exact Action.Keeps.bind (keeps_keyAt i) fun _ =>
      Action.Keeps.bind (keeps_callMixedHash hsteady.toForgetful _) fun _ =>
        keeps_insertKnownAbsent hsteady i _

theorem rehash_below (hf : Ample f) (n : ℕ) : KeepsTable (Below f 0) (rehash n) := by
  intro s hs
  unfold rehash
  rw [run_getTable]
  cases htarget : s.table.rehashTarget n with
  | none => exact hs
  | some target =>
  show Below f 0 ((if target = 0 then if _ then _ else _ else _ : Exec τ Unit).run s).2.table
  split
  · split
    · next hdrop =>
        have hempty : Insensitive fun t : Table τ => t.iteration = [] ∧ Below f 0 t :=
          ⟨fun _ _ _ _ h => ⟨h.1, below_insensitive.arena _ _ _ _ h.2⟩,
            fun _ _ h => ⟨h.1, below_insensitive.buckets _ _ h.2⟩⟩
        have hkeeps : KeepsTable (fun t : Table τ => t.iteration = [] ∧ Below f 0 t) (do
            deallocateBuckets
            modifyTable Table.dropBuckets) :=
          Action.Keeps.bind (keeps_deallocateBuckets hempty.steady) fun _ s' h' =>
            ⟨h'.1, h'.2.factor, Or.inl ⟨rfl, congrArg List.length h'.1⟩⟩
        exact (hkeeps s ⟨hdrop.2, hs⟩).2
    · exact hs
  · next hne =>
      cases hround : roundUpToPowerOfTwo target with
      | none => exact hs
      | some c =>
          have hcount : rehashCount s.table n = some c := by
            unfold rehashCount
            rw [htarget, Option.bind_some, if_neg hne, hround]
          obtain ⟨k, hk, rfl⟩ := roundUpToPowerOfTwo_eq hround
          obtain ⟨-, m, hm, hle⟩ := le_of_rehashCount hcount
          rw [hs.factor] at hm
          exact (rehashTo_below (e := 0) hk s ⟨hs, hf.asked hk hm hle⟩).1

theorem below_resilient (hf : Ample f) : Resilient fun s : Store τ => Below f 0 s.table where
  toSteady := below_steady
  shrink _ _ hle h := h.resize hle
  attach := attachNode_below hf
  rehash := rehash_below hf

/-! ## Statements -/

theorem below_upheld (hf : Ample f) : Upheld (Below f 0 : Table τ → Prop) where
  resilient := below_resilient hf
  reset _ h := ⟨h.factor, Or.inl ⟨rfl, rfl⟩⟩
  allocators _ _ _ h := ⟨h.factor, h.room⟩
  fresh t alloc h := by
    rw [h.factor]
    exact below_initial t.hashFunction t.keyEqual alloc

/-- A new table starts with buckets enough for no elements. -/
theorem construct_below (n : ℕ) (hash : τ.Key → UInt64) (equal : τ.Key → τ.Key → Bool)
    (alloc : τ.Alloc) :
    Action.Keeps (Everywhere (Below (kDefaultMaxLoadFactor τ.rounding) 0))
      (construct n hash equal alloc) := by
  obtain ⟨k, heq⟩ : ∃ k, ∀ c, roundUpToPowerOfTwo n = some c → 3 ≤ k ∧ c = 2 ^ k := by
    cases hround : roundUpToPowerOfTwo n with
    | none => exact ⟨0, fun c hc => by cases hc⟩
    | some c =>
        obtain ⟨k, hk, hc⟩ := roundUpToPowerOfTwo_eq hround
        exact ⟨k, fun c' hc' => by cases hc'; exact ⟨hk, hc⟩⟩
  have hfits : SuitedFor (kDefaultMaxLoadFactor τ.rounding) 0 k
      (Table.initial (kDefaultMaxLoadFactor τ.rounding) hash equal alloc) :=
    ⟨below_initial hash equal alloc, Nat.zero_le _⟩
  unfold construct
  refine Action.Keeps.bind_post (keeps_newTable hfits.1) (Q := fun i w => EachTable (fun j t =>
    Below (kDefaultMaxLoadFactor τ.rounding) 0 t ∧
      (j = i → SuitedFor (kDefaultMaxLoadFactor τ.rounding) 0 k t)) w) ?_ ?_
  · rintro w hw j t ht
    refine ⟨keeps_newTable hfits.1 w hw j t ht, ?_⟩
    rintro rfl
    cases (table?_newTable w _).symm.trans ht
    exact hfits
  · rintro i w hw
    have hbuild : Action.Keeps (EachTable fun j t =>
        Below (kDefaultMaxLoadFactor τ.rounding) 0 t ∧
          (j = i → SuitedFor (kDefaultMaxLoadFactor τ.rounding) 0 k t))
        ((if n > 0 then onTable i (defined (roundUpToPowerOfTwo n) >>= rehashTo)
          else pure ()).cleanup (dropTable i)) := by
      refine Action.Keeps.cleanup (Action.Keeps.ite ?_ (Action.Keeps.pure _)) keeps_dropTable
      refine keeps_onTable_each fun s hs => ?_
      cases hround : roundUpToPowerOfTwo n with
      | none => exact hs
      | some c =>
          obtain ⟨hk, rfl⟩ := heq c hround
          have hfits' := rehashTo_below hk s (hs.2 rfl)
          exact ⟨hfits'.1, fun _ => hfits'⟩
    exact fun j t ht => ((hbuild.bind fun _ => Action.Keeps.pure i) w hw j t ht).1

/-- Tables of one load factor adopt it from each other. -/
theorem Below.adoptPolicy {o : Table τ} (h : Below f 0 t) (ho : Below f 0 o) :
    Below f 0 (t.adoptPolicy o) := ⟨ho.factor, h.room⟩

end Fum.Analysis
