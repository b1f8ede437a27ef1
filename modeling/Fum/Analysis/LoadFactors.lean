import Fum.Analysis.Reachability

/-!
# Exact load factors

What the size of the bucket array has to do with the load factor when products and quotients
are not rounded, and which calls leave the size alone.
-/

set_option autoImplicit false

namespace Fum.Analysis

open Fum.Model Effects RoundedArithmetic

variable {τ : Traits} {U : Stuck → Prop} {s s' : Store τ} {t t0 t' : Table τ}

/-! ## Exact arithmetic -/

/-- The same container with load factors that are exact rationals. -/
abbrev exactly (τ : Traits) : Traits := { τ with rounding := .exact }

section

variable {z : ℚ} {pos : 0 < z} {represented : Rounding.exact.round z = z} {c n : ℕ}

theorem le_computeLoadCapacity_iff (hz : z < 1) :
    n ≤ computeLoadCapacity (.finite z pos represented) c ↔ (n : ℚ) ≤ z * c := by
  have hcap : computeLoadCapacity (.finite z pos represented) c =
      if ⌊(c : ℚ) * z⌋₊ < c then ⌊(c : ℚ) * z⌋₊ else c - 1 := if_neg (not_le.mpr hz)
  have hnonneg : (0 : ℚ) ≤ c * z := mul_nonneg (Nat.cast_nonneg c) pos.le
  rw [hcap]
  by_cases hc : c = 0
  · subst hc
    simp
  · have hpos : (0 : ℚ) < c := Nat.cast_pos.mpr (Nat.pos_of_ne_zero hc)
    have hlt : (c : ℚ) * z < c := mul_lt_of_lt_one_right hpos hz
    rw [if_pos ((Nat.floor_lt hnonneg).mpr hlt), Nat.le_floor_iff hnonneg, mul_comm]

/-- As many buckets as are asked for `n` elements hold `n` elements. -/
theorem le_capacity_of_bucketCountForElements (hz : z ≤ 1) {k m : ℕ} (hk : 3 ≤ k)
    (hm : bucketCountForElements (.finite z pos represented) n = some m) (hle : m ≤ 2 ^ k) :
    n ≤ computeLoadCapacity (.finite z pos represented) (2 ^ k) := by
  by_cases hn : n = 0
  · rw [hn]
    exact Nat.zero_le _
  have hquotient : (n : ℚ) / z < 2 ^ k := (bucketCountForElements_le hn hm hk).mp hle
  have hlt : (n : ℚ) < 2 ^ k * z := (div_lt_iff₀ pos).mp hquotient
  rcases lt_or_eq_of_le hz with hz1 | rfl
  · rw [le_computeLoadCapacity_iff hz1, mul_comm]
    push_cast
    exact hlt.le
  · have hcap : computeLoadCapacity (.finite 1 pos represented : LoadFactor .exact) (2 ^ k) =
        2 ^ k - 1 := by
      unfold computeLoadCapacity
      exact if_pos (le_refl (1 : ℚ))
    rw [mul_one] at hlt
    have hlt' : n < 2 ^ k := by exact_mod_cast hlt
    rw [hcap]
    exact Nat.le_sub_one_of_lt hlt'

end

/-! ## Insertions -/

/-- An insertion of one element; `emplace` stands for `insert` too, and `tryEmplace` for
`operator[]`. -/
inductive Insertion (τ : Traits) where
  | emplace (value : τ.Value)
  | tryEmplace (key : τ.Key) (mapped : τ.Mapped)
  | insertOrAssign (key : τ.Key) (mapped : τ.Mapped)
  | node (handle : Handle τ)

/-- The call, with whether it has added an element. -/
def Insertion.exec : Insertion τ → Exec τ Bool
  | .emplace value => do
      let r ← emplaceImpl value
      pure r.2
  | .tryEmplace key mapped => do
      let r ← tryEmplaceImpl key mapped
      pure r.2
  | .insertOrAssign key mapped => do
      let r ← insertOrAssignImpl key mapped
      pure r.2
  | .node handle => do
      let r ← insertNode handle
      pure r.1.inserted

/-- The table has the size of `t0`, its load factor and a bucket array of the same size. -/
structure SizedAt (t0 t : Table τ) : Prop where
  bucketCount : t.bucketCount = t0.bucketCount
  capacity : t.maxLoadCapacity = t0.maxLoadCapacity
  size : t.size = t0.size
  factor : t.maxLoadFactor = t0.maxLoadFactor

theorem SizedAt.refl (t : Table τ) : SizedAt t t := ⟨rfl, rfl, rfl, rfl⟩

theorem steady_sizedAt (t0 : Table τ) : Steady fun s : Store τ => SizedAt t0 s.table :=
  Insensitive.steady ⟨fun _ _ _ _ h => ⟨h.1, h.2, h.3, h.4⟩, fun _ _ h => ⟨h.1, h.2, h.3, h.4⟩⟩

/-- The table has one element more than `t0`, and room has been made for it. -/
structure Enlarged (t0 t : Table τ) : Prop where
  growth : Sized t0 t
  size : t.size = t0.size + 1
  factor : t.maxLoadFactor = t0.maxLoadFactor

/-- Room has been made for one more element than `t0` has. -/
structure MadeRoom (t0 t : Table τ) : Prop where
  growth : Sized t0 t
  size : t.size = t0.size
  factor : t.maxLoadFactor = t0.maxLoadFactor

theorem SizedAt.madeRoom (h : SizedAt t0 t) (hg : ¬ NeedsGrowth t0) : MadeRoom t0 t := by
  obtain ⟨hne, hle⟩ := not_or.mp hg
  refine ⟨⟨?_, by rw [h.capacity, if_neg hg]⟩, h.size, h.factor⟩
  rw [h.bucketCount]
  unfold countForOneMore
  rw [if_neg hne, if_neg hle]

theorem rehashTo_sizes (n : ℕ) (hs : SizedAt t0 s.table) :
    Action.Post Stuck.anyhow (rehashTo n) s (fun _ s' => s'.table.bucketCount = n ∧
      s'.table.maxLoadCapacity = computeLoadCapacity t0.maxLoadFactor n ∧
      s'.table.size = t0.size ∧ s'.table.maxLoadFactor = t0.maxLoadFactor) (fun _ => True) := by
  have hinsensitive : Insensitive fun t : Table τ => t.bucketCount = n ∧
      t.maxLoadCapacity = computeLoadCapacity t0.maxLoadFactor n ∧ t.size = t0.size ∧
        t.maxLoadFactor = t0.maxLoadFactor := ⟨fun _ _ _ _ h => h, fun _ _ h => h⟩
  have hsteady := hinsensitive.steady
  unfold rehashTo
  rw [post_getTable, post_modifyHeap]
  refine Action.Post.bind ((keeps_deallocateBuckets (steady_sizedAt t0)).post hs)
    (fun _ _ => trivial) fun _ s1 h1 => ?_
  refine Action.Post.bind (Q := fun _ s' => s'.table.bucketCount = n ∧
    s'.table.maxLoadCapacity = computeLoadCapacity t0.maxLoadFactor n ∧
    s'.table.size = t0.size ∧ s'.table.maxLoadFactor = t0.maxLoadFactor) (E := fun _ => True) ?_
    (fun _ h' => h') fun _ s2 h2 => ?_
  · unfold allocateBuckets
    refine post_mayThrow_bind (fun f _ => ?_) fun _ _ => trivial
    rw [post_freshId, post_modifyHeap, post_modifyTable_last]
    exact ⟨rfl, congrArg (computeLoadCapacity · n) h1.factor, h1.size, h1.factor⟩
  · have hreplace : ∀ node : ℕ, Action.Keeps _ (replaceNode node) := fun node =>
      Action.Keeps.bind (keeps_keyAt node) fun _ =>
        Action.Keeps.bind (keeps_callMixedHash hsteady.toForgetful _) fun _ =>
          Action.Keeps.bind keeps_getTable fun _ => keeps_placeAndShiftUp hsteady _ _ _
    exact (Action.Keeps.post (Action.Keeps.forEach fun node _ => hreplace node) h2).mono
      (fun _ _ h' => h') (fun _ _ => trivial) fun _ h' => h'

theorem reserveForOneMore_idle (hs : SizedAt t0 s.table) (hg : ¬ NeedsGrowth t0) :
    reserveForOneMore.run s = (.ok (), s) := by
  obtain ⟨hne, hle⟩ := not_or.mp hg
  unfold reserveForOneMore
  show (if s.table.bucketCount = 0 then _ else _ : Exec τ Unit).run s = _
  rw [hs.bucketCount, if_neg hne, hs.capacity, hs.size, if_neg hle]
  rfl

theorem reserveForOneMore_sizes (hs : SizedAt t0 s.table) :
    Action.Post Stuck.anyhow reserveForOneMore s (fun _ s' => MadeRoom t0 s'.table)
      (fun _ => True) := by
  by_cases hg : NeedsGrowth t0
  · unfold reserveForOneMore
    rw [post_getTable, hs.bucketCount, hs.capacity, hs.size]
    by_cases hzero : t0.bucketCount = 0
    · rw [if_pos hzero]
      refine (rehashTo_sizes _ hs).mono ?_ (fun _ h' => h') fun _ h' => h'
      rintro ⟨⟩ s' ⟨hcount, hcap, hsize, hfactor⟩
      have heq : countForOneMore t0 = kInitialBucketCount := if_pos hzero
      exact ⟨⟨by rw [heq, hcount], by rw [if_pos hg, heq, hcap]⟩, hsize, hfactor⟩
    · have hlt : t0.maxLoadCapacity < t0.size + 1 := hg.resolve_left hzero
      rw [if_neg hzero, if_pos hlt]
      refine (rehashTo_sizes _ hs).mono ?_ (fun _ h' => h') fun _ h' => h'
      rintro ⟨⟩ s' ⟨hcount, hcap, hsize, hfactor⟩
      have heq : countForOneMore t0 = t0.bucketCount * 2 := by
        unfold countForOneMore
        rw [if_neg hzero, if_pos hlt]
      exact ⟨⟨by rw [heq, hcount], by rw [if_pos hg, heq, hcap]⟩, hsize, hfactor⟩
  · exact Action.Post.of_run_ok (reserveForOneMore_idle hs hg) (hs.madeRoom hg)

/-- The node enters the index and the iteration vector of a table of a known size. -/
theorem attachNode_enlarged (i : ℕ) (hs : SizedAt t0 s.table) :
    Action.Post Stuck.anyhow (attachNode i) s (fun _ s' => Enlarged t0 s'.table)
      (fun _ => True) := by
  have hlarge : Insensitive fun t : Table τ => Enlarged t0 t :=
    ⟨fun _ _ _ _ h => ⟨⟨h.growth.1, h.growth.2⟩, h.size, h.factor⟩,
      fun _ _ h => ⟨⟨h.growth.1, h.growth.2⟩, h.size, h.factor⟩⟩
  have hlink : ∀ s1 : Store τ, MadeRoom t0 s1.table →
      Action.Post Stuck.anyhow (linkIntoIteration i) s1 (fun _ s' => Enlarged t0 s'.table)
        (fun _ => True) := by
    intro s1 h1
    unfold linkIntoIteration
    rw [post_modifyTable]
    refine post_mayThrow_bind (fun f _ => ?_) fun _ _ => trivial
    refine ⟨⟨h1.growth.1, h1.growth.2⟩, ?_, h1.factor⟩
    show (s1.table.iteration ++ [i]).length = _
    rw [List.length_append, List.length_singleton]
    exact congrArg (· + 1) h1.size
  unfold attachNode
  refine Action.Post.bind (Q := fun _ s' => Enlarged t0 s'.table) (E := fun _ => True)
    (Action.Post.cleanup (E := fun _ => True) ?_ fun s' _ => ?_) (fun _ h' => h') fun _ s1 h1 => ?_
  · exact Action.Post.bind (reserveForOneMore_sizes hs) (fun _ h' => h') fun _ s1 h1 => hlink s1 h1
  · exact Action.Keeps.post (I := fun _ => True) (fun _ _ => trivial) trivial
  · refine (Action.Keeps.post (I := fun s' : Store τ => Enlarged t0 s'.table) ?_ h1).mono
      (fun _ _ h' => h') (fun _ _ => trivial) fun _ h' => h'
    exact Action.Keeps.bind (keeps_keyAt i) fun _ =>
      Action.Keeps.bind (keeps_callMixedHash hlarge.steady.toForgetful _) fun _ =>
        keeps_insertKnownAbsent hlarge.steady i _

/-! ## Insertions into a table of a known size

What becomes of the size depends on `attachNode` alone: `D` is what it establishes and `E` what
holds if it throws. -/

section

variable {D E : Table τ → Prop} {β : Type} {key : τ.Key}
  (hrest : ∀ t, SizedAt t0 t → E t)
  (hattach : ∀ i (s : Store τ), SizedAt t0 s.table →
    Action.Post Stuck.anyhow (attachNode i) s (fun _ s' => D s'.table) fun s' => E s'.table)

include hrest

/-- A call that keeps the sizes, then the rest. -/
theorem post_sizedAt {α : Type} {x : Exec τ α} {f : α → Exec τ β} {Q : β → Store τ → Prop}
    (hx : Action.Keeps (fun s : Store τ => SizedAt t0 s.table) x) (hs : SizedAt t0 s.table)
    (hf : ∀ a s', SizedAt t0 s'.table →
      Action.Post Stuck.anyhow (f a) s' Q fun s'' => E s''.table) :
    Action.Post Stuck.anyhow (x >>= f) s Q fun s' => E s'.table :=
  Action.Post.bind (hx.post hs) (fun _ h' => hrest _ h') hf

theorem post_locate_sizedAt {k : ℕ → Exec τ β} {Q : β → Store τ → Prop}
    (hs : SizedAt t0 s.table)
    (hk : ∀ existing s', SizedAt t0 s'.table →
      Action.Post Stuck.anyhow (k existing) s' Q fun s'' => E s''.table) :
    Action.Post Stuck.anyhow (callMixedHash key >>= fun hash => findBucket key hash >>= k) s Q
      fun s' => E s'.table :=
  post_sizedAt hrest (keeps_callMixedHash (steady_sizedAt t0).toForgetful key) hs fun hash _ hs' =>
    post_sizedAt hrest (keeps_findBucket (steady_sizedAt t0).toForgetful key hash) hs' hk

include hattach

theorem emplaceImpl_sizes (v : τ.Value) (hs : SizedAt t0 s.table) :
    Action.Post Stuck.anyhow (emplaceImpl v) s
      (fun r s' => if r.2 = true then D s'.table else SizedAt t0 s'.table)
      fun s' => E s'.table := by
  have hsteady := steady_sizedAt t0
  refine post_sizedAt hrest (keeps_buildNode hsteady v) hs fun i s1 h1 =>
    post_sizedAt hrest (keeps_keyAt i) h1 fun key s2 h2 =>
      post_locate_sizedAt hrest h2 fun existing s3 h3 => ?_
  show Action.Post _ (if existing ≠ s3.table.bucketCount then _ else _ : Exec τ (ℕ × Bool)) s3 _ _
  split_ifs with hfound
  · exact post_sizedAt hrest (keeps_bucketAt existing) h3 fun bucket s4 h4 =>
      post_sizedAt hrest (keeps_destroyValue hsteady i) h4 fun _ s5 h5 =>
        post_sizedAt hrest (keeps_releaseNode hsteady i) h5 fun _ s6 h6 => h6
  · exact Action.Post.bind (hattach i s3 h3) (fun _ h' => h') fun _ _ h' => h'

theorem tryEmplaceImpl_sizes (key : τ.Key) (mapped : τ.Mapped) (hs : SizedAt t0 s.table) :
    Action.Post Stuck.anyhow (tryEmplaceImpl key mapped) s
      (fun r s' => if r.2 = true then D s'.table else SizedAt t0 s'.table)
      fun s' => E s'.table := by
  refine post_locate_sizedAt hrest hs fun existing s1 h1 => ?_
  show Action.Post _ (if existing ≠ s1.table.bucketCount then _ else _ : Exec τ (ℕ × Bool)) s1 _ _
  split_ifs with hfound
  · exact post_sizedAt hrest (keeps_bucketAt existing) h1 fun bucket s2 h2 => h2
  · exact post_sizedAt hrest (keeps_buildNode (steady_sizedAt t0) _) h1 fun i s2 h2 =>
      Action.Post.bind (hattach i s2 h2) (fun _ h' => h') fun _ _ h' => h'

theorem insertOrAssignImpl_sizes (key : τ.Key) (mapped : τ.Mapped) (hs : SizedAt t0 s.table) :
    Action.Post Stuck.anyhow (insertOrAssignImpl key mapped) s
      (fun r s' => if r.2 = true then D s'.table else SizedAt t0 s'.table)
      fun s' => E s'.table := by
  refine post_locate_sizedAt hrest hs fun existing s1 h1 => ?_
  show Action.Post _ (if existing ≠ s1.table.bucketCount then _ else _ : Exec τ (ℕ × Bool)) s1 _ _
  split_ifs with hfound
  · exact post_sizedAt hrest (keeps_bucketAt existing) h1 fun bucket s2 h2 =>
      post_sizedAt hrest (keeps_assignValue (steady_sizedAt t0) _ _) h2 fun _ s3 h3 => h3
  · exact tryEmplaceImpl_sizes hrest hattach key mapped h1

theorem insertNode_sizes (handle : Handle τ) (hs : SizedAt t0 s.table) :
    Action.Post Stuck.anyhow (insertNode handle) s
      (fun r s' => if r.1.inserted = true then D s'.table else SizedAt t0 s'.table)
      fun s' => E s'.table := by
  unfold insertNode
  cases handle.value with
  | none => exact hs
  | some cell =>
      refine post_locate_sizedAt hrest hs fun existing s1 h1 => ?_
      show Action.Post _ (if existing ≠ s1.table.bucketCount then _ else _ :
        Exec τ (InsertReturnType τ × Handle τ)) s1 _ _
      split_ifs with hfound
      · exact post_sizedAt hrest (keeps_bucketAt existing) h1 fun bucket s2 h2 => h2
      · exact post_sizedAt hrest (keeps_buildNode (steady_sizedAt t0) _) h1 fun i s2 h2 =>
          Action.Post.bind (hattach i s2 h2) (fun _ h' => h') fun _ _ h' => h'

theorem Insertion.exec_sizes (x : Insertion τ) (hs : SizedAt t0 s.table) :
    Action.Post Stuck.anyhow x.exec s
      (fun added s' => if added = true then D s'.table else SizedAt t0 s'.table)
      fun s' => E s'.table := by
  cases x with
  | emplace value =>
      exact Action.Post.bind (emplaceImpl_sizes hrest hattach value hs) (fun _ h' => h')
        fun _ _ h' => h'
  | tryEmplace key mapped =>
      exact Action.Post.bind (tryEmplaceImpl_sizes hrest hattach key mapped hs) (fun _ h' => h')
        fun _ _ h' => h'
  | insertOrAssign key mapped =>
      exact Action.Post.bind (insertOrAssignImpl_sizes hrest hattach key mapped hs)
        (fun _ h' => h') fun _ _ h' => h'
  | node handle =>
      exact Action.Post.bind (insertNode_sizes hrest hattach handle hs) (fun _ h' => h')
        fun _ _ h' => h'

end

/-- An insertion makes room and adds an element, or leaves the sizes alone. -/
theorem Insertion.exec_enlarged (x : Insertion τ) (s : Store τ) :
    Action.Post Stuck.anyhow x.exec s (fun added s' =>
      if added = true then Enlarged s.table s'.table else SizedAt s.table s'.table)
      (fun _ => True) :=
  x.exec_sizes (fun _ _ => trivial) (fun i _ hs => attachNode_enlarged i hs) (SizedAt.refl _)

/-! ## Insertions that need no growth -/

/-- The bucket array has the size it has in `t0`. -/
structure SameCount (t0 t : Table τ) : Prop where
  bucketCount : t.bucketCount = t0.bucketCount
  capacity : t.maxLoadCapacity = t0.maxLoadCapacity

theorem SizedAt.sameCount (h : SizedAt t0 t) : SameCount t0 t := ⟨h.bucketCount, h.capacity⟩

theorem steady_sameCount (t0 : Table τ) : Steady fun s : Store τ => SameCount t0 s.table :=
  Insensitive.steady ⟨fun _ _ _ _ h => ⟨h.1, h.2⟩, fun _ _ h => ⟨h.1, h.2⟩⟩

theorem attachNode_sameCount (i : ℕ) (hs : SizedAt t0 s.table) (hg : ¬ NeedsGrowth t0) :
    Action.Post Stuck.anyhow (attachNode i) s (fun _ s' => SameCount t0 s'.table)
      fun s' => SameCount t0 s'.table := by
  have hsteady := steady_sameCount t0
  have hlink : Linkable fun s : Store τ => SameCount t0 s.table := fun _ _ h => ⟨h.1, h.2⟩
  have hreserved : Action.Post Stuck.anyhow (do
      reserveForOneMore
      linkIntoIteration i) s (fun _ s' => SameCount t0 s'.table)
      fun s' => SameCount t0 s'.table :=
    Action.Post.bind (Action.Post.of_run_ok (reserveForOneMore_idle hs hg) hs.sameCount)
      (fun _ h' => h') fun _ _ h' => (keeps_linkIntoIteration hsteady hlink i).post h'
  unfold attachNode
  refine Action.Post.bind (hreserved.cleanup fun s' h' =>
    (Action.Keeps.bind (keeps_destroyValue hsteady i) fun _ => keeps_releaseNode hsteady i).post h')
    (fun _ h' => h') fun _ s' h' => ?_
  exact (Action.Keeps.bind (keeps_keyAt i) fun _ =>
    Action.Keeps.bind (keeps_callMixedHash hsteady.toForgetful _) fun _ =>
      keeps_insertKnownAbsent hsteady i _).post h'

/-- An insertion into a table that has room for one more leaves the bucket array alone,
however it ends. -/
theorem Insertion.exec_sameCount (x : Insertion τ) (hg : ¬ NeedsGrowth s.table) :
    Action.Post Stuck.anyhow x.exec s (fun _ s' => SameCount s.table s'.table)
      fun s' => SameCount s.table s'.table := by
  refine (x.exec_sizes (D := SameCount s.table) (E := SameCount s.table)
    (fun _ h' => h'.sameCount) (fun i _ hs => attachNode_sameCount i hs hg)
    (SizedAt.refl _)).mono (fun added s' h' => ?_) (fun _ h' => h') fun _ h' => h'
  cases added with
  | true => exact h'
  | false => exact SizedAt.sameCount h'

end Fum.Analysis
