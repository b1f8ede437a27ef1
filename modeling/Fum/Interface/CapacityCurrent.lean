import Fum.Analysis.Runs
import Fum.Analysis.TableInvariants
import Fum.Model.Instances

/-!
# The cached growth threshold

`max_load_capacity_` is computed when a bucket array is allocated and when the load factor
is set. One statement adopts another load factor without either: the copy assignment from
an empty table to a table that keeps its buckets.
-/

set_option autoImplicit false

namespace Fum.Interface

open Fum.Model Fum.Analysis Effects RoundedArithmetic

variable {τ : Traits} {w : World τ} {steps : List (Step τ)} {s : Store τ} {i : ℕ}

/-- The cached threshold is the one of the current load factor and bucket count. -/
def CapacityCurrent (t : Table τ) : Prop :=
  t.maxLoadCapacity =
    if t.bucketCount = 0 then 0 else computeLoadCapacity t.maxLoadFactor t.bucketCount

instance (t : Table τ) : Decidable (CapacityCurrent t) := inferInstanceAs (Decidable (_ = _))

theorem computeLoadCapacity_zero {R : Rounding} (factor : LoadFactor R) :
    computeLoadCapacity factor 0 = 0 := by
  unfold computeLoadCapacity
  cases factor with
  | infinity => rfl
  | finite q pos represented =>
      simp only [Nat.cast_zero, R.round_zero, zero_mul, Nat.floor_zero]
      split <;> rfl

theorem capacityCurrent_withBuckets (t : Table τ) (array : BucketArray τ) (n : ℕ) :
    CapacityCurrent (t.withBuckets array n) := by
  unfold CapacityCurrent
  show computeLoadCapacity t.maxLoadFactor n =
    if n = 0 then 0 else computeLoadCapacity t.maxLoadFactor n
  split
  · next h => rw [h, computeLoadCapacity_zero]
  · rfl

theorem robust_capacityCurrent : Robust (CapacityCurrent : Table τ → Prop) where
  arena _ _ _ _ h := h
  buckets _ _ h := h
  iteration _ _ h := h
  rebuild t array n _ := capacityCurrent_withBuckets t array n
  drop _ _ := rfl
  reset _ _ := rfl
  allocators _ _ _ h := h
  fresh _ _ _ := rfl

theorem capacityCurrent_withFactor (t : Table τ) (factor : LoadFactor τ.rounding)
    (h : CapacityCurrent t) : CapacityCurrent (withFactor t factor) := by
  unfold CapacityCurrent at h ⊢
  unfold withFactor
  by_cases hcount : t.bucketCount = 0
  · rw [if_neg (not_not.mpr hcount), if_pos hcount, h, if_pos hcount]
  · rw [if_pos hcount, if_neg hcount]

/-! ## Functions that bring the threshold up to date -/

theorem rehashTo_current (n : ℕ) :
    Action.Post Stuck.anyhow (rehashTo n) s (fun _ s' => CapacityCurrent s'.table)
      (fun _ => True) := by
  have hr : Robust (CapacityCurrent : Table τ → Prop) := robust_capacityCurrent
  unfold rehashTo
  rw [post_getTable, post_modifyHeap]
  have hskip : ∀ {α : Type} {x : Exec τ α} {s' : Store τ}, Action.Keeps (fun _ => True) x →
      Action.Post Stuck.anyhow x s' (fun _ _ => True) (fun _ => True) :=
    fun hx => (hx.post trivial).mono (fun _ _ h' => h') (fun _ h' => h') fun _ h' => h'
  refine Action.Post.bind (hskip fun _ _ => trivial) (fun _ h' => h') fun _ s1 _ => ?_
  refine Action.Post.bind (Q := fun _ s' => CapacityCurrent s'.table) (E := fun _ => True) ?_
    (fun _ h' => h') fun _ s2 h2 => ?_
  · unfold allocateBuckets
    refine post_mayThrow_bind (fun f _ => ?_) fun _ _ => trivial
    rw [post_freshId, post_modifyHeap, post_modifyTable_last]
    exact capacityCurrent_withBuckets _ _ _
  · refine (Action.Keeps.post (I := fun s' : Store τ => CapacityCurrent s'.table)
      (Action.Keeps.forEach fun node _ => ?_) h2).mono (fun _ _ h' => h')
        (fun _ _ => trivial) fun _ h' => h'
    exact Action.Keeps.bind (keeps_keyAt _) fun _ =>
      Action.Keeps.bind (keeps_callMixedHash (forgetful_table _) _) fun _ =>
        Action.Keeps.bind keeps_getTable fun _ => keeps_placeAndShiftUp hr.steady _ _ _

/-- `reserve` on a table without elements brings the threshold up to date. -/
theorem reserve_current (n : ℕ) (hiter : s.table.iteration = [])
    (hzero : s.table.bucketCount = 0 → s.table.maxLoadCapacity = 0) :
    Action.Post Stuck.anyhow (reserve n) s (fun _ s' => CapacityCurrent s'.table)
      (fun _ => True) := by
  refine post_reserve (fun _ => trivial) fun m _ => ?_
  unfold rehash
  rw [post_getTable]
  refine post_defined (fun target _ => ?_) fun _ => trivial
  by_cases htarget : target = 0
  · rw [if_pos htarget]
    by_cases hdrop : s.table.bucketCount ≠ 0 ∧ s.table.iteration = []
    · rw [if_pos hdrop]
      refine Action.Post.bind (Q := fun _ _ => True) (E := fun _ => True) ?_
        (fun _ h' => h') fun _ s' _ => ?_
      · refine (Action.Keeps.post (I := fun _ => True) (fun _ _ => trivial) trivial)
      · rw [post_modifyTable_last]
        rfl
    · rw [if_neg hdrop]
      have h0 : s.table.bucketCount = 0 := by
        by_contra hne
        exact hdrop ⟨hne, hiter⟩
      show CapacityCurrent s.table
      unfold CapacityCurrent
      rw [if_pos h0, hzero h0]
  · rw [if_neg htarget]
    exact post_defined (fun c _ => rehashTo_current c) fun _ => trivial

/-- `clear` removes the elements and keeps the index. -/
theorem clear_empties :
    Action.Post Stuck.anyhow clear s (fun _ s' => s'.table.iteration = [] ∧
      s'.table.bucketCount = s.table.bucketCount ∧
      s'.table.maxLoadCapacity = s.table.maxLoadCapacity) (fun _ => True) := by
  have hinsensitive : Insensitive fun t : Table τ =>
      t.bucketCount = s.table.bucketCount ∧ t.maxLoadCapacity = s.table.maxLoadCapacity :=
    ⟨fun _ _ _ _ h => h, fun _ _ h => h⟩
  have hkeeps := Action.Keeps.post (keeps_clear hinsensitive.steady fun _ _ h => h) (s := s)
    ⟨rfl, rfl⟩
  have hiter : Action.Post Stuck.anyhow clear s (fun _ s' => s'.table.iteration = [])
      (fun _ => True) := by
    unfold clear
    rw [post_getTable]
    split
    · next h => exact h.1
    · refine Action.Post.bind (Action.Keeps.post (I := fun _ => True) (fun _ _ => trivial) trivial)
        (fun _ h' => h') fun _ s' _ => ?_
      rw [post_modifyTable_last]
  exact (hiter.and hkeeps).mono (fun _ _ h' => h') (fun _ _ => trivial) fun _ h' => h'

/-! ## Assignment between tables -/

/-- The part of both assignments that keeps the buckets of the receiver: the receiver is
cleared, adopts the other load factor, and `rest` runs. -/
theorem post_clear_adopt {β : Type} {t source : Table τ}
    {rest : Unit → Action (World τ) β} {Q : β → World τ → Prop} {E : World τ → Prop}
    (ht : w.table? i = some t) (hE : ∀ w', E w')
    (hrest : ∀ s' : Store τ, s'.table.iteration = [] →
      s'.table.bucketCount = t.bucketCount → s'.table.maxLoadCapacity = t.maxLoadCapacity →
      s'.table.maxLoadFactor = source.maxLoadFactor →
      Action.Post Stuck.anyhow (rest ()) (withStore w i s') Q E) :
    Action.Post Stuck.anyhow (onTable i clear >>= fun _ =>
      onTable i (modifyTable fun t => t.adoptPolicy source) >>= rest) w Q E := by
  refine post_onTable_bind (fun t1 ht1 => ?_) fun _ => trivial
  rw [ht] at ht1
  cases ht1
  refine clear_empties.mono ?_ (fun _ _ => hE _) fun _ h' => h'
  rintro ⟨⟩ s2 ⟨hiter, hcount, hcapacity⟩
  refine post_modify_onTable (table?_withStore_self ht s2) ?_
  rw [withStore_withStore]
  exact hrest _ hiter hcount hcapacity rfl

/-- The receiver and the source of a copy assignment. -/
def copyOperands : WorldOp τ → Option (ℕ × ℕ)
  | .copyAssign this other => some (this, other)
  | _ => none

/-- A copy assignment from an empty table to one that keeps its buckets and whose threshold
is another one under the load factor it adopts. -/
def AdoptsStale (op : WorldOp τ) (w : World τ) : Prop :=
  ∃ operands ∈ copyOperands op, operands.1 ≠ operands.2 ∧
    ∃ t ∈ w.table? operands.1, ∃ source ∈ w.table? operands.2,
      source.iteration = [] ∧ t.bucketCount ≠ 0 ∧
        ¬ (τ.pocca = true ∧ t.allocator ≠ source.allocator) ∧
        computeLoadCapacity source.maxLoadFactor t.bucketCount ≠
          computeLoadCapacity t.maxLoadFactor t.bucketCount

instance (op : WorldOp τ) (w : World τ) : Decidable (AdoptsStale op w) :=
  inferInstanceAs (Decidable (∃ operands ∈ copyOperands op, _))

theorem copyAssign_current {this other : ℕ} (hw : Everywhere CapacityCurrent w)
    (hstep : ¬ AdoptsStale (.copyAssign this other) w) :
    Action.Post Stuck.anyhow (copyAssign this other) w (fun _ => Everywhere CapacityCurrent)
      (fun _ => True) := by
  have hr : Robust (CapacityCurrent : Table τ → Prop) := robust_capacityCurrent
  have hkeeps : ∀ {x : Action (World τ) Unit} {w' : World τ},
      Action.Keeps (Everywhere CapacityCurrent) x → Everywhere CapacityCurrent w' →
        Action.Post Stuck.anyhow x w' (fun _ => Everywhere CapacityCurrent) (fun _ => True) :=
    fun hx hw' => (hx.post hw').mono (fun _ _ h' => h') (fun _ _ => trivial) fun _ h' => h'
  unfold copyAssign
  by_cases hne : this = other
  · rw [if_pos hne]
    exact hw
  rw [if_neg hne]
  refine post_readTable (fun source hsource => ?_) fun _ => trivial
  refine post_readTable (fun t ht => ?_) fun _ => trivial
  by_cases hafresh : τ.pocca = true ∧ t.allocator ≠ source.allocator
  · rw [if_pos hafresh]
    refine hkeeps (Action.Keeps.bind (keeps_onTable_everywhere
      (keeps_destroyEverything hr.steady)) fun _ => Action.Keeps.bind
        (keeps_onTable_everywhere (keeps_modifyTable fun _ _ => rfl)) fun _ =>
          hr.upheld.bare.copyContentsFrom) hw
  · rw [if_neg hafresh]
    refine post_modify_onTable ht ?_
    refine post_clear_adopt (table?_withStore_self ht _) (fun _ => trivial)
      fun s' hiter hcount hcapacity hfactor => ?_
    rw [withStore_withStore]
    have hsame : ∀ {α : Type} (g : Table τ → α), (∀ a, g { t with allocator := a } = g t) →
        g (if τ.pocca then { t with allocator := source.allocator } else t) = g t := by
      intro α g hg
      cases τ.pocca with
      | true => exact hg _
      | false => rfl
    rw [hsame Table.bucketCount fun _ => rfl] at hcount
    rw [hsame Table.maxLoadCapacity fun _ => rfl] at hcapacity
    have hself := table?_withStore_self ht s'
    have hold := hw this t ht
    unfold copyContentsFrom
    refine post_readTable (fun source' hsource' => ?_) fun _ => trivial
    rw [table?_withStore_of_ne hne, hsource] at hsource'
    cases hsource'
    split
    · next hempty =>
        -- nothing is copied, so the threshold stays what it was
        refine eachTable_withStore ht hw ?_ fun _ _ _ h' => h'
        unfold CapacityCurrent at hold ⊢
        rw [hcount, hcapacity, hfactor, hold]
        by_cases h0 : t.bucketCount = 0
        · rw [if_pos h0, if_pos h0]
        · rw [if_neg h0, if_neg h0]
          by_contra hdiff
          exact hstep ⟨_, rfl, hne, t, ht, source, hsource, hempty, h0, hafresh,
            fun heq => hdiff heq.symm⟩
    · refine post_onTable_bind (fun t' ht' => ?_) fun _ => trivial
      rw [hself] at ht'
      cases ht'
      refine (reserve_current source.size hiter fun h0 => ?_).mono ?_ (fun _ _ => trivial)
        fun _ h' => h'
      · show s'.table.maxLoadCapacity = 0
        have h0' : t.bucketCount = 0 := hcount.symm.trans h0
        unfold CapacityCurrent at hold
        rw [hcapacity, hold, if_pos h0']
      · rintro ⟨⟩ s2 h2
        rw [withStore_withStore]
        refine hkeeps (Action.Keeps.forEach fun node _ => ?_)
          (eachTable_withStore ht hw h2 fun _ _ _ h' => h')
        exact Action.Keeps.bind (hr.upheld.bare.elementAt _) fun _ =>
          Action.Keeps.bind (hr.upheld.bare.insert _) fun _ => Action.Keeps.pure _

theorem moveAssign_current {this other : ℕ} (hw : Everywhere CapacityCurrent w) :
    Action.Post Stuck.anyhow (moveAssign this other) w (fun _ => Everywhere CapacityCurrent)
      (fun _ => True) := by
  have hr : Robust (CapacityCurrent : Table τ → Prop) := robust_capacityCurrent
  have hkeeps : ∀ {x : Action (World τ) Unit} {w' : World τ},
      Action.Keeps (Everywhere CapacityCurrent) x → Everywhere CapacityCurrent w' →
        Action.Post Stuck.anyhow x w' (fun _ => Everywhere CapacityCurrent) (fun _ => True) :=
    fun hx hw' => (hx.post hw').mono (fun _ _ h' => h') (fun _ _ => trivial) fun _ h' => h'
  unfold moveAssign
  by_cases hne : this = other
  · rw [if_pos hne]
    exact hw
  rw [if_neg hne]
  refine post_readTable (fun source hsource => ?_) fun _ => trivial
  refine post_readTable (fun t ht => ?_) fun _ => trivial
  split
  · exact hkeeps (Action.Keeps.bind (keeps_onTable_everywhere
      (keeps_destroyEverything hr.steady)) fun _ => Action.Keeps.bind
        (keeps_onTable_everywhere (keeps_modifyTable fun _ ht =>
          hr.upheld.moveAssign_transfer ht)) fun _ => hr.upheld.stealStorage) hw
  · refine post_clear_adopt ht (fun _ => trivial) fun s' hiter hcount hcapacity _ => ?_
    have hself := table?_withStore_self ht s'
    have hold := hw this t ht
    unfold moveContentsFrom
    refine post_readTable (fun source' _ => ?_) fun _ => trivial
    refine post_onTable_bind (fun t' ht' => ?_) fun _ => trivial
    rw [hself] at ht'
    cases ht'
    refine (reserve_current source'.size hiter fun h0 => ?_).mono ?_ (fun _ _ => trivial)
      fun _ h' => h'
    · show s'.table.maxLoadCapacity = 0
      have h0' : t.bucketCount = 0 := hcount.symm.trans h0
      unfold CapacityCurrent at hold
      rw [hcapacity, hold, if_pos h0']
    · rintro ⟨⟩ s2 h2
      rw [withStore_withStore]
      exact hkeeps (hr.upheld.bare.moveEach _) (eachTable_withStore ht hw h2 fun _ _ _ h' => h')

/-! ## Runs -/

/-- In every run without exceptions in which no table that keeps its buckets is
copy-assigned from an empty table under whose load factor its threshold is another one,
the cached threshold of every table is current in every state. -/
theorem capacityCurrent_of_run (hrun : Run World.empty steps w)
    (hsteps : EachStep (fun w1 step => (step.exec.run w1).1 ≠ .thrown ∧
      ¬ AdoptsStale step.op w1) World.empty steps) {t : Table τ} (ht : w.table? i = some t) :
    CapacityCurrent t := by
  have hall : Everywhere CapacityCurrent w := by
    refine Run.invariant hrun ?_ ?_ hsteps
    · exact eachTable_empty _
    · rintro w1 step w2 hw ⟨hthrow, hstep⟩ hends
      have hpost : Action.Post Stuck.anyhow step.op.exec (started step w1)
          (fun _ => Everywhere CapacityCurrent) (fun _ => True) :=
        WorldOp.post_everywhere robust_capacityCurrent step.op hw (fun _ _ => trivial)
          (fun _ _ _ _ _ _ => rfl) (fun _ _ _ t h' => capacityCurrent_withFactor t _ h')
          (fun this other hop => copyAssign_current hw (by rw [← hop]; exact hstep))
          (fun this other _ => moveAssign_current hw)
      rcases Step.ends_post hpost hends with h' | ⟨hthrown, -⟩
      · exact h'
      · exact absurd (by rw [hthrown]) hthrow
  exact hall i t ht

/-- Two tables of different load factors, of which the second has an element. -/
def copySteps : List (Step NatMap) :=
  [⟨.construct 0 (fun k => UInt64.ofNat k) (fun a b => a == b) (), none⟩,
    ⟨.construct 0 (fun k => UInt64.ofNat k) (fun a b => a == b) (), none⟩,
    ⟨.table 0 (.insert (1, 10)), none⟩, ⟨.table 1 (.maxLoadFactor (.finite (1 / 2) rfl)), none⟩,
    ⟨.table 1 (.insert (2, 20)), none⟩, ⟨.copyAssign 0 1, none⟩]

theorem capacityCurrent_of_run_copy :
    CapacityCurrent (((finish World.empty copySteps).table? 0).get (by decide +kernel)) :=
  have hsteps : EachStep Step.Completes World.empty copySteps := by decide +kernel
  capacityCurrent_of_run (i := 0) (run_of_completes hsteps) (by decide +kernel)
    (Option.some_get _).symm

/-- The same tables, but the second one is empty. -/
def staleSteps : List (Step NatMap) :=
  [⟨.construct 0 (fun k => UInt64.ofNat k) (fun a b => a == b) (), none⟩,
    ⟨.construct 0 (fun k => UInt64.ofNat k) (fun a b => a == b) (), none⟩,
    ⟨.table 0 (.insert (1, 10)), none⟩, ⟨.table 1 (.maxLoadFactor (.finite (1 / 2) rfl)), none⟩,
    ⟨.copyAssign 0 1, none⟩]

/-- The receiver has 8 buckets and the load factor 1/2, but still the threshold 6. -/
theorem copy_of_empty_leaves_stale :
    Run World.empty staleSteps (finish World.empty staleSteps) ∧
      EachStep (fun w1 step => (step.exec.run w1).1 ≠ .thrown) World.empty staleSteps ∧
      ∃ t ∈ (finish World.empty staleSteps).table? 0,
        t.bucketCount = 8 ∧ t.maxLoadCapacity = 6 ∧
          computeLoadCapacity t.maxLoadFactor 8 = 4 ∧ ¬ CapacityCurrent t :=
  ⟨run_of_completes (by decide +kernel), by decide +kernel, by decide +kernel⟩

end Fum.Interface
