import Fum.Analysis.LoadFactors
import Fum.Interface.CapacityCurrent

/-!
# Insertions and the load factor in force

`reserve_for_one_more` grows the bucket array once: to 8 buckets from none, and else to
twice the buckets there are. Whether this is enough for the load factor in force depends on
the factor and on the size, and nothing checks it.
-/

set_option autoImplicit false

namespace Fum.Interface

open Fum.Model Fum.Analysis Effects RoundedArithmetic

variable {τ : Traits}

/-! ## One insertion -/

/-- A table with a load factor below one holds no more elements than its buckets allow, and
no more than the threshold for its buckets. -/
def RespectsFactor (t : Table (exactly τ)) : Prop :=
  match t.maxLoadFactor with
  | .infinity => True
  | .finite z _ _ => z < 1 → (t.size : ℚ) ≤ z * t.bucketCount ∧
      t.size ≤ computeLoadCapacity t.maxLoadFactor t.bucketCount

/-- The buckets there are after room has been made for one more element are enough for the
load factor: 8 for a table without buckets, twice as many for one that has reached its
threshold, and else those it has. -/
def GrowthSuffices (t : Table (exactly τ)) : Prop :=
  match t.maxLoadFactor with
  | .infinity => True
  | .finite z _ _ => z < 1 →
      if t.bucketCount = 0 then (t.size + 1 : ℚ) ≤ z * 8
      else if t.maxLoadCapacity < t.size + 1 then (t.size + 1 : ℚ) ≤ z * (t.bucketCount * 2)
      else (t.size + 1 : ℚ) ≤ z * t.bucketCount

section

variable {t t' : Table (exactly τ)} {z : ℚ} {pos : 0 < z}
  {represented : Rounding.exact.round z = z}

theorem respectsFactor_iff (h : t.maxLoadFactor = .finite z pos represented) :
    RespectsFactor t ↔ (z < 1 → (t.size : ℚ) ≤ z * t.bucketCount) := by
  unfold RespectsFactor
  rw [h]
  refine forall_congr' fun hz => ?_
  rw [le_computeLoadCapacity_iff hz, and_self]

instance (t : Table (exactly τ)) : Decidable (RespectsFactor t) :=
  match h : t.maxLoadFactor with
  | .infinity => isTrue (by unfold RespectsFactor; rw [h]; trivial)
  | .finite _ _ _ => decidable_of_iff _ (respectsFactor_iff h).symm

theorem growthSuffices_iff (h : t.maxLoadFactor = .finite z pos represented) :
    GrowthSuffices t ↔ (z < 1 → (t.size + 1 : ℚ) ≤ z * countForOneMore t) := by
  unfold GrowthSuffices countForOneMore
  rw [h]
  refine forall_congr' fun _ => ?_
  split_ifs
  · rw [show ((kInitialBucketCount : ℕ) : ℚ) = 8 from rfl]
  · push_cast
    rfl
  · rfl

theorem growthSuffices_of_infinity (h : t.maxLoadFactor = .infinity) : GrowthSuffices t := by
  unfold GrowthSuffices
  rw [h]
  trivial

/-- What an insertion leaves behind respects the load factor if and only if the growth was
enough. -/
theorem respectsFactor_iff_growthSuffices (h : Enlarged t t') :
    RespectsFactor t' ↔ GrowthSuffices t := by
  cases hfactor : t.maxLoadFactor with
  | infinity =>
      refine iff_of_true ?_ (growthSuffices_of_infinity hfactor)
      unfold RespectsFactor
      rw [h.factor, hfactor]
      trivial
  | finite z pos represented =>
      rw [respectsFactor_iff (h.factor.trans hfactor), growthSuffices_iff hfactor, h.size,
        h.growth.bucketCount]
      push_cast
      rfl

/-- A table whose threshold is current has buckets enough as long as it need not grow. -/
theorem growthSuffices_of_current (hcurrent : CapacityCurrent t) (hg : ¬ NeedsGrowth t) :
    GrowthSuffices t := by
  obtain ⟨hne, hle⟩ := not_or.mp hg
  cases hfactor : t.maxLoadFactor with
  | infinity => exact growthSuffices_of_infinity hfactor
  | finite z pos represented =>
      rw [growthSuffices_iff hfactor]
      intro hz
      unfold CapacityCurrent at hcurrent
      rw [if_neg hne, hfactor] at hcurrent
      have hcap : t.size + 1 ≤ computeLoadCapacity (.finite z pos represented) t.bucketCount :=
        hcurrent ▸ not_lt.mp hle
      rw [le_computeLoadCapacity_iff hz] at hcap
      unfold countForOneMore
      rw [if_neg hne, if_neg hle]
      exact_mod_cast hcap

/-- A table with elements that respects its load factor has buckets enough once they are
doubled. -/
theorem growthSuffices_of_respectsFactor (h : RespectsFactor t) (hcurrent : CapacityCurrent t)
    (hne : t.bucketCount ≠ 0) (hsize : t.size ≠ 0) : GrowthSuffices t := by
  by_cases hg : NeedsGrowth t
  · have hlt := hg.resolve_left hne
    cases hfactor : t.maxLoadFactor with
    | infinity => exact growthSuffices_of_infinity hfactor
    | finite z pos represented =>
        rw [respectsFactor_iff hfactor] at h
        rw [growthSuffices_iff hfactor]
        intro hz
        have hle := h hz
        have hone : (1 : ℚ) ≤ t.size := Nat.one_le_cast.mpr (Nat.pos_of_ne_zero hsize)
        unfold countForOneMore
        rw [if_neg hne, if_pos hlt]
        push_cast
        linarith
  · exact growthSuffices_of_current hcurrent hg

end

/-! ## Room for one more element -/

/-- A table with a load factor below one is within its threshold with one element more. -/
def HasRoomForOne (t : Table (exactly τ)) : Prop :=
  match t.maxLoadFactor with
  | .infinity => True
  | .finite z _ _ => z < 1 → t.size + 1 ≤ computeLoadCapacity t.maxLoadFactor t.bucketCount

/-- The room that has been made is enough if and only if the growth was. -/
theorem hasRoomForOne_iff_growthSuffices {t t' : Table (exactly τ)} (h : MadeRoom t t') :
    HasRoomForOne t' ↔ GrowthSuffices t := by
  unfold HasRoomForOne
  rw [h.factor, h.size, h.growth.bucketCount]
  cases hfactor : t.maxLoadFactor with
  | infinity => exact iff_of_true trivial (growthSuffices_of_infinity hfactor)
  | finite z pos represented =>
      rw [growthSuffices_iff hfactor]
      refine forall_congr' fun hz => ?_
      rw [le_computeLoadCapacity_iff hz]
      push_cast
      rfl

/-- For every table: what `reserve_for_one_more` leaves has room for one element more, and an
insertion that adds an element leaves the load factor in force respected, if and only if the one
growth there is suffices. Ranges, lists, copies, moved elements and merges are inserted one by
one, with `emplace`. -/
theorem insertion_respects_factor_iff (t : Table (exactly τ)) (heap : Heap) :
    (∀ s', reserveForOneMore.run ⟨t, heap⟩ = (.ok (), s') →
      (HasRoomForOne s'.table ↔ GrowthSuffices t)) ∧
    ∀ (x : Insertion (exactly τ)) (s' : Store (exactly τ)),
      x.exec.run ⟨t, heap⟩ = (.ok true, s') → (RespectsFactor s'.table ↔ GrowthSuffices t) := by
  refine ⟨fun s' hrun => ?_, fun x s' hrun => ?_⟩
  · exact hasRoomForOne_iff_growthSuffices
      ((reserveForOneMore_sizes (s := ⟨t, heap⟩) (SizedAt.refl t)).ok_of_run hrun)
  · have henlarged := (x.exec_enlarged ⟨t, heap⟩).ok_of_run hrun
    rw [if_pos rfl] at henlarged
    exact respectsFactor_iff_growthSuffices henlarged

/-- A new table with the load factor 1/16. -/
def sparseSteps : List (Step (exactly NatMap)) :=
  [⟨.construct 0 (fun k => UInt64.ofNat k) (fun a b => a == b) (), none⟩,
    ⟨.table 0 (.maxLoadFactor (.finite (1 / 16) rfl)), none⟩]

theorem sparse_made : ((finish World.empty sparseSteps).table? 0).isSome := by decide +kernel

/-- It gets 8 buckets for its first element, where the factor asks for 16. -/
theorem first_insertion_exceeds_factor :
    Run World.empty sparseSteps (finish World.empty sparseSteps) ∧
      ∃ s', (Insertion.emplace (1, 10)).exec.run
          ⟨((finish World.empty sparseSteps).table? 0).get sparse_made,
            (finish World.empty sparseSteps).heap⟩ = (.ok true, s') ∧
        s'.table.size = 1 ∧ s'.table.bucketCount = 8 ∧ ¬ RespectsFactor s'.table :=
  ⟨run_of_completes (by decide +kernel), _, Prod.ext (by decide +kernel) rfl, by decide +kernel,
    by decide +kernel, by decide +kernel⟩

end Fum.Interface
