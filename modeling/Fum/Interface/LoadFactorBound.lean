import Fum.Analysis.Runs
import Fum.Analysis.Thresholds
import Fum.Model.Instances

/-!
# The load factor of a program that never sets one

Under the default maximum, one growth is always enough: no table of such a program ever has
more elements than its threshold, nor a load factor above the maximum, whatever its functors
do and wherever its steps throw.
-/

set_option autoImplicit false

namespace Fum.Interface

open Fum.Model Fum.Analysis Effects RoundedArithmetic

variable {τ : Traits} {w w' : World τ} {steps : List (Step τ)} {i : ℕ} {t : Table τ}

/-- The statement is a call of `max_load_factor(z)`. -/
def setsFactor : WorldOp τ → Bool
  | .table _ (.maxLoadFactor _) => true
  | _ => false

/-- A step that sets no load factor leaves every table below its threshold. -/
theorem step_below {step : Step τ} (hstep : setsFactor step.op = false)
    (hw : Everywhere (Below (kDefaultMaxLoadFactor τ.rounding) 0) w) (hends : step.Ends w w') :
    Everywhere (Below (kDefaultMaxLoadFactor τ.rounding) 0) w' := by
  have hf : Ample (kDefaultMaxLoadFactor τ.rounding) := ample_default
  have hup : Upheld (Below (kDefaultMaxLoadFactor τ.rounding) 0 : Table τ → Prop) :=
    below_upheld hf
  have hpost : Action.Post Stuck.anyhow step.op.exec (started step w)
      (fun _ => Everywhere (Below (kDefaultMaxLoadFactor τ.rounding) 0))
      (Everywhere (Below (kDefaultMaxLoadFactor τ.rounding) 0)) :=
    hup.statement step.op hw (fun _ h' => h')
      (fun n hash equal alloc _ _ => construct_below n hash equal alloc)
      (fun i z hop => by rw [hop] at hstep; cases hstep)
      (fun _ _ _ => (hup.copyAssign fun _ _ ht ho => ht.adoptPolicy ho).post hw)
      (fun _ _ _ => (hup.moveAssign fun _ _ ht ho => ht.adoptPolicy ho).post hw)
  rcases Step.ends_post hpost hends with h' | ⟨-, h'⟩
  · exact h'
  · exact h'

/-- In every run in which no step sets a load factor, with any functors and any exceptions,
every table has the default maximum, no more elements than its threshold and a load factor
that does not exceed the maximum. -/
theorem load_factor_bounded (hrun : Run World.empty steps w)
    (hsteps : ∀ step ∈ steps, setsFactor step.op = false) (ht : w.table? i = some t) :
    t.maxLoadFactor = kDefaultMaxLoadFactor τ.rounding ∧ t.size ≤ t.maxLoadCapacity ∧
      t.loadFactor ≤ τ.rounding.round (4 / 5) := by
  have hall : Everywhere (Below (kDefaultMaxLoadFactor τ.rounding) 0) w :=
    Run.invariant hrun (eachTable_empty _) (fun _ _ _ hw hstep hends => step_below hstep hw hends)
      (eachStep_of_forall hsteps)
  have h := hall i t ht
  exact ⟨h.factor, h.size_le, h.loadFactor_le⟩

/-- A map that outgrows its 8 buckets, one insertion that fails while the new ones are filled,
and a copy. -/
def outgrownSteps : List (Step NatMap) :=
  [⟨.constructRange [(1, 10), (2, 20), (3, 30), (4, 40), (5, 50), (6, 60)] 0
      (fun k => UInt64.ofNat k) (fun a b => a == b) (), none⟩,
    ⟨.table 0 (.insert (7, 70)), some (.hash, 4)⟩, ⟨.table 0 (.insert (8, 80)), none⟩,
    ⟨.copyConstruct 0, none⟩, ⟨.table 1 (.eraseKey 3), none⟩]

theorem load_factor_bounded_outgrown :
    let t := ((finish World.empty outgrownSteps).table? 0).get (by decide +kernel)
    t.bucketCount = 16 ∧ t.size ≤ t.maxLoadCapacity ∧ t.loadFactor ≤ 4 / 5 := by
  have hsteps : EachStep Step.Completes World.empty outgrownSteps := by decide +kernel
  have hdefault : ∀ step ∈ outgrownSteps, setsFactor step.op = false := by decide
  have h := load_factor_bounded (i := 0) (run_of_completes hsteps) hdefault
    (Option.some_get (by decide +kernel)).symm
  exact ⟨by decide +kernel, h.2.1, h.2.2⟩

end Fum.Interface
