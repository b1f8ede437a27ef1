import Fum.Analysis.Handles
import Fum.Interface.ResourceBalance

/-!
# A handle deallocates with the allocator that allocated

A node handle stores an allocator even when it is empty. Where the allocators do not
propagate, a handle that was default-constructed keeps its own when it receives an element,
and deallocates with it.
-/

set_option autoImplicit false

namespace Fum.Interface

open Fum.Model Fum.Analysis Effects

variable {τ : Traits} {w : World τ} {steps : List (Step τ)} {a : τ.Alloc}

instance (w : World τ) (op : WorldOp τ) : Decidable (Mispairs w op) := by
  cases op
  case handleAssign this source => exact inferInstanceAs (Decidable (_ ∧ _ ∧ _))
  case handleSwap this source => exact inferInstanceAs (Decidable (_ ∧ _))
  all_goals exact isFalse id

/-- The condition is sharp: a statement that mispairs leaves a handle whose allocator is not
the one that allocated its element. -/
theorem unpaired_of_mispairs {op : WorldOp τ} (h : EveryHandle (Paired a) w)
    (hm : Mispairs w op) :
    Action.Post Stuck.anyhow op.exec w (fun _ w' => ¬ EveryHandle (Paired a) w')
      (fun _ => False) := by
  have hunequal : ∀ {x y : Handle τ}, Paired a x → x.value.isSome → y.allocator ≠ x.allocator →
      ¬ Paired a (⟨x.value, y.allocator⟩ : Handle τ) := by
    intro x y hx hvalue hne hp
    obtain ⟨cell, hcell⟩ := Option.isSome_iff_exists.mp hvalue
    exact hne ((hp cell hcell).1.trans (hx cell hcell).1.symm)
  cases op with
  | handleAssign this source =>
      obtain ⟨hpocma, hself, handle, hhandle, other, hother, hvalue, hne⟩ := hm
      show Action.Post Stuck.anyhow (handleAssign this source) _ _ _
      unfold handleAssign
      rw [if_neg hself]
      refine post_readHandle (fun handle' hhandle' => ?_) fun _ => trivial
      refine post_readHandle (fun other' hother' => ?_) fun _ => trivial
      cases hhandle.symm.trans hhandle'
      cases hother.symm.trans hother'
      intro hall
      refine hunequal (h source other hother) hvalue hne (hall this _ ?_)
      rw [handle?_setHandle_of_ne (Ne.symm hself)]
      refine (handle?_setHandle_self (show _ = some handle from hhandle)).trans ?_
      rw [hpocma]
      rfl
  | handleSwap this source =>
      obtain ⟨hpocs, handle, hhandle, other, hother, hvalue, hne⟩ := hm
      have hself : this ≠ source := by
        rintro rfl
        exact hne (congrArg Handle.allocator (Option.some.inj (hhandle.symm.trans hother)))
      show Action.Post Stuck.anyhow (handleSwap this source) _ _ _
      unfold handleSwap
      refine post_readHandle (fun handle' hhandle' => ?_) fun _ => trivial
      refine post_readHandle (fun other' hother' => ?_) fun _ => trivial
      cases hhandle.symm.trans hhandle'
      cases hother.symm.trans hother'
      intro hall
      rcases hvalue with hvalue | hvalue
      · refine hunequal (h this handle hhandle) hvalue (Ne.symm hne) (hall source _ ?_)
        refine (handle?_setHandle_self
          ((handle?_setHandle_of_ne hself _).trans hother)).trans ?_
        rw [hpocs]
        rfl
      · refine hunequal (h source other hother) hvalue hne (hall this _ ?_)
        rw [handle?_setHandle_of_ne (Ne.symm hself)]
        refine (handle?_setHandle_self hhandle).trans ?_
        rw [hpocs]
        rfl
  | _ => exact hm.elim

/-- In every run over tables with the allocator `a` in which no handle without propagation
receives an element from a handle with another allocator, the allocator of every non-empty
handle is the one that allocated its element, and `a`. If the exceptions of the run lose
nothing, every element and every cell is also given back at most once, and exactly once when
all objects are gone. -/
theorem handlesPaired_of_run (hrun : Run World.empty steps w)
    (hsteps : EachStep (fun w1 step => AllAllocators a w1 ∧ ¬ Mispairs w1 step.op)
      World.empty steps) :
    (∀ h handle, w.handle? h = some handle → ∀ cell ∈ handle.value,
      handle.allocator = cell.tag ∧ cell.tag = a) ∧
    (EachStep (fun w1 step => Ordinary w1 step ∧
      ((step.exec.run w1).1 = .thrown → LosesNothing step.op step.fault)) World.empty steps →
        LedgerBalances w) := by
  refine ⟨fun h handle hh cell hcell => ?_, fun hledger => ?_⟩
  · obtain ⟨halloc, htag⟩ := run_paired hrun hsteps h handle hh cell hcell
    exact ⟨halloc.trans htag.symm, htag⟩
  · refine ledgerBalances_of_sound (run_sound_of_losesNothing hrun (hledger.mono ?_))
    rintro w1 step ⟨ho, hclean⟩
    exact ⟨ho, fun w2 hthrown => hclean (by rw [hthrown])⟩

/-- An element goes from a table through two handles and back, and into a handle that is
default-constructed by a move. -/
def passedSteps : List (Step (CountedMap false false false)) :=
  [⟨.construct 0 (fun k => UInt64.ofNat k) (fun a b => a == b) 7, none⟩,
    ⟨.table 0 (.insert (1, 10)), none⟩, ⟨.table 0 (.insert (2, 20)), none⟩,
    ⟨.table 0 (.extractKey 1), none⟩, ⟨.handleMove 0, none⟩, ⟨.table 0 (.extractKey 2), none⟩,
    ⟨.handleSwap 1 2, none⟩, ⟨.insertHandle false 0 2, none⟩]

theorem handlesPaired_of_run_passed :
    (∀ h handle, (finish World.empty passedSteps).handle? h = some handle →
      ∀ cell ∈ handle.value, handle.allocator = cell.tag ∧ cell.tag = 7) ∧
    LedgerBalances (finish World.empty passedSteps) :=
  have h := handlesPaired_of_run (a := (7 : ℕ)) (run_of_completes (by decide +kernel))
    (by decide +kernel)
  ⟨h.1, h.2 (by decide +kernel)⟩

/-- A default-constructed handle receives the element of an extracted one. -/
def mispairedSteps : List (Step (CountedMap false false false)) :=
  [⟨.construct 0 (fun k => UInt64.ofNat k) (fun a b => a == b) 7, none⟩,
    ⟨.table 0 (.insert (1, 10)), none⟩, ⟨.table 0 (.extractKey 1), none⟩,
    ⟨.handleDefault, none⟩, ⟨.handleAssign 1 0, none⟩]

/-- The element of handle 1 was allocated by the allocator 7, and handle 1 will deallocate it
with the allocator 0. -/
theorem assigned_handle_is_mispaired :
    Run World.empty mispairedSteps (finish World.empty mispairedSteps) ∧
      EachStep (fun w1 _ => AllAllocators (7 : ℕ) w1) World.empty mispairedSteps ∧
      ∃ handle ∈ (finish World.empty mispairedSteps).handle? 1, ∃ cell ∈ handle.value,
        handle.allocator = 0 ∧ cell.tag = 7 :=
  ⟨run_of_completes (by decide +kernel), by decide +kernel, by decide +kernel⟩

end Fum.Interface
