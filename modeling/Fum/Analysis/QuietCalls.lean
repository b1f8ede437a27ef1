import Fum.Analysis.Operations
import Fum.Analysis.Frames

/-!
# Calls that only look

When nothing throws, a lookup in a consistent table returns and leaves the store as it is.
-/

set_option autoImplicit false

namespace Fum.Analysis

open Fum.Model Effects

variable {τ : Traits} {α : Type} {s s' : Store τ} {key : τ.Key}

theorem run_callMixedHash (hquiet : s.heap.fault = none) (key : τ.Key) :
    (callMixedHash key).run s = (.ok (s.table.mixedHash key), s) := by
  have hpass : (mayThrow .hash).run s = (.ok (), s) := by simp [mayThrow, hquiet]
  unfold callMixedHash
  rw [Action.run_bind_ok _ hpass]
  rfl

theorem run_elementAt {x : ℕ} {e : Element τ} (he : (s.table.nodeAt x).storage = some e) :
    (elementAt x).run s = (.ok e, s) := by
  unfold elementAt
  rw [run_getTable, he]
  rfl

theorem run_keyAt {x : ℕ} {e : Element τ} (he : (s.table.nodeAt x).storage = some e) :
    (keyAt x).run s = (.ok (τ.keyOf e.value), s) := by
  unfold keyAt
  rw [Action.run_bind_ok _ (run_elementAt he)]
  rfl

theorem run_bucketAt {array : BucketArray τ} {index : ℕ} (harray : s.table.buckets = some array)
    (hlt : index < array.size) : (bucketAt index).run s = (.ok (array.cells index), s) := by
  unfold bucketAt
  rw [run_getTable, harray]
  simp only [if_pos hlt]
  rfl

theorem run_callKeyEqual (hquiet : s.heap.fault = none) (a b : τ.Key) :
    (callKeyEqual a b).run s = (.ok (s.table.keyEqual a b), s) := by
  have hpass : (mayThrow .equal).run s = (.ok (), s) := by simp [mayThrow, hquiet]
  unfold callKeyEqual
  rw [Action.run_bind_ok _ hpass]
  rfl

theorem Passes.eq_of_quiet {ps : List Point} (h : Passes ps s s') (hquiet : s.heap.fault = none) :
    s' = s := by
  have hfault : s'.heap.fault = none := h.fault.same (fun p _ => by rw [hquiet]; simp [faultPoint])
    |>.trans hquiet
  have hheap : s'.heap = s.heap := by
    rw [h.heap, hfault, ← hquiet, withFault_self]
  cases s
  cases s'
  cases h.table
  cases hheap
  rfl

/-- A call that passes throwing points and does nothing else. -/
theorem run_of_passes {ps : List Point} {x : Exec τ α} {Q : α → Store τ → Prop}
    {E : Store τ → Prop} (hspec : Action.Post Stuck.never x s Q E)
    (hframe : Action.Post Stuck.anyhow x s (fun _ => Passes ps s) (Throws ps s))
    (hE : ∀ s', ¬ E s') (hquiet : s.heap.fault = none) :
    ∃ a, x.run s = (.ok a, s) ∧ Q a s := by
  have hboth := (hspec.and hframe).mono (fun _ _ h => h) (fun s' h => hE s' h.1) fun _ h => h
  obtain ⟨a, s', hrun, hQ, hpasses⟩ := hboth.returns
  rw [hpasses.eq_of_quiet hquiet] at hrun hQ
  exact ⟨a, hrun, hQ⟩

theorem run_find (hc : Consistent s.table) (hroom : Room s.table) (hquiet : s.heap.fault = none)
    (key : τ.Key) : ∃ it, (find key).run s = (.ok it, s) ∧ Found s.table key it := by
  obtain ⟨it, hrun, -, hfound, -⟩ := run_of_passes (find_spec key hc hroom) (find_frame key)
    (fun s' h => h.fault hquiet) hquiet
  exact ⟨it, hrun, hfound⟩

theorem run_contains (hc : Consistent s.table) (hroom : Room s.table)
    (hquiet : s.heap.fault = none) (key : τ.Key) :
    ∃ answer, (contains key).run s = (.ok answer, s) ∧ Contained s.table key answer := by
  obtain ⟨answer, hrun, -, hcontained, -⟩ := run_of_passes (contains_spec key hc hroom)
    (contains_frame key) (fun s' h => h.fault hquiet) hquiet
  exact ⟨answer, hrun, hcontained⟩

end Fum.Analysis
