import Fum.Analysis.Iteration
import Fum.Analysis.Runs
import Fum.Model.Instances

/-!
# The arena and the iteration vector in every reachable state

Whatever a program did to its tables, and whatever its functors answered, the slots of
each table below the high-water mark are live or free, and iteration visits the live ones.
-/

set_option autoImplicit false

namespace Fum.Interface

open Fum.Model Fum.Analysis Effects

variable {τ : Traits}

/-- The arena and the iteration vector of a table are in order. -/
structure ArenaInOrder (t : Table τ) : Prop where
  /-- The free list ends, without a repetition, and it and the live slots split the slots
  below the high-water mark. -/
  split : ∃ free, FreeList (link t) t.freeListHead free ∧ free.Nodup ∧
    (∀ slot ∈ free, slot ∉ t.iteration) ∧
    ∀ slot, slot < t.arenaHighWater ↔ slot ∈ t.iteration ∨ slot ∈ free
  /-- The live slots are those that hold an element. -/
  live : ∀ slot, (t.nodeAt slot).storage.isSome ↔ slot ∈ t.iteration
  listedOnce : t.iteration.Nodup
  position : ∀ (p : ℕ) slot, t.iteration[p]? = some slot → (t.nodeAt slot).aux = p
  covered : t.arenaHighWater ≤ t.chunks.length * 1024
  /-- `acquire_node` hands out no live slot. -/
  acquire : ∀ (heap : Heap) slot s', (acquireNode : Exec τ ℕ).run ⟨t, heap⟩ = (.ok slot, s') →
    (t.nodeAt slot).storage = none
  /-- An iteration from `begin()` to `end()` visits the live slots. -/
  traversal : t.traversal = some t.iteration

theorem arenaInOrder_of_slots {t : Table τ} (h : Slots t []) (hf : Filled t t.iteration)
    (hmax : t.size ≤ maxSize) : ArenaInOrder t where
  split := by
    obtain ⟨free, hfree, hperm⟩ := h.split
    rw [List.append_nil] at hperm
    have hnodup : (t.iteration ++ free).Nodup := hperm.nodup_iff.mpr List.nodup_range
    obtain ⟨-, hfreeNodup, hdisj⟩ := List.nodup_append.mp hnodup
    refine ⟨free, hfree, hfreeNodup, fun slot hs hi => hdisj slot hi slot hs rfl, fun slot => ?_⟩
    rw [← List.mem_range, ← hperm.mem_iff, List.mem_append]
  live := hf
  listedOnce := h.iteration_nodup
  position := h.position
  covered := h.covered
  acquire heap slot s' hrun := by
    have hacquired : Acquired ⟨t, heap⟩ slot s' :=
      Action.Post.ok_of_run (U := Stuck.anyhow) (acquireNode_spec h hmax) hrun
    have hnot := hacquired.slots.not_mem
    rw [hacquired.iteration] at hnot
    cases hs : (t.nodeAt slot).storage with
    | none => rfl
    | some e => exact absurd ((hf slot).mp (by rw [hs]; rfl)) hnot
  traversal := h.traversal fun slot hslot => (hf slot).mpr hslot

/-- In every state that a program reaches, with at most `max_size()` elements in a table at
any time, every table has its arena and its iteration vector in order. -/
theorem arenaInOrder_of_run {w : World τ} {steps : List (Step τ)}
    (hrun : Run World.empty steps w) (hsteps : EachStep Ordinary World.empty steps)
    {i : ℕ} {t : Table τ} (ht : w.table? i = some t) : ArenaInOrder t := by
  obtain ⟨⟨lost, h⟩, hmax⟩ := run_sound hrun hsteps
  obtain ⟨hslots, hfilled⟩ := h.tables i t ht
  exact arenaInOrder_of_slots hslots hfilled (hmax i t ht)

/-- A table that grows, loses its first element and reuses the slot. -/
def reuseSteps : List (Step NatMap) :=
  [⟨.construct 0 (fun k => UInt64.ofNat k) (fun a b => a == b) (), none⟩,
    ⟨.table 0 (.insert (1, 10)), none⟩, ⟨.table 0 (.insert (2, 20)), none⟩,
    ⟨.table 0 (.insert (3, 30)), some (.construct, 0)⟩, ⟨.table 0 (.eraseKey 1), none⟩,
    ⟨.table 0 (.insert (4, 40)), none⟩]

theorem arenaInOrder_of_run_reuse :
    ArenaInOrder (((finish World.empty reuseSteps).table? 0).get (by decide +kernel)) :=
  have hsteps : EachStep Step.Completes World.empty reuseSteps := by decide +kernel
  arenaInOrder_of_run (i := 0) (run_of_completes hsteps) (by decide +kernel)
    (Option.some_get _).symm

end Fum.Interface
