import Fum.Analysis.FieldInvariants
import Fum.Analysis.Resizing

/-!
# Without exceptions

When no exception is due, the calls that prepare a table for new contents leave it so.
-/

set_option autoImplicit false

namespace Fum.Analysis

open Fum.Model Effects

variable {τ : Traits} {α : Type} {U : Stuck → Prop} {s : Store τ} {x : Exec τ α}

/-- No exception is due. -/
def Silent (s : Store τ) : Prop := s.heap.fault = none

theorem silent_mayThrow (p : Point) : Action.Keeps (Silent : Store τ → Prop) (mayThrow p) := by
  intro s hs
  have hfault : s.heap.fault = none := hs
  simpa only [mayThrow, hfault] using hs

theorem silent_callMixedHash (key : τ.Key) :
    Action.Keeps (Silent : Store τ → Prop) (callMixedHash key) :=
  (silent_mayThrow _).bind fun _ => keeps_getTable.bind fun _ => Action.Keeps.pure _

theorem silent_placeAndShiftUp (word index node : ℕ) :
    Action.Keeps (Silent : Store τ → Prop) (placeAndShiftUp word index node) :=
  keeps_getTable.bind fun _ => keeps_getCells.bind fun _ => (keeps_ended _).bind fun _ _ h => h

theorem silent_deallocateBuckets :
    Action.Keeps (Silent : Store τ → Prop) (deallocateBuckets : Exec τ Unit) := by
  refine keeps_getTable.bind fun t => ?_
  cases t.buckets with
  | none => exact Action.Keeps.pure _
  | some array => exact Action.Keeps.bind (fun _ h => h) fun _ _ h => h

theorem silent_rehashTo (n : ℕ) : Action.Keeps (Silent : Store τ → Prop) (rehashTo n) := by
  have hallocate : Action.Keeps (Silent : Store τ → Prop) (allocateBuckets n) :=
    (silent_mayThrow _).bind fun _ _ h => h
  refine keeps_getTable.bind fun t => Action.Keeps.bind (fun _ h => h) fun _ =>
    silent_deallocateBuckets.bind fun _ => hallocate.bind fun _ =>
      Action.Keeps.forEach fun node _ => ?_
  exact (keeps_keyAt node).bind fun key => (silent_callMixedHash key).bind fun _ =>
    keeps_getTable.bind fun _ => silent_placeAndShiftUp _ _ _

theorem silent_reserve (n : ℕ) : Action.Keeps (Silent : Store τ → Prop) (reserve n) := by
  have hrehash : ∀ m, Action.Keeps (Silent : Store τ → Prop) (rehash m) := fun m =>
    keeps_getTable.bind fun _ => (keeps_defined _).bind fun _ => Action.Keeps.ite
      (Action.Keeps.ite (silent_deallocateBuckets.bind fun _ _ h => h) (Action.Keeps.pure _))
      ((keeps_defined _).bind fun _ => silent_rehashTo _)
  exact keeps_getTable.bind fun _ => (keeps_defined _).bind fun _ => hrehash _

theorem silent_destroyAllValues :
    Action.Keeps (Silent : Store τ → Prop) (destroyAllValues : Exec τ Unit) := by
  refine keeps_getTable.bind fun t => Action.Keeps.forEach fun node _ => ?_
  exact (keeps_elementAt node).bind fun _ => Action.Keeps.bind (fun _ h => h) fun _ _ h => h

theorem silent_clear : Action.Keeps (Silent : Store τ → Prop) (clear : Exec τ Unit) :=
  keeps_getTable.bind fun _ => Action.Keeps.ite (Action.Keeps.pure _)
    (silent_destroyAllValues.bind fun _ _ h => h)

theorem silent_destroyEverything :
    Action.Keeps (Silent : Store τ → Prop) (destroyEverything : Exec τ Unit) := by
  have hchunks : Action.Keeps (Silent : Store τ → Prop) (deallocateChunks : Exec τ Unit) :=
    keeps_getTable.bind fun _ =>
      (Action.Keeps.forEach fun _ _ _ h => h).bind fun _ _ h => h
  exact silent_destroyAllValues.bind fun _ => silent_deallocateBuckets.bind fun _ => hchunks

/-- Such a call returns what it promises when no exception is due. -/
theorem post_silently {Q : α → Store τ → Prop} {E : Store τ → Prop}
    (hx : Action.Keeps (Silent : Store τ → Prop) x) (hpost : Action.Post U x s Q E)
    (hE : ∀ s', E s' → s.heap.fault ≠ none) (hquiet : s.heap.fault = none) :
    Action.Post U x s (fun a s' => Q a s' ∧ s'.heap.fault = none) (fun _ => False) :=
  (hpost.and (hx.post hquiet)).mono (fun _ _ h => h) (fun s' h => hE s' h.1 hquiet) fun _ h => h

end Fum.Analysis
