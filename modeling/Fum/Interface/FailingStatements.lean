import Fum.Analysis.AbandonedCalls
import Fum.Interface.ProgramRefinement

/-!
# Programs whose statements fail

A program that catches its exceptions goes on with containers and nodes that still are maps and
nodes: what a statement that failed has done is what it means for maps when it is abandoned
after some number of elements. Calls that deal with one element leave no trace.
-/

set_option autoImplicit false

namespace Fum.Interface

open Fum.Model Fum.Analysis Effects DenseMap

variable {τ : Traits} {w w' w0 : World τ} {i j h : ℕ} {t u : Table τ} {s : Store τ}
  {alloc : τ.Alloc} {steps : List (Step τ)}

/-! ## Objects whose construction fails -/

/-- The construction of a table after those of `w0` has failed. -/
def Stillborn (w0 w : World τ) : Prop := w.tables = w0.tables ++ [none] ∧ w.handles = w0.handles

/-- The exception leaves elements behind that are all in their tables. -/
def Gentle (w : World τ) (fault : Option (Point × ℕ)) : WorldOp τ → Prop
  | .construct _ _ _ _ | .constructRange _ _ _ _ _ | .copyConstruct _
  | .copyConstructWith _ _ => True
  | .table i op => ∀ t ∈ w.table? i, SafeFault t op fault
  | .assignValues _ _ | .copyAssign _ _ => Undoable fault
  | .merge _ _ | .insertHandle _ _ _ => Untouched fault
  | _ => False

instance (w : World τ) (fault : Option (Point × ℕ)) : ∀ op, Decidable (Gentle w fault op)
  | .construct _ _ _ _ | .constructRange _ _ _ _ _ | .copyConstruct _
  | .copyConstructWith _ _ => isTrue trivial
  | .table i op => inferInstanceAs (Decidable (∀ t ∈ w.table? i, SafeFault t op fault))
  | .assignValues _ _ | .copyAssign _ _ => inferInstanceAs (Decidable (Undoable fault))
  | .merge _ _ | .insertHandle _ _ _ => inferInstanceAs (Decidable (Untouched fault))
  | .moveConstruct _ | .moveConstructWith _ _ | .destroy _ | .moveAssign _ _ | .swap _ _
  | .handleDefault | .handleMove _ | .handleAssign _ _ | .handleSwap _ _ | .handleDestroy _ =>
      isFalse id

theorem Stillborn.sturdy (h : Stillborn w0 w) (hw : Everywhere Sturdy w0) :
    Everywhere Sturdy w := by
  intro k t ht
  unfold World.table? at ht
  rw [h.1] at ht
  rcases lt_or_ge k w0.tables.length with hlt | hge
  · rw [List.getElem?_append_left hlt] at ht
    exact hw k t ht
  · rw [List.getElem?_append_right hge] at ht
    cases hk : k - w0.tables.length <;> rw [hk] at ht <;> cases ht

theorem Stillborn.asMaps (h : Stillborn w0 w) :
    Analysis.asMaps w = (Analysis.asMaps w0).addDead := by
  unfold Analysis.asMaps MapWorld.addDead
  rw [h.1, h.2, List.map_append]
  rfl

end Fum.Interface
