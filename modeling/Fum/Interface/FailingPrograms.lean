import Fum.Interface.FailingStatements

/-!
# A program that catches its exceptions

Some of the statements of a program throw, and it goes on after each. What its containers and
its node handles hold at the end is what maps and nodes hold when these statements have been
abandoned, each after some number of elements.
-/

set_option autoImplicit false

namespace Fum.Interface

open Fum.Model Fum.Analysis Effects

variable {τ : Traits} {w w' : World τ} {step : Step τ} {steps : List (Step τ)}

/-- The statement with its iterators looked up. -/
def Step.located (w : World τ) (step : Step τ) : Step τ :=
  ⟨WorldOp.located w step.op, step.fault⟩

/-- The statement in a handler that drops its exception. -/
def attempt (step : Step τ) : Action (World τ) Unit where
  run w := match (Step.located w step).exec.run w with
    | (.thrown, w') => (.ok (), w')
    | ended => ended

/-- The statement has a meaning for what the program holds. If it has a fault, it throws and
does no harm; if not, it asks for bucket counts within `std::size_t` and for vectors that can
change hands. -/
def Proceeds (w : World τ) (step : Step τ) : Prop :=
  (∃ m ∈ (asMaps w).after step.op, m.Roomy) ∧
    (step.fault.isSome → Gentle w step.fault step.op ∧
      ((Step.located w step).exec.run w).1 = .thrown) ∧
    (step.fault.isNone → Sizable w step.op ∧ HandsOver w step.op)

instance (w : World τ) (step : Step τ) : Decidable (Proceeds w step) :=
  inferInstanceAs (Decidable (_ ∧ _ ∧ _))

/-- Every statement proceeds from where the ones before it have led. -/
def ProceedsEach : World τ → List (Step τ) → Prop
  | _, [] => True
  | w, step :: rest => Proceeds w step ∧ ProceedsEach ((attempt step).run w).2 rest

instance ProceedsEach.decidable :
    ∀ (steps : List (Step τ)) (w : World τ), Decidable (ProceedsEach w steps)
  | [], _ => isTrue trivial
  | step :: rest, w =>
      @instDecidableAnd _ _ _ (ProceedsEach.decidable rest ((attempt step).run w).2)

end Fum.Interface
