import Fum.Analysis.Programs
import Fum.Analysis.TableInvariants

/-!
# Runs of a program

From a lemma about one statement to a lemma about every run, with a condition on the
steps that the run takes.
-/

set_option autoImplicit false

namespace Fum.Analysis

open Fum.Model Effects

variable {τ : Traits} {w w' : World τ} {steps : List (Step τ)}
  {I : World τ → Prop} {P : World τ → Step τ → Prop}

/-- The world in which the statement of a step runs. -/
def started (step : Step τ) (w : World τ) : World τ :=
  { w with heap := { w.heap with fault := step.fault } }

/-- The world that the steps lead to from `w`. -/
def finish : World τ → List (Step τ) → World τ
  | w, [] => w
  | w, step :: rest => finish (step.exec.run w).2 rest

/-- Every step from `w` on meets the condition in the state it starts from. -/
def EachStep (P : World τ → Step τ → Prop) : World τ → List (Step τ) → Prop
  | _, [] => True
  | w, step :: rest => P w step ∧ EachStep P (step.exec.run w).2 rest

instance EachStep.decidable [∀ w step, Decidable (P w step)] :
    ∀ (steps : List (Step τ)) (w : World τ), Decidable (EachStep P w steps)
  | [], _ => isTrue trivial
  | step :: rest, w =>
      @instDecidableAnd _ _ _ (EachStep.decidable rest (step.exec.run w).2)

theorem eachStep_append (more : List (Step τ)) :
    EachStep P w (steps ++ more) ↔ EachStep P w steps ∧ EachStep P (finish w steps) more := by
  induction steps generalizing w with
  | nil => exact (iff_of_eq (true_and _)).symm
  | cons step rest ih =>
      show P w step ∧ EachStep P (step.exec.run w).2 (rest ++ more) ↔
        (P w step ∧ EachStep P (step.exec.run w).2 rest) ∧ _
      rw [ih, and_assoc]
      rfl

theorem EachStep.mono {P' : World τ → Step τ → Prop} (h : EachStep P w steps)
    (hP : ∀ w step, P w step → P' w step) : EachStep P' w steps := by
  induction steps generalizing w with
  | nil => trivial
  | cons step rest ih => exact ⟨hP w step h.1, ih h.2⟩

theorem EachStep.and {P' : World τ → Step τ → Prop} (h : EachStep P w steps)
    (h' : EachStep P' w steps) : EachStep (fun w step => P w step ∧ P' w step) w steps := by
  induction steps generalizing w with
  | nil => trivial
  | cons step rest ih => exact ⟨⟨h.1, h'.1⟩, ih h.2 h'.2⟩

/-- A condition on the statements alone. -/
theorem eachStep_of_forall {P : Step τ → Prop} (h : ∀ step ∈ steps, P step) :
    EachStep (fun _ => P) w steps := by
  induction steps generalizing w with
  | nil => trivial
  | cons step rest ih =>
      exact ⟨h step List.mem_cons_self, ih fun s hs => h s (List.mem_cons_of_mem _ hs)⟩

theorem finish_append (more : List (Step τ)) :
    finish w (steps ++ more) = finish (finish w steps) more := by
  induction steps generalizing w with
  | nil => rfl
  | cons step rest ih => exact ih

theorem ends_next {step : Step τ} (h : step.Ends w w') : (step.exec.run w).2 = w' := by
  rcases h with h | h <;> rw [h]

theorem Run.append {w1 : World τ} {more : List (Step τ)} (hrun : Run w steps w1)
    (hmore : Run w1 more w') : Run w (steps ++ more) w' := by
  induction hmore with
  | nil => simpa using hrun
  | snoc _ hends ih =>
      rw [← List.append_assoc]
      exact Run.snoc ih hends

/-- A run leads where its steps lead. -/
theorem Run.finish (hrun : Run w steps w') : finish w steps = w' := by
  induction hrun with
  | nil => rfl
  | snoc hrun hends ih =>
      rw [finish_append, ih]
      exact ends_next hends

/-- What every step keeps that meets the condition, a run keeps whose steps meet it. -/
theorem Run.invariant (hrun : Run w steps w') (h0 : I w)
    (hstep : ∀ w1 step w2, I w1 → P w1 step → step.Ends w1 w2 → I w2)
    (hP : EachStep P w steps) : I w' := by
  induction hrun with
  | nil => exact h0
  | snoc hrun hends ih =>
      obtain ⟨hfront, hlast⟩ := (eachStep_append _).mp hP
      rw [Run.finish hrun] at hlast
      exact hstep _ _ _ (ih hfront) hlast.1 hends

/-- A condition on the steps that follows, in the states that a run reaches, from another
one. -/
theorem Run.eachStep {P' : World τ → Step τ → Prop} (hrun : Run w steps w')
    (hP : EachStep P w steps)
    (h : ∀ front w1 step w2, Run w front w1 → EachStep P w front → P w1 step →
      step.Ends w1 w2 → P' w1 step) :
    EachStep P' w steps := by
  induction hrun with
  | nil => trivial
  | snoc hrun hends ih =>
      obtain ⟨hfront, hlast, -⟩ := (eachStep_append _).mp hP
      refine (eachStep_append _).mpr ⟨ih hfront, ?_, trivial⟩
      rw [Run.finish hrun] at hlast ⊢
      exact h _ _ _ _ hrun hfront hlast hends

/-- The step returns or throws. -/
def Step.Completes (w : World τ) (step : Step τ) : Prop :=
  (step.exec.run w).1 = .ok () ∨ (step.exec.run w).1 = .thrown

instance (w : World τ) (step : Step τ) : Decidable (Step.Completes w step) :=
  inferInstanceAs (Decidable (_ ∨ _))

/-- Steps that all complete are a run. -/
theorem run_of_completes (h : EachStep Step.Completes w steps) : Run w steps (finish w steps) := by
  induction steps using List.reverseRecOn with
  | nil => exact Run.nil w
  | append_singleton front step ih =>
      obtain ⟨hfront, hlast, -⟩ := (eachStep_append _).mp h
      refine Run.snoc (ih hfront) ?_
      rw [finish_append]
      rcases hlast with h' | h'
      · exact Or.inl (Prod.ext h' rfl)
      · exact Or.inr (Prod.ext h' rfl)

/-! ## Accounts -/

instance (w : World τ) : Decidable (Bounded w) :=
  inferInstanceAs (Decidable (Everywhere (fun t => t.size ≤ maxSize) w))

instance (op : WorldOp τ) (w : World τ) : Decidable (StaysBounded op w) :=
  decidable_of_iff (Bounded w ∧ ∀ op' ∈ beginnings op,
    (op'.exec.run w).1 = .ok () ∨ (op'.exec.run w).1 = .thrown → Bounded (op'.exec.run w).2) (by
    refine and_congr_right fun _ => forall₂_congr fun op' _ => ?_
    constructor
    · rintro h w' (⟨a, hrun⟩ | hrun) <;> rw [hrun] at h
      · exact h (Or.inl rfl)
      · exact h (Or.inr rfl)
    · rintro h (hrun | hrun)
      · exact h _ (Or.inl ⟨(), Prod.ext hrun rfl⟩)
      · exact h _ (Or.inr (Prod.ext hrun rfl)))

instance (fault : Option (Point × ℕ)) : Decidable (CallsReturn fault) :=
  inferInstanceAs (Decidable (_ ∧ _))

/-- The step runs within `max_size()`, and no functor throws in it. -/
def Ordinary (w : World τ) (step : Step τ) : Prop :=
  StaysBounded step.op (started step w) ∧ CallsReturn step.fault

instance (w : World τ) (step : Step τ) : Decidable (Ordinary w step) :=
  inferInstanceAs (Decidable (_ ∧ _))

theorem started_sound {lost : Holdings} (h : WorldSound lost w) (step : Step τ) :
    WorldSound lost (started step w) := h.reset step.fault w.heap.moved

/-- A statement that ended left a world that its judgement describes. -/
theorem Step.ends_post {step : Step τ} {Q : World τ → Prop} {E : World τ → Prop}
    (h : Action.Post Stuck.anyhow step.op.exec (started step w) (fun _ => Q) E)
    (hends : step.Ends w w') : Q w' ∨ step.exec.run w = (.thrown, w') ∧ E w' := by
  rcases hends with hrun | hrun
  · exact Or.inl (h.ok_of_run hrun)
  · exact Or.inr ⟨hrun, h.thrown_of_run hrun⟩

theorem WorldSound.empty : WorldSound 0 (World.empty : World τ) where
  tables _ _ ht := absurd ht not_table?_empty
  balanced := ⟨Conservation.Settled.empty 0, Conservation.Settled.empty 0,
    Conservation.Settled.empty 0, Conservation.Settled.empty 0⟩

theorem bounded_empty : Bounded (World.empty : World τ) := eachTable_empty _

theorem Ordinary.bounded {step : Step τ} (h : Ordinary w step) (hends : step.Ends w w') :
    Bounded w' := by
  refine h.1.2 step.op (mem_beginnings_self _) w' ?_
  rcases hends with hrun | hrun
  · exact Or.inl ⟨(), hrun⟩
  · exact Or.inr hrun

/-- One step of a program: what it may lose, it loses by an exception that loses
something. -/
theorem step_sound {lost : Holdings} {step : Step τ} (h : WorldSound lost w)
    (ho : Ordinary w step) (hends : step.Ends w w') :
    ∃ lost', WorldSound lost' w' ∧
      ((step.exec.run w = (.thrown, w') → LosesNothing step.op step.fault) → lost' = lost) := by
  have hpost := WorldOp.exec_sound step.op (started_sound h step) ho.1 ho.2
  rcases Step.ends_post hpost hends with h' | ⟨hthrown, lost', h', hclean⟩
  · exact ⟨lost, h'.1, fun _ => rfl⟩
  · exact ⟨lost', h', fun hc => hclean (hc hthrown)⟩

/-- A run of ordinary steps leaves all tables in order, whatever it has lost. -/
theorem run_sound (hrun : Run World.empty steps w) (hsteps : EachStep Ordinary World.empty steps) :
    (∃ lost, WorldSound lost w) ∧ Bounded w := by
  refine Run.invariant (I := fun w => (∃ lost, WorldSound lost w) ∧ Bounded w) hrun
    ⟨⟨0, WorldSound.empty⟩, bounded_empty⟩ ?_ hsteps
  rintro w1 step w2 ⟨⟨lost, h⟩, -⟩ ho hends
  obtain ⟨lost', h', -⟩ := step_sound h ho hends
  exact ⟨⟨lost', h'⟩, ho.bounded hends⟩

/-- A run in which no exception loses anything accounts for everything. -/
theorem run_sound_of_losesNothing (hrun : Run World.empty steps w)
    (hsteps : EachStep (fun w1 step => Ordinary w1 step ∧
      ∀ w2, step.exec.run w1 = (.thrown, w2) → LosesNothing step.op step.fault)
      World.empty steps) :
    WorldSound 0 w := by
  refine Run.invariant (I := WorldSound 0) hrun WorldSound.empty ?_ hsteps
  rintro w1 step w2 h ⟨ho, hclean⟩ hends
  obtain ⟨lost, h', hlost⟩ := step_sound h ho hends
  rwa [hlost (hclean w2)] at h'

end Fum.Analysis
