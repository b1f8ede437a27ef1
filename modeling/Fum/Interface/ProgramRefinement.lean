import Fum.Interface.MapRefinement
import Fum.Interface.StatementMeaning

/-!
# A program is a program on maps

A program is run from its beginning, with iterators that are positions and functors that do not
throw. As long as its statements have a meaning for maps and nodes, and neither ask for more
buckets than `std::size_t` counts nor for an exchange of storage that the allocators of the
vectors exclude, it runs to the end, and what its containers and its node handles hold then is
what those maps and nodes hold.
-/

set_option autoImplicit false

namespace Fum.Interface

open Fum.Model Fum.Analysis Effects

variable {τ : Traits} {w : World τ} {op : WorldOp τ} {m : MapWorld τ}

/-- The statement with its iterators looked up, in a memory in which nothing throws. -/
def perform (op : WorldOp τ) : Action (World τ) Unit where
  run w := (Step.exec ⟨WorldOp.located w op, none⟩).run w

/-- Each statement of the program, where it is performed, asks for bucket counts within
`std::size_t` and for vectors that can change hands. -/
def Feasible : World τ → List (WorldOp τ) → Prop
  | _, [] => True
  | w, op :: rest => (Sizable w op ∧ HandsOver w op) ∧ Feasible ((perform op).run w).2 rest

instance Feasible.decidable : ∀ (ops : List (WorldOp τ)) (w : World τ), Decidable (Feasible w ops)
  | [], _ => isTrue trivial
  | op :: rest, w => @instDecidableAnd _ _ _ (Feasible.decidable rest ((perform op).run w).2)

theorem lawfulFunctors_located (w : World τ) (h : LawfulFunctors op) :
    LawfulFunctors (WorldOp.located w op) := by
  cases op <;> exact h

theorem factorAtMostOne_located (w : World τ) (h : FactorAtMostOne op) :
    FactorAtMostOne (WorldOp.located w op) := by
  cases op with
  | table i op =>
      show FactorAtMostOne (.table i ((w.table? i).elim op fun t => Op.located t op))
      cases w.table? i with
      | none => exact h
      | some t => cases op <;> exact h
  | construct | constructRange | copyConstruct | copyConstructWith | moveConstruct
  | moveConstructWith | destroy | copyAssign | moveAssign | assignValues | swap | merge
  | insertHandle | handleDefault | handleMove | handleAssign | handleSwap | handleDestroy =>
      exact h

/-- One statement, and the tables it leaves can be used. -/
theorem perform_means (hw : Everywhere WellKept w) (hafter : (asMaps w).after op = some m)
    (hroom : m.Roomy) (hlaw : LawfulFunctors op) (hfactor : FactorAtMostOne op)
    (hsizable : Sizable w op) (hhands : HandsOver w op) :
    ∃ w', (perform op).run w = (.ok (), w') ∧ asMaps w' = m ∧ Everywhere WellKept w' := by
  let step : Step τ := ⟨WorldOp.located w op, none⟩
  obtain ⟨⟨⟩, w', hrun, hdepicts⟩ := (WorldOp.exec_means (U := Stuck.never) (w := started step w) op
    hw rfl hafter hroom hlaw hfactor hsizable hhands).returns
  have hends : step.Ends w w' := Or.inl hrun
  have hlawful : Everywhere LawfulTable w' :=
    step_everywhere robust_lawfulTable (fun _ _ _ h => h) (fun i t ht => (hw i t ht).lawful)
      (lawfulFunctors_located w hlaw).respects hends
  have hmoderate : Everywhere Moderate w' :=
    step_everywhere robust_moderate (fun _ _ _ h => h) (fun i t ht => (hw i t ht).moderate)
      (factorAtMostOne_located w hfactor).respects hends
  exact ⟨w', hrun, hdepicts.maps, fun i t ht => ⟨hdepicts.wellFormed i t ht,
    hdepicts.room hroom i t ht, hlawful i t ht, hmoderate i t ht, rfl⟩⟩

/-- Statements one after the other. -/
theorem perform_each (ops : List (WorldOp τ)) (hw : Everywhere WellKept w)
    (hruns : (asMaps w).runs ops = some m) (hlaw : ∀ op ∈ ops, LawfulFunctors op)
    (hfactor : ∀ op ∈ ops, FactorAtMostOne op) (hfeasible : Feasible w ops) :
    ∃ w', (Action.forEach ops perform).run w = (.ok (), w') ∧ asMaps w' = m ∧
      Everywhere WellKept w' := by
  induction ops generalizing w with
  | nil =>
      cases hruns
      exact ⟨w, rfl, rfl, hw⟩
  | cons op rest ih =>
      obtain ⟨m1, hafter, hrest⟩ := Option.bind_eq_some_iff.mp hruns
      obtain ⟨hroom, hrest⟩ := Option.ite_none_right_eq_some.mp hrest
      obtain ⟨⟨hsizable, hhands⟩, hfeasible⟩ := hfeasible
      obtain ⟨w1, hrun, rfl, hw1⟩ := perform_means hw hafter hroom
        (hlaw op List.mem_cons_self) (hfactor op List.mem_cons_self) hsizable hhands
      rw [hrun] at hfeasible
      obtain ⟨w', hrun', hmaps, hw'⟩ := ih hw1 hrest
        (fun op' h => hlaw op' (List.mem_cons_of_mem _ h))
        (fun op' h => hfactor op' (List.mem_cons_of_mem _ h)) hfeasible
      refine ⟨w', ?_, hmaps, hw'⟩
      show (perform op >>= fun _ => Action.forEach rest perform).run w = _
      rw [Action.run_bind_ok _ hrun]
      exact hrun'

/-- A program whose statements have a meaning for maps and nodes, and are feasible where they are
performed, runs to its end, neither throws nor gets stuck, holds then what the maps and nodes
hold, and its containers answer every question with the entries of the maps. -/
theorem program_refinement {ops : List (WorldOp τ)} (hruns : MapWorld.empty.runs ops = some m)
    (hlaw : ∀ op ∈ ops, LawfulFunctors op) (hfactor : ∀ op ∈ ops, FactorAtMostOne op)
    (hfeasible : Feasible World.empty ops) :
    ∃ w, (Action.forEach ops perform).run World.empty = (.ok (), w) ∧ asMaps w = m ∧
      ∀ i t, w.table? i = some t → Agrees t (contents t) := by
  obtain ⟨w, hrun, hmaps, hw⟩ := perform_each ops (w := World.empty) (eachTable_empty _) hruns hlaw
    hfactor hfeasible
  exact ⟨w, hrun, hmaps, fun i t ht => agrees_of_represents (hw i t ht) (List.Perm.refl _)⟩

/-- Two containers that exchange elements, through a merge, a node and a swap, and what becomes
of a copy and of a moved-from one. -/
def exchangeProgram : List (WorldOp NatMap) :=
  [.construct 0 (fun k => UInt64.ofNat (k % 3)) (fun a b => a == b) (),
    .constructRange [(1, 10), (2, 20), (3, 30), (1, 11)] 0 (fun _ => 7) (fun a b => a == b) (),
    .table 0 (.insert (2, 21)), .table 0 (.tryEmplace 5 50), .copyConstruct 0, .merge 0 1,
    .table 0 (.eraseRange 0 2), .table 1 (.extractKey 2), .insertHandle false 0 0,
    .table 0 (.maxLoadFactor (.finite (3 / 4) rfl)), .table 0 (.extractAt 1),
    .insertHandle true 1 2, .handleSwap 1 2, .swap 0 1, .moveConstruct 2, .destroy 2,
    .table 3 (.assign 1 51), .assignValues 1 [(7, 70), (8, 80), (7, 71)], .handleDestroy 0]

theorem exchange_means : (MapWorld.empty.runs exchangeProgram).isSome := by decide +kernel

theorem program_refinement_exchange : ∃ w,
    (Action.forEach exchangeProgram perform).run World.empty = (.ok (), w) ∧
      asMaps w = (MapWorld.empty.runs exchangeProgram).get exchange_means ∧
      ∀ i t, w.table? i = some t → Agrees t (contents t) :=
  program_refinement (Option.some_get exchange_means).symm
    (by simp [exchangeProgram, LawfulFunctors, lawful_beq]) (by decide +kernel)
    (by decide +kernel)

end Fum.Interface
