import Fum.Analysis.Histories
import Fum.Model.Instances

/-!
# Observable order does not depend on hashing

Two tables with the same contents and the same equality of keys, but with different hashers,
load factors and calls that tune the index, show the same history.
-/

set_option autoImplicit false

namespace Fum.Interface

open Fum.Model Fum.Analysis Effects

variable {τ : Traits}

/-- The same container for a hasher that is avalanching or not. -/
abbrev withMixing (τ : Traits) (isAvalanching : Bool) : Traits :=
  { τ with isAvalanching := isAvalanching }

/-- The dense map knows nothing of hashers. -/
theorem denseHistory_withMixing (b : Bool) (equal : τ.Key → τ.Key → Bool)
    (calls : List (Call τ.Key τ.Mapped τ.Value)) (l : List τ.Value) :
    @denseHistory (withMixing τ b) equal calls l = @denseHistory τ equal calls l := by
  induction calls generalizing l with
  | nil => rfl
  | cons c rest ih =>
      have hdense : @Call.dense (withMixing τ b) equal l c = @Call.dense τ equal l c := by
        cases c <;> rfl
      unfold denseHistory
      rw [hdense]
      cases @Call.dense τ equal l c with
      | none => rfl
      | some r => exact congrArg (Option.map (r :: ·)) (ih r.2)

theorem playable_of_reachable {t : Table τ} (h : Reachable t) (hmoderate : Moderate t) :
    Playable t.keyEqual t :=
  ⟨h.sturdy.1, h.sturdy.2, h.lawful, hmoderate, rfl⟩

/-- For any two tables that programs can reach and any two histories that differ in the calls
that tune the index: the calls answer the same and leave the same sequence of values, which
is that of a dense map, if and only if no call that tunes the index asks for more buckets than
`std::size_t` counts. -/
theorem order_independent_iff {b₁ b₂ : Bool} {t₁ : Table (withMixing τ b₁)}
    {t₂ : Table (withMixing τ b₂)} (h₁ : Reachable t₁) (h₂ : Reachable t₂) (hz₁ : Moderate t₁)
    (hz₂ : Moderate t₂) (hequal : t₁.keyEqual = t₂.keyEqual)
    (hcontents : contents t₁ = contents t₂) {events₁ : List (Event (withMixing τ b₁))}
    {events₂ : List (Event (withMixing τ b₂))} (hm₁ : ∀ e ∈ events₁, e.Modest)
    (hm₂ : ∀ e ∈ events₂, e.Modest) (hcalls : callsOf events₁ = callsOf events₂)
    {seen : List (Answer × List τ.Value)}
    (hvalid : denseHistory t₁.keyEqual (callsOf events₁) (contents t₁) = some seen)
    (hsizes : ∀ o ∈ seen, o.2.length < 2 ^ 24 - 1) (heap₁ heap₂ : Heap) :
    (∃ s₁ s₂, (observe events₁).run ⟨t₁, heap₁⟩ = (.ok seen, s₁) ∧
      (observe events₂).run ⟨t₂, heap₂⟩ = (.ok seen, s₂) ∧
      contents s₁.table = contents s₂.table) ↔
    SizableHistory events₁ ⟨t₁, heap₁⟩ ∧ SizableHistory events₂ ⟨t₂, heap₂⟩ := by
  have hroom : ∀ o ∈ seen, o.2.length + 2 ≤ 2 ^ 24 := fun o ho => by
    have := hsizes o ho
    omega
  have hvalid₂ : denseHistory t₂.keyEqual (callsOf events₂) (contents t₂) = some seen := by
    rw [← hequal, ← hcalls, ← hcontents, denseHistory_withMixing]
    rw [denseHistory_withMixing] at hvalid
    exact hvalid
  refine ⟨fun ⟨s₁, s₂, hrun₁, hrun₂, _⟩ =>
    ⟨sizableHistory_of_observe hrun₁, sizableHistory_of_observe hrun₂⟩, fun ⟨hs₁, hs₂⟩ => ?_⟩
  obtain ⟨_, s₁, hrun₁, rfl, hlast₁⟩ := (observe_dense (U := Stuck.never) events₁ ⟨t₁, heap₁⟩ seen
    (playable_of_reachable h₁ hz₁) hm₁ hs₁ hvalid hroom).returns
  obtain ⟨_, s₂, hrun₂, rfl, hlast₂⟩ := (observe_dense (U := Stuck.never) events₂ ⟨t₂, heap₂⟩ _
    (playable_of_reachable h₂ hz₂) hm₂ hs₂ hvalid₂ hroom).returns
  refine ⟨s₁, s₂, hrun₁, hrun₂, ?_⟩
  rw [hlast₁, hlast₂]
  exact congrArg _ hcontents

/-- A map over a hasher that is mixed before use. -/
def mixedSteps : List (Step (withMixing NatMap false)) :=
  [⟨.construct 0 (fun k => UInt64.ofNat k) (fun a b => a == b) (), none⟩,
    ⟨.table 0 (.insert (1, 10)), none⟩, ⟨.table 0 (.insert (2, 20)), none⟩]

/-- The same map over an avalanching hasher under which all keys collide. -/
def collidingSteps : List (Step (withMixing NatMap true)) :=
  [⟨.construct 64 (fun _ => 7) (fun a b => a == b) (), none⟩,
    ⟨.table 0 (.insert (1, 10)), none⟩, ⟨.table 0 (.maxLoadFactor (.finite (1 / 2) rfl)), none⟩,
    ⟨.table 0 (.insert (2, 20)), none⟩]

theorem mixed_reachable : Reachable
    (((finish World.empty mixedSteps).table? 0).get (by decide +kernel)) := by
  refine reachable_of_completes (by decide +kernel) (by decide +kernel) ?_ _
  simp only [mixedSteps, List.forall_mem_cons, List.not_mem_nil, LawfulFunctors]
  exact ⟨lawful_beq _, trivial, trivial, fun _ h => h.elim⟩

theorem colliding_reachable : Reachable
    (((finish World.empty collidingSteps).table? 0).get (by decide +kernel)) := by
  refine reachable_of_completes (by decide +kernel) (by decide +kernel) ?_ _
  simp only [collidingSteps, List.forall_mem_cons, List.not_mem_nil, LawfulFunctors]
  exact ⟨lawful_beq _, trivial, trivial, trivial, fun _ h => h.elim⟩

theorem same_keyEqual :
    (((finish World.empty mixedSteps).table? 0).get (by decide +kernel)).keyEqual =
      (((finish World.empty collidingSteps).table? 0).get (by decide +kernel)).keyEqual := by
  have hmixed : Everywhere (fun t : Table (withMixing NatMap false) =>
      t.keyEqual = fun a b => a == b) (finish World.empty mixedSteps) := by
    refine keyEqual_of_run (run_of_completes (by decide +kernel)) ?_
    intro step hstep n hash equal' alloc values hop
    simp only [mixedSteps, List.mem_cons, List.not_mem_nil, or_false] at hstep
    rcases hstep with rfl | rfl | rfl <;> rcases hop with hop | hop <;> cases hop
    rfl
  have hcolliding : Everywhere (fun t : Table (withMixing NatMap true) =>
      t.keyEqual = fun a b => a == b) (finish World.empty collidingSteps) := by
    refine keyEqual_of_run (run_of_completes (by decide +kernel)) ?_
    intro step hstep n hash equal' alloc values hop
    simp only [collidingSteps, List.mem_cons, List.not_mem_nil, or_false] at hstep
    rcases hstep with rfl | rfl | rfl | rfl <;> rcases hop with hop | hop <;> cases hop
    rfl
  exact (hmixed 0 _ (Option.some_get (by decide +kernel)).symm).trans
    (hcolliding 0 _ (Option.some_get (by decide +kernel)).symm).symm

/-- The histories tune the index at different places. -/
def mixedEvents : List (Event (withMixing NatMap false)) :=
  [.call (.insert (3, 30)), .tune (.rehash 100), .call (.tryEmplace 1 99),
    .call (.insertOrAssign 2 21), .tune (.reserve 7), .call (.erasePosition 0),
    .call (.eraseKey 2)]

def collidingEvents : List (Event (withMixing NatMap true)) :=
  [.tune (.maxLoadFactor (.finite (1 / 4) rfl)), .call (.insert (3, 30)),
    .call (.tryEmplace 1 99), .call (.insertOrAssign 2 21), .call (.erasePosition 0),
    .tune (.rehash 0), .call (.eraseKey 2)]

theorem order_independent_colliding :
    ∃ s₁ s₂,
      (observe mixedEvents).run
        ⟨((finish World.empty mixedSteps).table? 0).get (by decide +kernel), Heap.empty⟩ =
          (.ok [(.flag true, [(1, 10), (2, 20), (3, 30)]),
            (.flag false, [(1, 10), (2, 20), (3, 30)]), (.flag false, [(1, 10), (2, 21), (3, 30)]),
            (.none, [(3, 30), (2, 21)]), (.count 1, [(3, 30)])], s₁) ∧
      (observe collidingEvents).run
        ⟨((finish World.empty collidingSteps).table? 0).get (by decide +kernel), Heap.empty⟩ =
          (.ok [(.flag true, [(1, 10), (2, 20), (3, 30)]),
            (.flag false, [(1, 10), (2, 20), (3, 30)]), (.flag false, [(1, 10), (2, 21), (3, 30)]),
            (.none, [(3, 30), (2, 21)]), (.count 1, [(3, 30)])], s₂) ∧
      contents s₁.table = contents s₂.table := by
  have hm₁ : ∀ e ∈ mixedEvents, e.Modest := by
    simp only [mixedEvents, List.forall_mem_cons, List.not_mem_nil, Event.Modest, Modest,
      Tuning.op]
    exact ⟨trivial, trivial, trivial, trivial, trivial, trivial, trivial, fun _ h => h.elim⟩
  have hm₂ : ∀ e ∈ collidingEvents, e.Modest := by
    simp only [collidingEvents, List.forall_mem_cons, List.not_mem_nil, Event.Modest, Modest,
      Tuning.op]
    exact ⟨by decide +kernel, trivial, trivial, trivial, trivial, trivial, trivial,
      fun _ h => h.elim⟩
  exact (order_independent_iff mixed_reachable colliding_reachable (by decide +kernel)
    (by decide +kernel) same_keyEqual (by decide +kernel) hm₁ hm₂ rfl (by decide +kernel)
    (by decide +kernel) Heap.empty Heap.empty).mpr ⟨by decide +kernel, by decide +kernel⟩

/-- Insertions of the first `n` naturals. -/
def fillEvents (n : ℕ) : List (Event (withMixing NatMap false)) :=
  (List.range n).map fun k => .call (.insert (k, k))

/-- Before the last insertion, the load factor becomes so small that a rehash needs more buckets
than `std::size_t` counts. -/
def tinyEvents : List (Event (withMixing NatMap false)) :=
  fillEvents 9 ++ [.tune (.maxLoadFactor (.finite (1 / 2 ^ 60) rfl)), .tune (.rehash 0),
    .call (.insert (9, 9))]

/-- Two histories of one table with the same calls: one shows what a dense map answers, the
other, which asks for a rehash under a tiny load factor, has undefined behaviour. -/
theorem tiny_factor_observed :
    Reachable (((finish World.empty mixedSteps).table? 0).get (by decide +kernel)) ∧
      (∀ e ∈ tinyEvents, e.Modest) ∧ callsOf (fillEvents 10) = callsOf tinyEvents ∧
      (∀ seen s s', ¬ ((observe (fillEvents 10)).run ⟨((finish World.empty mixedSteps).table? 0).get
          (by decide +kernel), Heap.empty⟩ = (.ok seen, s) ∧
        (observe tinyEvents).run ⟨((finish World.empty mixedSteps).table? 0).get
          (by decide +kernel), Heap.empty⟩ = (.ok seen, s'))) ∧
      ((observe (fillEvents 10)).run ⟨((finish World.empty mixedSteps).table? 0).get
          (by decide +kernel), Heap.empty⟩).1 ≠ .undefined ∧
      ((observe tinyEvents).run ⟨((finish World.empty mixedSteps).table? 0).get
          (by decide +kernel), Heap.empty⟩).1 = .undefined := by
  have hundefined : ((observe tinyEvents).run ⟨((finish World.empty mixedSteps).table? 0).get
      (by decide +kernel), Heap.empty⟩).1 = .undefined := by decide +kernel
  have hmodest : ∀ e ∈ tinyEvents, e.Modest := by
    intro e he
    simp only [tinyEvents, fillEvents, List.mem_append, List.mem_map, List.mem_cons,
      List.not_mem_nil, or_false] at he
    rcases he with ⟨k, -, rfl⟩ | rfl | rfl | rfl
    · trivial
    · show LoadFactor.AtMostOne (LoadFactor.ofFloat (.finite (1 / 2 ^ 60) rfl))
      decide +kernel
    · trivial
    · trivial
  refine ⟨mixed_reachable, hmodest, rfl, fun seen s s' h => ?_, by decide +kernel, hundefined⟩
  rw [h.2] at hundefined
  cases hundefined

end Fum.Interface
