import Fum.Analysis.Reachability
import Fum.Model.Instances

/-!
# The merge law

A merge goes through the elements of the source in the order of its iteration and moves
those whose key the receiver does not hold at their turn. The two tables may disagree on
which keys are equal.
-/

set_option autoImplicit false

namespace Fum.Interface

open Fum.Model Fum.Analysis Effects DenseMap

variable {τ : Traits} {w : World τ} {steps : List (Step τ)} {i j : ℕ} {t t0 u u0 : Table τ}

/-- The elements that `dest.merge(source)` moves, in order. -/
def movedBy (dest source : Table τ) : List τ.Value :=
  absorbed τ.keyOf dest.keyEqual (contents dest) (contents source)

/-- What a merge of `u0` into `t0` leaves of the two tables. -/
structure MergedInto (t0 u0 t u : Table τ) : Prop where
  /-- The receiver has its old elements, where they were, and behind them the moved ones. -/
  dest : contents t = contents t0 ++ movedBy t0 u0
  kept : ∀ node ∈ t0.iteration, (t.nodeAt node).storage = (t0.nodeAt node).storage
  /-- The source has the rest. -/
  source : (contents u ++ movedBy t0 u0).Perm (contents u0)
  sizes : t.size + u.size = t0.size + u0.size
  wellFormed : WellFormed t ∧ WellFormed u
  findable : Findable t ∧ Findable u

theorem mergedInto_of_absorbs {moved : List ℕ} (h : Absorbs t0 u0 u0.iteration moved t)
    (herased : Erased u0 moved u) (hu : WellFormed u) (hc0 : Consistent t0)
    (hcu0 : Consistent u0) (hlawt : LawfulTable t0) (hlawu : LawfulTable u0) (hroom : Room t)
    (hroomu : Room u0) : MergedInto t0 u0 t u := by
  have hvalues : moved.filterMap (valueAt u0) = movedBy t0 u0 := h.values
  have hdest : contents t = contents t0 ++ movedBy t0 u0 := by rw [h.contents, hvalues]
  have hsource : (contents u ++ movedBy t0 u0).Perm (contents u0) :=
    hvalues ▸ herased.contents_perm hcu0
  refine ⟨hdest, h.grown.storage, hsource, ?_, ⟨h.wellFormed, hu⟩,
    findable_of_wellFormed h.wellFormed hroom (h.grown.policy.lawfulTable.mpr hlawt),
    findable_of_wellFormed hu (herased.room hroomu) (herased.policy.lawfulTable.mpr hlawu)⟩
  have hlen := hsource.length_eq
  rw [← h.wellFormed.consistent.length_contents, hdest, List.length_append,
    hc0.length_contents, ← hu.consistent.length_contents, ← hcu0.length_contents, ← hlen,
    List.length_append]
  omega

/-- Whatever a program did before, a merge of one table into another that has room for what
it moves returns and obeys the merge law, and a table merged with itself stays as it is. -/
theorem merge_law (hrun : Run World.empty steps w) (hsteps : EachStep Calm World.empty steps)
    (hlaw : ∀ step ∈ steps, LawfulFunctors step.op)
    (hfactor : ∀ step ∈ steps, FactorAtMostOne step.op)
    (hi : w.table? i = some t0) (hj : w.table? j = some u0)
    (hroom : t0.size + (movedBy t0 u0).length < 2 ^ 24 - 1) :
    ∃ w', (Step.exec ⟨.merge i j, none⟩).run w = (.ok (), w') ∧
      (∀ k, k ≠ i → k ≠ j → w'.table? k = w.table? k) ∧
      (i = j → w'.table? i = some t0) ∧
      (i ≠ j → ∃ t u, w'.table? i = some t ∧ w'.table? j = some u ∧ MergedInto t0 u0 t u) := by
  have hregular := regular_of_calm hrun hsteps hfactor
  have hlawful := run_lawful hrun hlaw
  obtain ⟨hwt, hroomt⟩ := run_sturdy hrun hregular hlaw i t0 hi
  obtain ⟨hwu, hroomu⟩ := run_sturdy hrun hregular hlaw j u0 hj
  have hlawt := hlawful i t0 hi
  have hlawu := hlawful j u0 hj
  have hquiet : Quiet False (started ⟨.merge i j, none⟩ w).heap := Or.inr rfl
  by_cases hij : i = j
  · subst hij
    have hpost := (mergeFrom_self (U := Stuck.never) (X := False)
      (w := started ⟨.merge i i, none⟩ w) hi hwt hroomt hlawt hquiet).mono (fun _ _ h' => h')
      (fun _ h' => h'.2) fun _ h' => h'
    obtain ⟨⟨⟩, w', hmerge, heq, -⟩ := hpost.returns
    refine ⟨w', hmerge, ?_, ?_, fun hne => absurd rfl hne⟩
    · intro k _ _
      rw [heq]
      rfl
    · intro _
      rw [heq]
      exact hi
  · have hpost := mergeFrom_absorbs (U := Stuck.never) (X := False)
      (w := started ⟨.merge i j, none⟩ w) hij hi hj hwt hlawt hwu hlawu hroomu hquiet
      (by unfold movedBy at hroom; omega)
    obtain ⟨⟨⟩, w', hmerge, -, t, u, moved, hp, habsorbs, -, herased, hu⟩ := hpost.returns
    have hfits : Room t := by
      have hle := habsorbs.size_le hwt.consistent (List.append_nil _).symm
      unfold Room
      unfold movedBy at hroom
      omega
    exact ⟨w', hmerge, hp.others, fun heq => absurd heq hij, fun _ => ⟨t, u, hp.left, hp.right,
      mergedInto_of_absorbs habsorbs herased hu hwt.consistent hwu.consistent hlawt hlawu hfits
        hroomu⟩⟩

/-- Keys that agree modulo ten are equal to the second table, not to the first. -/
def coarseSteps : List (Step NatMap) :=
  [⟨.construct 0 (fun k => UInt64.ofNat k) (fun a b => a == b) (), none⟩,
    ⟨.construct 0 (fun k => UInt64.ofNat (k % 10)) (fun a b => a % 10 == b % 10) (), none⟩,
    ⟨.table 0 (.insert (1, 10)), none⟩, ⟨.table 0 (.insert (2, 20)), none⟩,
    ⟨.table 0 (.insert (12, 30)), none⟩, ⟨.table 1 (.insert (11, 40)), none⟩]

theorem coarse_made : ((finish World.empty coarseSteps).table? 0).isSome := by decide +kernel

theorem coarse_lawful :
    Lawful (fun k : ℕ => UInt64.ofNat (k % 10)) fun a b => a % 10 == b % 10 :=
  lawful_image (· % 10) UInt64.ofNat

theorem coarse_lawfulFunctors : ∀ step ∈ coarseSteps, LawfulFunctors step.op := by
  simp only [coarseSteps, List.forall_mem_cons, List.not_mem_nil, LawfulFunctors]
  exact ⟨lawful_beq _, coarse_lawful, trivial, trivial, trivial, trivial, fun _ h => h.elim⟩

/-- Of the keys 1, 2 and 12 the second table takes 2 only. -/
theorem merge_law_coarse :
    movedBy (((finish World.empty coarseSteps).table? 1).get (by decide +kernel))
      (((finish World.empty coarseSteps).table? 0).get coarse_made) = [(2, 20)] ∧
    ∃ w', (Step.exec ⟨.merge 1 0, none⟩).run (finish World.empty coarseSteps) = (.ok (), w') ∧
      ∃ t u, w'.table? 1 = some t ∧ w'.table? 0 = some u ∧
        MergedInto (((finish World.empty coarseSteps).table? 1).get (by decide +kernel))
          (((finish World.empty coarseSteps).table? 0).get coarse_made) t u := by
  refine ⟨by decide +kernel, ?_⟩
  have hcompletes : EachStep Step.Completes World.empty coarseSteps := by decide +kernel
  have hcalm : EachStep Calm World.empty coarseSteps := by decide +kernel
  have hfactor : ∀ step ∈ coarseSteps, FactorAtMostOne step.op := by decide +kernel
  obtain ⟨w', hrun, -, -, h⟩ := merge_law (run_of_completes hcompletes) hcalm
    coarse_lawfulFunctors hfactor (i := 1) (j := 0) (Option.some_get (by decide +kernel)).symm
    (Option.some_get (by decide +kernel)).symm (by decide +kernel)
  exact ⟨w', hrun, h (by decide)⟩

end Fum.Interface
