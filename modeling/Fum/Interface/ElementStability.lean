import Fum.Analysis.QuietCalls
import Fum.Analysis.Residence
import Fum.Interface.SwapIterators

/-!
# Elements stay where they are

Growth rebuilds the index, erasures move buckets and positions in the iteration vector, and
slots are used again; the element in a slot that is in use is none of their business. Through
any statements that leave it in its table, the slot and the address of an element stay, and
with them every iterator to it.
-/

set_option autoImplicit false

namespace Fum.Interface

open Fum.Model Fum.Analysis Effects

variable {τ : Traits} {w w' : World τ} {i x : ℕ} {t : Table τ} {e : Element τ} {p : ℕ × ℕ}
  {equal : τ.Key → τ.Key → Bool} {before after : List (Step τ)}

/-- The values that the steps assign to the mapped value of the element in the slot `x` of the
table `i`, in order. -/
def assignments (i x : ℕ) : World τ → List (Step τ) → List τ.Mapped
  | _, [] => []
  | w, step :: rest => (assigned w i x step.op).toList ++ assignments i x (step.exec.run w).2 rest

theorem assignments_append (front more : List (Step τ)) :
    assignments i x w (front ++ more) =
      assignments i x w front ++ assignments i x (finish w front) more := by
  induction front generalizing w with
  | nil => rfl
  | cons step rest ih => simp [assignments, finish, ih]

/-- The last of some values, or else the first of all. -/
theorem getLast?_append_getD {α : Type} (l : List α) (o : Option α) (a : α) :
    ((l ++ o.toList).getLast?).getD a = o.getD (l.getLast?.getD a) := by
  cases o with
  | none => simp
  | some b => simp

/-- The step does not throw, asks for buckets enough and leaves the element in its table. -/
def Spares (i x : ℕ) (w : World τ) (step : Step τ) : Prop :=
  Calm w step ∧ Fits w step.op ∧ Leaves w i x step.op

theorem Spares.regular {step : Step τ} (h : Spares i x w step) : Regular w step :=
  ⟨h.1.2, h.2.1, fun hthrown => absurd hthrown h.1.1⟩

theorem step_spares {step : Step τ} (hw : Everywhere Sturdy w) (hlaw : Everywhere LawfulTable w)
    (ht : w.table? i = some t) (h : Resides equal x p e t) (hspares : Spares i x w step)
    (hends : step.Ends w w') :
    On i (StillThere equal x p e ((assigned w i x step.op).getD (τ.mappedOf e.value))) w' := by
  obtain ⟨⟨hcalm, hroom⟩, hfits, hleaves⟩ := hspares
  rw [ends_next hends] at hroom
  have hpost := WorldOp.exec_leaves (w := started step w) step.op ht h hw hlaw hfits hleaves
  rcases hends with hok | hthrown
  · exact hpost.ok_of_run hok hroom
  · rw [hthrown] at hcalm
    exact absurd rfl hcalm

theorem regular_append (hbefore : Run World.empty before w)
    (hregular : EachStep Regular World.empty before) (hspares : EachStep (Spares i x) w after) :
    EachStep Regular World.empty (before ++ after) := by
  rw [eachStep_append, Run.finish hbefore]
  exact ⟨hregular, hspares.mono fun _ _ => Spares.regular⟩

/-- The element through a run: the tables are in order before each of the steps. -/
theorem run_spares (hbefore : Run World.empty before w)
    (hregular : EachStep Regular World.empty before)
    (hlaw : ∀ step ∈ before ++ after, LawfulFunctors step.op)
    (ht : w.table? i = some t) (h : Resides equal x p e t) (hafter : Run w after w')
    (hspares : EachStep (Spares i x) w after) :
    On i (StillThere equal x p e
      ((assignments i x w after).getLast?.getD (τ.mappedOf e.value))) w' := by
  induction hafter with
  | nil => exact ⟨t, ht, h.stillThere⟩
  | @snoc w1 w2 front step hfront hends ih =>
      obtain ⟨hspares1, hlast, -⟩ := (eachStep_append _).mp hspares
      have hlaw1 : ∀ s ∈ before ++ front, LawfulFunctors s.op := by
        intro s hs
        apply hlaw
        rw [← List.append_assoc]
        exact List.mem_append_left _ hs
      have hrun1 : Run World.empty (before ++ front) w1 := Run.append hbefore hfront
      have hw1 : Everywhere Sturdy w1 :=
        run_sturdy hrun1 (regular_append hbefore hregular hspares1) hlaw1
      obtain ⟨t1, ht1, e1, h1, hvalue1⟩ := ih hlaw1 hspares1
      rw [Run.finish hfront] at hlast
      obtain ⟨t2, ht2, e2, h2, hvalue2⟩ :=
        step_spares hw1 (run_lawful hrun1 hlaw1) ht1 h1 hlast hends
      refine ⟨t2, ht2, e2, h2, ?_⟩
      rw [assignments_append, Run.finish hfront]
      simp only [assignments, List.append_nil, getLast?_append_getD]
      rw [← hvalue1.mapped]
      exact hvalue1.trans hvalue2

/-- The element `e` of the table `t` is in the same slot of `t'` with the same address and key
and the mapped value `m`, `find` leads there, and there it is behind every iterator to it. -/
structure StaysPut (t : Table τ) (x : ℕ) (e : Element τ) (m : τ.Mapped) (t' : Table τ) : Prop where
  address : ∃ p, addressOf t x = some p ∧ addressOf t' x = some p
  found : ∀ key heap, heap.fault = none → t.keyEqual key (τ.keyOf e.value) = true →
    (find key).run ⟨t', heap⟩ = (.ok x, ⟨t', heap⟩)
  dereferenced : ∃ e', (t'.nodeAt x).storage = some e' ∧ Revalued e m e' ∧
    ∀ heap, (elementAt x).run ⟨t', heap⟩ = (.ok e', ⟨t', heap⟩)

/-- The only listed element with an equal key is the one that is found. -/
theorem run_find_of_matches {s : Store τ} {key : τ.Key} (hw : WellFormed s.table)
    (hroom : Room s.table) (hlaw : LawfulTable s.table) (hquiet : s.heap.fault = none)
    (hx : x ∈ s.table.iteration) (hm : Matches s.table key x) :
    (find key).run s = (.ok x, s) := by
  obtain ⟨it, hrun, hfound⟩ := run_find hw.consistent hroom hquiet key
  cases hfound with
  | absent end_eq absent => exact absurd hm (absent.not_matches hlaw hx)
  | present listed same_key =>
      rw [hrun, (hw.distinct hlaw).unique hlaw listed hx same_key hm]

/-- An element stays put through every run that leaves it in its table, and its mapped value
is the last one assigned to it. Requests for buckets always fit where no load factor is above
one. -/
theorem element_stability (hbefore : Run World.empty before w)
    (hregular : EachStep Regular World.empty before)
    (hlaw : ∀ step ∈ before ++ after, LawfulFunctors step.op)
    (ht : w.table? i = some t) (he : (t.nodeAt x).storage = some e) (hafter : Run w after w')
    (hcalm : EachStep Calm w after)
    (hfits : (∀ step ∈ before ++ after, FactorAtMostOne step.op) ∨
      EachStep (fun w1 step => Fits w1 step.op) w after)
    (hleaves : EachStep (fun w1 step => Leaves w1 i x step.op) w after) :
    ∃ t', w'.table? i = some t' ∧
      StaysPut t x e ((assignments i x w after).getLast?.getD (τ.mappedOf e.value)) t' := by
  have hrun : Run World.empty (before ++ after) w' := Run.append hbefore hafter
  have hfits' : EachStep (fun w1 step => Fits w1 step.op) w after := by
    rcases hfits with hfactor | hfits
    · have h := (eachStep_append _).mp (fits_of_factors hrun hfactor)
      rw [Run.finish hbefore] at h
      exact h.2
    · exact hfits
  have hspares : EachStep (Spares i x) w after := hcalm.and (hfits'.and hleaves)
  have hlive : (t.nodeAt x).storage.isSome := by simp [he]
  obtain ⟨p, hp⟩ := Option.isSome_iff_exists.mp (addressOf_isSome hlive)
  obtain ⟨t', ht', e', h', hvalue⟩ :=
    run_spares hbefore hregular hlaw ht ⟨he, hp, rfl⟩ hafter hspares
  obtain ⟨hw', hroom'⟩ := run_sturdy hrun (regular_append hbefore hregular hspares) hlaw i t' ht'
  refine ⟨t', ht', ⟨p, hp, h'.address⟩, fun key heap hquiet hkey => ?_,
    e', h'.element, hvalue, fun heap => run_elementAt h'.element⟩
  have hm : Matches t' key x := by
    refine ⟨e', h'.element, ?_⟩
    rw [h'.keyEqual, hvalue.key]
    exact hkey
  exact run_find_of_matches (s := ⟨t', heap⟩) hw' hroom' (run_lawful hrun hlaw i t' ht') hquiet
    (h'.mem hw'.consistent) hm

/-- The first of the two maps loses another key, takes the elements of the second one and is
rehashed; the key 2 gets two new values. -/
def restlessSteps : List (Step NatMap) :=
  [⟨.table 0 (.insertOrAssign 2 21), none⟩, ⟨.table 0 (.eraseKey 1), none⟩, ⟨.merge 0 1, none⟩,
    ⟨.table 0 (.assign 1 22), none⟩, ⟨.table 0 (.rehash 32), none⟩,
    ⟨.table 0 (.insert (4, 40)), none⟩]

theorem swapped_made : ((finish World.empty swappedSteps).table? 0).isSome := by decide +kernel

/-- The element with the key 2 stays in slot 1 of its map, and its value is now 22. -/
theorem element_stability_restless :
    ∃ e t', ((((finish World.empty swappedSteps).table? 0).get swapped_made).nodeAt 1).storage =
        some e ∧ (finish (finish World.empty swappedSteps) restlessSteps).table? 0 = some t' ∧
      StaysPut (((finish World.empty swappedSteps).table? 0).get swapped_made) 1 e 22 t' := by
  have hbefore : EachStep Step.Completes World.empty swappedSteps := by decide +kernel
  have hregular : EachStep Regular World.empty swappedSteps := by decide +kernel
  have hafter : EachStep Step.Completes (finish World.empty swappedSteps) restlessSteps := by
    decide +kernel
  have hcalm : EachStep Calm (finish World.empty swappedSteps) restlessSteps := by decide +kernel
  have hleaves : EachStep (fun w1 step => Leaves w1 0 1 step.op) (finish World.empty swappedSteps)
      restlessSteps := by decide +kernel
  have hfactor : ∀ step ∈ swappedSteps ++ restlessSteps, FactorAtMostOne step.op := by
    decide +kernel
  have hlaw : ∀ step ∈ swappedSteps ++ restlessSteps, LawfulFunctors step.op := by
    refine List.forall_mem_append.mpr ⟨swapped_lawful, ?_⟩
    simp [restlessSteps, LawfulFunctors]
  have hvalue : (assignments 0 1 (finish World.empty swappedSteps) restlessSteps).getLast? =
      some 22 := by decide +kernel
  obtain ⟨t', ht', h⟩ := element_stability (run_of_completes hbefore) hregular hlaw
    (Option.some_get swapped_made).symm (Option.some_get (by decide +kernel)).symm
    (run_of_completes hafter) hcalm (Or.inl hfactor) hleaves
  rw [hvalue] at h
  exact ⟨_, t', (Option.some_get (by decide +kernel)).symm, ht', h⟩

end Fum.Interface
