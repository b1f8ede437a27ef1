import Fum.Analysis.Runs
import Fum.Model.Instances

/-!
# Every resource is given back

The ledger of a program: elements, arena chunks, bucket arrays and handle cells. It
balances in every run whose exceptions lose nothing. Two kinds of exception lose
something: the growth of `chunks_` after the chunk has been allocated, and whatever stops
a copy or an allocator-extended move constructor after its first allocation.
-/

set_option autoImplicit false

namespace Fum.Interface

open Fum.Model Fum.Analysis Effects

variable {τ : Traits} {w : World τ} {steps : List (Step τ)}

/-- All tables and node handles are gone. -/
def AllGone (w : World τ) : Prop := (∀ o ∈ w.tables, o.isNone) ∧ ∀ o ∈ w.handles, o.isNone

instance (w : World τ) : Decidable (AllGone w) := inferInstanceAs (Decidable (_ ∧ _))

/-- Everything acquired has been given back, exactly once. -/
def Account.Released (a : Account) : Prop := a.opened.Nodup ∧ a.closed.Perm a.opened

instance (a : Account) : Decidable (Account.Released a) := inferInstanceAs (Decidable (_ ∧ _))

/-- The slots in the iteration vectors and the values owned by handles. -/
def liveElements (w : World τ) : ℕ :=
  (w.tables.map fun o => o.elim 0 Table.size).sum +
    (w.handles.map fun o => o.elim 0 fun handle => handle.value.elim 0 fun _ => 1).sum

/-- The accounts of the program against the objects that are alive. -/
structure LedgerBalances (w : World τ) : Prop where
  /-- The constructed elements are those in the iteration vectors and in the handles. -/
  live : w.heap.elements.opened.length = w.heap.elements.closed.length + liveElements w
  /-- Nothing is given back twice, or without having been acquired. -/
  closedOnce : ∀ a ∈ [w.heap.elements, w.heap.chunks, w.heap.arrays, w.heap.cells],
    a.closed.Nodup ∧ ∀ id ∈ a.closed, id ∈ a.opened
  /-- When all objects are gone, everything has been given back. -/
  released : AllGone w → ∀ a ∈ [w.heap.elements, w.heap.chunks, w.heap.arrays, w.heap.cells],
    Account.Released a

/-! ## What the objects hold -/

theorem card_total {ι : Type} (f : ι → Holdings) (l : List (Option ι)) :
    (total f l).elements.card = (l.map fun o => o.elim 0 fun x => (f x).elements.card).sum := by
  induction l with
  | nil => rfl
  | cons o l ih =>
      have hcons : total f (o :: l) = o.elim 0 f + total f l := by simp [total]
      rw [hcons, Holdings.add_elements, Multiset.card_add, ih, List.map_cons, List.sum_cons]
      cases o <;> rfl

/-- A table holds one element for each entry of its iteration vector. -/
theorem card_tableOwns {t : Table τ} (hf : Filled t t.iteration) :
    (tableOwns t).elements.card = t.size := by
  show (elementIds t t.iteration).length = t.iteration.length
  unfold elementIds
  have hall : ∀ l : List ℕ, (∀ i ∈ l, (t.nodeAt i).storage.isSome) →
      (l.filterMap fun i => (t.nodeAt i).storage.map Element.serial).length = l.length := by
    intro l
    induction l with
    | nil => exact fun _ => rfl
    | cons i l ih =>
        intro h
        obtain ⟨e, he⟩ := Option.isSome_iff_exists.mp (h i (by simp))
        rw [List.filterMap_cons_some (b := e.serial) (by rw [he]; rfl), List.length_cons,
          List.length_cons, ih fun j hj => h j (by simp [hj])]
  exact hall _ fun i hi => (hf i).mpr hi

theorem card_owns {lost : Holdings} (h : WorldSound lost w) :
    (World.owns w).elements.card = liveElements w := by
  unfold World.owns liveElements
  rw [Holdings.add_elements, Multiset.card_add, card_total, card_total]
  congr 2
  · refine List.map_congr_left fun o ho => ?_
    cases o with
    | none => rfl
    | some t =>
        obtain ⟨i, hi, hget⟩ := List.mem_iff_getElem.mp ho
        have ht : w.table? i = some t := by
          unfold World.table?
          rw [List.getElem?_eq_getElem hi, hget]
          rfl
        exact card_tableOwns (h.tables i t ht).2
  · refine List.map_congr_left fun o _ => ?_
    cases o with
    | none => rfl
    | some handle =>
        rcases handle with ⟨_ | cell, alloc⟩ <;> rfl

/-- With no object alive, nothing is held. -/
theorem owns_of_allGone (h : AllGone w) : World.owns w = 0 := by
  have hzero : ∀ {ι : Type} (f : ι → Holdings) (l : List (Option ι)),
      (∀ o ∈ l, o.isNone) → total f l = 0 := by
    intro ι f l hl
    induction l with
    | nil => rfl
    | cons o l ih =>
        have ho : o = none := Option.isNone_iff_eq_none.mp (hl o (by simp))
        have hcons : total f (o :: l) = o.elim 0 f + total f l := by simp [total]
        rw [hcons, ho, ih fun o' ho' => hl o' (by simp [ho'])]
        exact add_zero _
  unfold World.owns
  rw [hzero _ _ h.1, hzero _ _ h.2, add_zero]

theorem Settled.closedOnce {next : ℕ} {a : Account} {held : Multiset ℕ}
    (h : Conservation.Settled next a.opened a.closed held) :
    a.closed.Nodup ∧ ∀ id ∈ a.closed, id ∈ a.opened := by
  have hle : (a.closed : Multiset ℕ) ≤ a.opened := by
    rw [h.conserved]
    exact Multiset.le_add_right _ _
  exact ⟨Multiset.coe_nodup.mp (Multiset.nodup_of_le hle (Multiset.coe_nodup.mpr h.nodup)),
    fun id hid => Multiset.mem_coe.mp (Multiset.mem_of_le hle (Multiset.mem_coe.mpr hid))⟩

theorem Settled.released {next : ℕ} {a : Account} {held : Multiset ℕ} (hheld : held = 0)
    (h : Conservation.Settled next a.opened a.closed held) : Account.Released a := by
  rw [hheld] at h
  exact ⟨h.nodup, h.all_closed.1⟩

theorem ledgerBalances_of_sound (h : WorldSound 0 w) : LedgerBalances w := by
  have hbal := h.balanced
  rw [add_zero] at hbal
  have hall : ∀ P : Account → Prop, P w.heap.elements → P w.heap.chunks → P w.heap.arrays →
      P w.heap.cells → ∀ a ∈ [w.heap.elements, w.heap.chunks, w.heap.arrays, w.heap.cells],
        P a := by
    intro P he hc ha hcell a hmem
    simp only [List.mem_cons, List.not_mem_nil, or_false] at hmem
    rcases hmem with rfl | rfl | rfl | rfl
    · exact he
    · exact hc
    · exact ha
    · exact hcell
  refine ⟨?_, ?_, fun hgone => ?_⟩
  · have hcard := congrArg Multiset.card hbal.elements.conserved
    rw [Multiset.card_add, Multiset.coe_card, Multiset.coe_card, card_owns h] at hcard
    exact hcard
  · exact hall _ (Settled.closedOnce hbal.elements) (Settled.closedOnce hbal.chunks)
      (Settled.closedOnce hbal.arrays) (Settled.closedOnce hbal.cells)
  · have hzero := owns_of_allGone hgone
    exact hall _ (Settled.released (by rw [hzero]; rfl) hbal.elements)
      (Settled.released (by rw [hzero]; rfl) hbal.chunks)
      (Settled.released (by rw [hzero]; rfl) hbal.arrays)
      (Settled.released (by rw [hzero]; rfl) hbal.cells)

/-! ## Runs -/

/-- In every run with at most `max_size()` elements in a table at any time, whatever
allocations and element constructors throw, the ledger balances in every state, provided
no exception comes from the growth of `chunks_` or ends a copy or an allocator-extended
move constructor past its first allocation. -/
theorem ledgerBalances_of_run (hrun : Run World.empty steps w)
    (hsteps : EachStep (fun w1 step => Ordinary w1 step ∧
      ((step.exec.run w1).1 = .thrown → LosesNothing step.op step.fault)) World.empty steps) :
    LedgerBalances w := by
  refine ledgerBalances_of_sound (run_sound_of_losesNothing hrun (hsteps.mono ?_))
  rintro w1 step ⟨ho, hclean⟩
  exact ⟨ho, fun w2 hthrown => hclean (by rw [hthrown])⟩

/-- A table with an element, an insertion whose constructor throws, and a copy whose first
allocation throws; then everything is destroyed. -/
def cleanSteps : List (Step NatMap) :=
  [⟨.construct 0 (fun k => UInt64.ofNat k) (fun a b => a == b) (), none⟩,
    ⟨.table 0 (.insert (1, 10)), none⟩, ⟨.table 0 (.insert (2, 20)), some (.construct, 0)⟩,
    ⟨.copyConstruct 0, some (.bucketArray, 0)⟩, ⟨.destroy 0, none⟩]

theorem ledgerBalances_of_run_clean : LedgerBalances (finish World.empty cleanSteps) :=
  have hsteps : EachStep Step.Completes World.empty cleanSteps := by decide +kernel
  ledgerBalances_of_run (run_of_completes hsteps) (by decide +kernel)

/-- A copy whose element constructor throws: the bucket array and the chunk of the
unfinished copy are never given back. -/
def leakingSteps : List (Step NatMap) :=
  [⟨.construct 0 (fun k => UInt64.ofNat k) (fun a b => a == b) (), none⟩,
    ⟨.table 0 (.insert (1, 10)), none⟩, ⟨.copyConstruct 0, some (.construct, 0)⟩,
    ⟨.destroy 0, none⟩]

theorem copy_that_throws_leaks :
    Run World.empty leakingSteps (finish World.empty leakingSteps) ∧
      EachStep Ordinary World.empty leakingSteps ∧
      AllGone (finish World.empty leakingSteps) ∧
      ¬ Account.Released (finish World.empty leakingSteps).heap.arrays ∧
      ¬ Account.Released (finish World.empty leakingSteps).heap.chunks :=
  ⟨run_of_completes (by decide +kernel), by decide +kernel, by decide +kernel,
    by decide +kernel, by decide +kernel⟩

end Fum.Interface
