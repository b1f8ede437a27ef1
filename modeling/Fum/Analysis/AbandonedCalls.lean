import Fum.Analysis.MapWorlds
import Fum.Analysis.Interruption
import Fum.Analysis.Refilling

/-!
# Abandoned calls

What the elements of a table are when a call on it throws: they are what they were, or the
call has dealt with some of its elements, from the first one on, and with no others. Excluded
are the exceptions that take the index or an element with them.
-/

set_option autoImplicit false

namespace Fum.Analysis

open Fum.Model Effects SwapRemove DenseMap

variable {τ : Traits} {α : Type} {s s' : Store τ} {t t' t0 u u0 : Table τ} {w w' : World τ}
  {i j : ℕ} {fault : Option (Point × ℕ)}

/-! ## One insertion -/

/-- The table has the elements of `t`, and its index is in order. -/
def Unharmed (t t' : Table τ) : Prop := SameElements t t' ∧ Consistent t'

theorem Unharmed.wellFormed (h : Unharmed t t') (hw : WellFormed t) : WellFormed t' :=
  hw.of_sameElements h.1 h.2

theorem Unharmed.asMap (h : Unharmed t t') (hw : WellFormed t) :
    Analysis.asMap t' = Analysis.asMap t :=
  MapObject.ext (h.1.contents hw.consistent) h.1.policy.keyEqual h.1.policy.allocator

theorem Unharmed.sturdy (h : Unharmed t t') (hs : Sturdy t) : Sturdy t' := by
  refine ⟨h.wellFormed hs.1, ?_⟩
  have hroom := hs.2
  unfold Room Table.size at hroom ⊢
  rwa [h.1.iteration]

theorem unharmed_of_table (hw : WellFormed s.table) (htable : s'.table = s.table) :
    Unharmed s.table s'.table := by
  rw [htable]
  exact ⟨SameElements.refl _, hw.consistent⟩

theorem InsertThrown.unharmed (h : InsertThrown s s') (hw : WellFormed s.table)
    (hhash : faultPoint s.heap.fault ≠ some .hash)
    (harray : faultPoint s.heap.fault = some .bucketArray → s.table.bucketCount = 0) :
    Unharmed s.table s'.table := by
  cases h with
  | undone point same consistent => exact ⟨same, consistent⟩
  | lostBuckets point lost => exact ⟨lost.same, lost.consistent hw.consistent (harray point)⟩
  | unplaced point unplaced => exact absurd point hhash

theorem LateThrown.unharmed {n : ℕ} (h : LateThrown n s s') (hw : WellFormed s.table)
    (hsafe : FunctorFault s.heap.fault → EarlyFault n s.heap.fault)
    (harray : faultPoint s.heap.fault = some .bucketArray → s.table.bucketCount = 0) :
    Unharmed s.table s'.table := by
  rcases h with hrefused | ⟨hne, hthrown⟩
  · exact unharmed_of_table hw hrefused.table
  · refine hthrown.unharmed hw (fun hhash => ?_) harray
    rcases hsafe (Or.inl hhash) with hequal | ⟨m, hm, heq⟩
    · rw [hhash] at hequal
      cases hequal
    · exact hne m hm heq

/-- A call that erases no range and throws where it does no harm leaves the elements alone. -/
theorem ThrownBy.unharmed {op : Op τ} (h : ThrownBy s s' op) (hw : WellFormed s.table)
    (hsafe : SafeFault s.table op s.heap.fault) (hrange : ∀ p q, op ≠ .eraseRange p q) :
    Unharmed s.table s'.table := by
  obtain ⟨hcall, harray⟩ := hsafe
  have hrefused : ∀ {n : ℕ}, Refused n s s' → Unharmed s.table s'.table := fun h =>
    unharmed_of_table hw h.table
  cases op with
  | insert value =>
      have hnot : ¬ FunctorFault s.heap.fault := hcall
      rcases h with h | ⟨hfunctor, -⟩
      · exact h.unharmed hw (fun hhash => hnot (Or.inl hhash)) harray
      · exact absurd hfunctor hnot
  | tryEmplace key mapped => exact LateThrown.unharmed h hw hcall harray
  | insertOrAssign key mapped => exact LateThrown.unharmed h hw hcall harray
  | rehash requested | reserve requested =>
      exact InsertThrown.unharmed h hw (fun hhash => hcall (Or.inl hhash)) harray
  | extractKey key | extractAt node =>
      rcases h with h | ⟨htable, -⟩
      · exact hrefused h
      · exact unharmed_of_table hw htable
  | eraseKey key | eraseAt node | find key => exact hrefused h
  | eraseRange p q => exact absurd rfl (hrange p q)
  | assign | clear | maxLoadFactor => exact h.elim

/-- An insertion that such a fault strikes throws before it takes its argument. -/
theorem EmplaceThrown.early (hthrown : EmplaceThrown s s') (h : Untouched s.heap.fault) :
    Early s.heap.fault ∧ InsertThrown s s' := by
  have hins := hthrown.insertThrown h (by simp) (by simp)
  refine ⟨?_, hins⟩
  obtain ⟨q, hq, hpoint⟩ := h
  simp only [List.mem_cons, List.not_mem_nil, or_false] at hq
  rcases hq with rfl | rfl | rfl
  · rcases hins with ⟨⟨p, hp, hp'⟩, -, -⟩ | ⟨hp', -⟩ | ⟨hp', -⟩ <;> rw [hpoint] at hp' <;> cases hp'
    simp at hp
  · exact Or.inl hpoint
  · exact Or.inr hpoint

theorem InsertThrown.untouched (h : InsertThrown s s') (hw : WellFormed s.table)
    (hf : Untouched s.heap.fault) : Unharmed s.table s'.table :=
  h.unharmed hw (hf.ne (by simp)) fun hp => absurd hp (hf.ne (by simp))

namespace MapWorld

/-- An object whose construction has failed. -/
def addDead (m : MapWorld τ) : MapWorld τ := { m with maps := m.maps ++ [none] }

end MapWorld

end Fum.Analysis
