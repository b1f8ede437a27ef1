import Fum.Analysis.Disposal

/-!
# The objects of a program

What all tables and handles of a program own together, and the judgement `WorldSound`:
every table is in order and the memory answers for exactly the objects that are alive,
apart from what has been lost. A call on one table is judged with everything else as its
frame.
-/

set_option autoImplicit false

namespace Fum.Analysis

open Fum.Model Effects

variable {τ : Traits} {α β : Type}

/-! ## Sums over the objects -/

/-- The sum of `f` over the objects that are alive. -/
def total {ι : Type} (f : ι → Holdings) (l : List (Option ι)) : Holdings :=
  (l.map fun o => o.elim 0 f).sum

section

variable {ι : Type} {f : ι → Holdings} {l : List (Option ι)} {i : ℕ}

theorem total_append (l : List (Option ι)) (o : Option ι) :
    total f (l ++ [o]) = total f l + o.elim 0 f := by
  simp [total]

/-- One object and the rest. -/
theorem total_set (hi : i < l.length) (o : Option ι) :
    total f (l.set i o) = o.elim 0 f + total f (l.set i none) := by
  induction l generalizing i with
  | nil => simp at hi
  | cons a l ih =>
      cases i with
      | zero => simp [total]
      | succ i =>
          have h := ih (i := i) (by simpa using hi)
          simp only [total, List.set_cons_succ, List.map_cons, List.sum_cons] at h ⊢
          rw [h, add_left_comm]

theorem total_eq {x : ι} (hx : l[i]?.join = some x) :
    total f l = f x + total f (l.set i none) := by
  have hget : l[i]? = some (some x) := by
    cases h : l[i]? with
    | none => rw [h] at hx; cases hx
    | some o => rw [h] at hx; exact congrArg some hx
  obtain ⟨hi, heq⟩ := List.getElem?_eq_some_iff.mp hget
  have hself : l.set i (some x) = l := by
    rw [← heq]
    exact List.set_getElem_self hi
  have h := total_set (f := f) hi (some x)
  rwa [hself] at h

end

/-- What a table owns. -/
def tableOwns (t : Table τ) : Holdings := owns t t.iteration

/-! ## Access to the objects -/

theorem lt_of_join_eq_some {ι : Type} {l : List (Option ι)} {i : ℕ} {x : ι}
    (h : l[i]?.join = some x) : i < l.length := by
  by_contra hge
  rw [List.getElem?_eq_none (not_lt.mp hge)] at h
  cases h

section

variable {w : World τ} {i j : ℕ} {t : Table τ}

theorem not_table?_empty : (World.empty : World τ).table? i ≠ some t := by
  intro ht
  unfold World.table? World.empty at ht
  rw [List.getElem?_nil] at ht
  cases ht

theorem table?_setTable_self {t' : Option (Table τ)} (ht : w.table? i = some t) :
    (w.setTable i t').table? i = t' := by
  have hi := lt_of_join_eq_some ht
  unfold World.table? World.setTable
  rw [List.getElem?_set_self hi]
  rfl

theorem table?_setTable_of_ne (hne : i ≠ j) (t' : Option (Table τ)) :
    (w.setTable i t').table? j = w.table? j := by
  unfold World.table? World.setTable
  rw [List.getElem?_set_ne hne]

theorem setTable_self (ht : w.table? i = some t) : w.setTable i (some t) = w := by
  have hi := lt_of_join_eq_some ht
  have hget : w.tables[i] = some t := by
    unfold World.table? at ht
    rw [List.getElem?_eq_getElem hi] at ht
    exact ht
  unfold World.setTable
  rw [← hget, List.set_getElem_self hi]

end

/-- The world after a call on the table `i` that ended in `s`. -/
def withStore (w : World τ) (i : ℕ) (s : Store τ) : World τ :=
  { w.setTable i (some s.table) with heap := s.heap }

theorem withStore_self {w : World τ} {i : ℕ} {t : Table τ} (ht : w.table? i = some t) :
    withStore w i ⟨t, w.heap⟩ = w := by
  unfold withStore
  rw [setTable_self ht]

/-! ## Calls on one table -/

section

variable {U : Stuck → Prop} {w : World τ} {i : ℕ} {x : Exec τ α}

theorem run_onTable {t : Table τ} (ht : w.table? i = some t) :
    (onTable i x).run w = ((x.run ⟨t, w.heap⟩).1, withStore w i (x.run ⟨t, w.heap⟩).2) := by
  simp only [onTable, ht]
  rfl

theorem run_onTable_none (ht : w.table? i = none) : (onTable i x).run w = (.undefined, w) := by
  simp only [onTable, ht]

/-- A call on the table `i` keeps what it keeps of the store of that table. -/
theorem keeps_call {W : World τ → Prop}
    (hx : ∀ w t, w.table? i = some t → W w → W (withStore w i (x.run ⟨t, w.heap⟩).2)) :
    Action.Keeps W (onTable i x) := by
  intro w hw
  cases ht : w.table? i with
  | none =>
      rw [run_onTable_none ht]
      exact hw
  | some t =>
      rw [run_onTable ht]
      exact hx w t ht hw

/-- A call on the table `i` runs in the store of that table. -/
theorem post_onTable {Q : α → World τ → Prop} {E : World τ → Prop}
    (hx : ∀ t, w.table? i = some t → Action.Post U x ⟨t, w.heap⟩
      (fun a s' => Q a (withStore w i s')) (fun s' => E (withStore w i s')))
    (hU : w.table? i = none → U .undefined) : Action.Post U (onTable i x) w Q E := by
  cases ht : w.table? i with
  | none =>
      unfold Action.Post
      rw [run_onTable_none ht]
      exact hU ht
  | some t =>
      have h := hx t ht
      unfold Action.Post at h ⊢
      rw [run_onTable ht]
      rcases hr : x.run ⟨t, w.heap⟩ with ⟨_ | _ | _ | _, s'⟩ <;> rw [hr] at h <;> exact h

theorem post_onTable_bind {k : α → Action (World τ) β} {Q : β → World τ → Prop}
    {E : World τ → Prop}
    (hx : ∀ t, w.table? i = some t → Action.Post U x ⟨t, w.heap⟩
      (fun a s' => Action.Post U (k a) (withStore w i s') Q E)
      (fun s' => E (withStore w i s')))
    (hU : w.table? i = none → U .undefined) : Action.Post U (onTable i x >>= k) w Q E :=
  Action.Post.bind (post_onTable (Q := fun a w' => Action.Post U (k a) w' Q E) hx hU)
    (fun _ h => h) fun _ _ h => h

theorem post_readTable {k : Table τ → Action (World τ) β} {Q : β → World τ → Prop}
    {E : World τ → Prop} (hk : ∀ t, w.table? i = some t → Action.Post U (k t) w Q E)
    (hU : w.table? i = none → U .undefined) : Action.Post U (readTable i >>= k) w Q E := by
  refine post_onTable_bind (fun t ht => ?_) hU
  have h := hk t ht
  rw [← withStore_self ht] at h
  exact h

theorem post_readHandle {k : Handle τ → Action (World τ) β} {Q : β → World τ → Prop}
    {E : World τ → Prop} (hk : ∀ h, w.handle? i = some h → Action.Post U (k h) w Q E)
    (hU : w.handle? i = none → U .undefined) : Action.Post U (readHandle i >>= k) w Q E := by
  cases hh : w.handle? i with
  | none =>
      have hrun : (readHandle i).run w = (.undefined, w) := by simp only [readHandle, hh]
      unfold Action.Post
      rw [Action.run_bind, hrun]
      exact hU hh
  | some handle =>
      have hrun : (readHandle i).run w = (.ok handle, w) := by simp only [readHandle, hh]
      unfold Action.Post
      rw [Action.run_bind, hrun]
      exact hk handle hh

end

/-! ## The judgement -/

/-- What the objects that are alive own together. -/
def World.owns (w : World τ) : Holdings := total tableOwns w.tables + total handleOwns w.handles

/-- Every table is in order, and the memory answers for the objects that are alive and
for what has been lost. -/
structure WorldSound (lost : Holdings) (w : World τ) : Prop where
  tables : ∀ i t, w.table? i = some t → Slots t [] ∧ Filled t t.iteration
  balanced : Balanced w.heap (World.owns w + lost)

/-- What everybody but the table `i` owns. -/
def restOf (w : World τ) (i : ℕ) : Holdings := World.owns (w.setTable i none)

variable {lost lost' : Holdings} {w w' : World τ} {i j : ℕ} {t : Table τ} {s : Store τ}

theorem World.owns_eq (ht : w.table? i = some t) : World.owns w = tableOwns t + restOf w i := by
  unfold World.owns restOf World.owns World.setTable
  rw [total_eq (f := tableOwns) ht, add_assoc]

theorem World.owns_setTable (hi : i < w.tables.length) (t : Option (Table τ)) :
    World.owns (w.setTable i t) = t.elim 0 tableOwns + restOf w i := by
  unfold World.owns restOf World.owns World.setTable
  rw [total_set hi, add_assoc]

/-- A table of a sound world is sound with everything else as its frame. -/
theorem WorldSound.table (h : WorldSound lost w) (ht : w.table? i = some t) :
    SoundTable (restOf w i + lost) ⟨t, w.heap⟩ := by
  obtain ⟨hslots, hfilled⟩ := h.tables i t ht
  refine ⟨hslots, hfilled, ?_⟩
  have hbal := h.balanced
  rw [World.owns_eq ht, add_assoc] at hbal
  exact hbal

/-- A call that leaves its table sound leaves the world sound. -/
theorem WorldSound.store (h : WorldSound lost w) (ht : w.table? i = some t)
    (hs : SoundTable (restOf w i + lost') s) : WorldSound lost' (withStore w i s) where
  tables j t' ht' := by
    by_cases hj : i = j
    · subst hj
      have hself : (w.setTable i (some s.table)).table? i = some s.table :=
        table?_setTable_self ht
      have heq : some s.table = some t' := hself.symm.trans ht'
      cases heq
      exact ⟨hs.slots, hs.filled⟩
    · have hother : (w.setTable i (some s.table)).table? j = w.table? j :=
        table?_setTable_of_ne hj _
      exact h.tables j t' (hother.symm.trans ht')
  balanced := by
    have hbal := hs.balanced
    have howns : World.owns (withStore w i s) = tableOwns s.table + restOf w i :=
      World.owns_setTable (lt_of_join_eq_some ht) (some s.table)
    rw [howns, add_assoc]
    exact hbal

/-- The world survives changes of the memory that are none of its accounts. -/
theorem WorldSound.reheap (h : WorldSound lost w) {heap : Heap}
    (hb : Balanced w.heap (World.owns w + lost) → Balanced heap (World.owns w + lost')) :
    WorldSound lost' { w with heap := heap } := ⟨h.tables, hb h.balanced⟩

/-- How a step that throws leaves a sound world. -/
def WorldThrown (lost : Holdings) (clean : Prop) (w : World τ) : Prop :=
  ∃ lost', WorldSound lost' w ∧ (clean → lost' = lost)

theorem WorldSound.thrown (h : WorldSound lost w) (clean : Prop) : WorldThrown lost clean w :=
  ⟨lost, h, fun _ => rfl⟩

theorem WorldThrown.weaken {clean clean' : Prop} (h : WorldThrown lost clean w)
    (hc : clean' → clean) : WorldThrown lost clean' w := by
  obtain ⟨lost', hs, heq⟩ := h
  exact ⟨lost', hs, fun h' => heq (hc h')⟩

/-- The chunks that `chunks_` has no room for are lost. -/
def NoChunksGrowth (fault : Option (Point × ℕ)) : Prop := faultPoint fault ≠ some .chunksGrowth

theorem WorldSound.store_thrown (h : WorldSound lost w) (ht : w.table? i = some t)
    (hs : SoundThrown (restOf w i + lost) (faultPoint w.heap.fault) s) :
    WorldThrown lost (NoChunksGrowth w.heap.fault) (withStore w i s) := by
  obtain ⟨more, hs', hmore⟩ := hs
  rw [add_assoc] at hs'
  refine ⟨lost + more, h.store ht hs', fun hclean => ?_⟩
  rw [hmore.eq_zero hclean, add_zero]

end Fum.Analysis
