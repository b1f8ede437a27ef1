import Fum.Interface.Copying

/-!
# Moves

A table that steals the storage of another and one that moves the elements over end with the
same elements in the same order, and leave an empty table behind that is as good as new.
-/

set_option autoImplicit false

namespace Fum.Interface

open Fum.Model Fum.Analysis Effects

variable {τ : Traits} {U : Stuck → Prop} {w w0 w' : World τ} {i j k : ℕ} {t u u' : Table τ}
  {steps : List (Step τ)}

/-! ## The three paths -/

/-- The elements of `u` have gone from the table `j` to the table `i`. -/
def Handed (w0 : World τ) (i j : ℕ) (u : Table τ) (w' : World τ) : Prop :=
  ∃ t u', Pair w0 i j t u' w' ∧ CopyOf u t ∧ Refilled u [] u'

theorem Handed.of_started {step : Step τ} (h : Handed (started step w0) i j u w') :
    Handed w0 i j u w' := by
  obtain ⟨t, u', hp, hrest⟩ := h
  exact ⟨t, u', ⟨hp.ne, hp.left, hp.right, hp.others, hp.handles⟩, hrest⟩

theorem refilled_afterSteal (u : Table τ) : Refilled u [] u.afterSteal where
  wellFormed := afterSteal_wellFormed u
  contents := rfl
  policy := ⟨rfl, rfl, rfl, rfl⟩

/-- Both members of the storage change hands; the receiver keeps its allocator. -/
theorem stealStorage_spec (hp : Pair w0 i j t u w) (hu : WellFormed u)
    (hgives : ¬ u.givesUpChunks t → U .undefined) :
    Action.Post U (stealStorage i j) w (fun _ => Handed w0 i j u) (fun _ => False) := by
  refine post_stealStorage hp.left hp.right hp.ne hgives fun _ => ?_
  refine ⟨_, _, (hp.setLeft ⟨t.stealStorageFrom u, w.heap⟩).setRight ⟨u.afterSteal, w.heap⟩,
    ⟨hu.realloc _ _, rfl, rfl, rfl, rfl⟩, refilled_afterSteal u⟩

theorem pair_newTable (hj : w.table? j = some u) (t : Table τ) :
    Pair w w.tables.length j t u { w with tables := w.tables ++ [some t] } where
  ne := (lt_of_join_eq_some hj).ne'
  left := table?_newTable w t
  right := table?_append_of_some hj t
  others k hk _ := by rw [table?_append, if_neg hk]
  handles := rfl

theorem moveConstruct_spec (hj : w.table? j = some u) (hu : WellFormed u) :
    Action.Post U (moveConstruct j) w
      (fun i w' => i = w.tables.length ∧ Handed w i j u w') (fun _ => False) := by
  unfold moveConstruct
  refine post_readTable (fun source hsource => ?_) fun hnone => absurd hnone (by rw [hj]; simp)
  cases hj.symm.trans hsource
  rw [post_newTable]
  have hp := pair_newTable hj u
  refine post_modify_onTable hp.right ⟨rfl, u, _, hp.setRight ⟨u.afterSteal, w.heap⟩, ?_,
    refilled_afterSteal u⟩
  exact ⟨hu, rfl, rfl, rfl, rfl⟩

/-- The loop path, from an empty table with the policy of the source. -/
theorem moveContents_handed (hp : Pair w0 i j t u w) (ht : WellFormed t) (hempty : t.iteration = [])
    (hfactor : t.maxLoadFactor = u.maxLoadFactor) (hhash : t.hashFunction = u.hashFunction)
    (hequal : t.keyEqual = u.keyEqual) (hu : WellFormed u) (hroom : Room u) (hlaw : LawfulTable u)
    (hrange : ¬ Copyable u → U .undefined) (hquiet : w.heap.fault = none) :
    Action.Post U (moveContentsFrom i j) w (fun _ w' => Copyable u ∧ Handed w0 i j u w')
      (fun _ => False) := by
  have hlawt : LawfulTable t := by
    unfold LawfulTable
    rw [hhash, hequal]
    exact hlaw
  refine (moveContentsFrom_spec hp.ne hp.left hp.right ht hempty hlawt hfactor hequal hu hroom
    hlaw hrange hquiet).mono ?_ (fun _ h => h) fun _ h => h
  rintro ⟨⟩ w1 ⟨hcopyable, t', u', hp1, hrefilled, hemptied, -⟩
  refine ⟨hcopyable, t', u', ⟨hp.ne, hp1.left, hp1.right, fun k hi hj => ?_,
    hp1.handles.trans hp.handles⟩, hrefilled.copyOf hfactor hhash hequal, hemptied⟩
  exact (hp1.others k hi hj).trans (hp.others k hi hj)

theorem moveConstructWith_spec (alloc : τ.Alloc) (hj : w.table? j = some u) (hu : WellFormed u)
    (hroom : Room u) (hlaw : LawfulTable u)
    (hgives : alloc = u.allocator → ¬ u.givesUpChunks
      (Table.initial u.maxLoadFactor u.hashFunction u.keyEqual alloc) → U .undefined)
    (hrange : ¬ (alloc = u.allocator ∨ Copyable u) → U .undefined)
    (hquiet : w.heap.fault = none) :
    Action.Post U (moveConstructWith j alloc) w
      (fun i w' => (alloc = u.allocator ∨ Copyable u) ∧ i = w.tables.length ∧ Handed w i j u w')
      (fun _ => False) := by
  unfold moveConstructWith
  refine post_readTable (fun source hsource => ?_) fun hnone => absurd hnone (by rw [hj]; simp)
  cases hj.symm.trans hsource
  rw [post_newTable]
  have hp := pair_newTable hj
    (Table.initial u.maxLoadFactor u.hashFunction u.keyEqual alloc : Table τ)
  refine Action.Post.bind (Q := fun _ w' => (alloc = u.allocator ∨ Copyable u) ∧
      Handed w w.tables.length j u w') (E := fun _ => False)
    (Action.Post.cleanup (E := fun _ => False) ?_ fun _ h => h.elim) (fun _ h => h)
    fun _ _ h => ⟨h.1, rfl, h.2⟩
  split
  · next heq =>
      exact (stealStorage_spec hp hu (hgives heq)).mono (fun _ _ h => ⟨Or.inl heq, h⟩)
        (fun _ h => h) fun _ h => h
  · next hne =>
      exact (moveContents_handed hp (initial_wellFormed _ _ _ _) rfl rfl rfl rfl hu hroom hlaw
        (fun hcopyable => hrange (not_or.mpr ⟨hne, hcopyable⟩)) hquiet).mono
          (fun _ _ h => ⟨Or.inr h.1, h.2⟩) (fun _ h => h) fun _ h => h

theorem moveAssign_spec (hne : i ≠ j) (hi : w.table? i = some t) (hj : w.table? j = some u)
    (ht : WellFormed t) (hu : WellFormed u) (hroom : Room u) (hlaw : LawfulTable u)
    (hgives : τ.pocma = true ∨ t.allocator = u.allocator → ¬ u.givesUpChunks t → U .undefined)
    (hrange : ¬ ((τ.pocma = true ∨ t.allocator = u.allocator) ∨ Copyable u) → U .undefined)
    (hquiet : w.heap.fault = none) :
    Action.Post U (moveAssign i j) w
      (fun _ w' => ((τ.pocma = true ∨ t.allocator = u.allocator) ∨ Copyable u) ∧
        Handed w i j u w') (fun _ => False) := by
  have hp0 := Pair.refl hne hi hj
  unfold moveAssign
  rw [if_neg hne]
  refine post_readTable (fun source hsource => ?_) fun hnone => absurd hnone (by rw [hj]; simp)
  refine post_readTable (fun this hthis => ?_) fun hnone => absurd hnone (by rw [hi]; simp)
  cases hj.symm.trans hsource
  cases hi.symm.trans hthis
  split
  · next hsteal =>
      refine hp0.post_left ((destroyEverything_spec (s := ⟨t, w.heap⟩) ht.consistent.slots
        ht.consistent.filled hquiet).mono (fun _ s1 h1 hp1 => ?_) (fun _ h => h.elim) fun _ h => h)
      refine hp1.post_modifyLeft fun w2 hp2 _ => ?_
      refine (stealStorage_spec hp2 hu fun hkeeps => hgives hsteal fun hgives' => hkeeps ?_).mono
        (fun _ _ h => ⟨Or.inl hsteal, h⟩) (fun _ h => h) fun _ h => h
      have hvectors : s1.table.vectorAllocator = t.vectorAllocator := h1.2.1
      unfold Table.givesUpChunks at hgives' ⊢
      rw [← hvectors] at hgives'
      split <;> exact hgives'
  · next hmove =>
      refine hp0.post_left ((clear_quiet (s := ⟨t, w.heap⟩) ht hquiet).mono
        (fun _ s1 h1 hp1 => ?_) (fun _ h => h.elim) fun _ h => h)
      refine hp1.post_modifyLeft fun w2 hp2 hheap => ?_
      have hquiet2 : w2.heap.fault = none := by rw [hheap]; exact h1.2.2
      exact (moveContents_handed hp2 (h1.1.adoptPolicy h1.2.1 u) h1.2.1 rfl rfl rfl hu hroom hlaw
        (fun hcopyable => hrange (not_or.mpr ⟨hmove, hcopyable⟩)) hquiet2).mono
          (fun _ _ h => ⟨Or.inr h.1, h.2⟩) (fun _ h => h) fun _ h => h

end Fum.Interface
