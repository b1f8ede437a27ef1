import Fum.Analysis.Runs

/-!
# What node handles hold

A predicate on handles is untouched by every statement about tables alone. A handle and
its element come from an extraction, are passed on by the operations on handles, and end in
an insertion.
-/

set_option autoImplicit false

namespace Fum.Analysis

open Fum.Model Effects

variable {τ : Traits} {α β : Type} {w w' : World τ} {i j : ℕ} {s : Store τ}
  {P : Handle τ → Prop} {handle : Handle τ}

/-- Every handle satisfies `P`. -/
def EveryHandle (P : Handle τ → Prop) (w : World τ) : Prop :=
  ∀ h handle, w.handle? h = some handle → P handle

/-! ## Handle objects -/

theorem everyHandle_empty : EveryHandle P (World.empty : World τ) := by
  intro h handle hh
  unfold World.handle? World.empty at hh
  rw [List.getElem?_nil] at hh
  cases hh

theorem handle?_append (w : World τ) (h : ℕ) (handle : Handle τ) :
    ({ w with handles := w.handles ++ [some handle] } : World τ).handle? h =
      if h = w.handles.length then some handle else w.handle? h := by
  unfold World.handle?
  by_cases hh : h = w.handles.length
  · rw [if_pos hh, hh]
    simp
  · rw [if_neg hh]
    rcases Nat.lt_or_gt_of_ne hh with hlt | hgt
    · rw [List.getElem?_append_left hlt]
    · rw [List.getElem?_eq_none (by simp; omega), List.getElem?_eq_none (by omega)]

theorem EveryHandle.newHandle (h : EveryHandle P w) (hp : P handle) :
    EveryHandle P { w with handles := w.handles ++ [some handle] } := by
  intro k other hother
  rw [handle?_append] at hother
  split at hother
  · cases hother
    exact hp
  · exact h k other hother

theorem EveryHandle.setHandle {o : Option (Handle τ)} (h : EveryHandle P w)
    (ho : ∀ handle ∈ o, P handle) : EveryHandle P (w.setHandle i o) := by
  intro k other hother
  by_cases hk : i = k
  · subst hk
    unfold World.handle? World.setHandle at hother
    by_cases hi : i < w.handles.length
    · rw [List.getElem?_set_self hi] at hother
      exact ho other hother
    · rw [List.getElem?_eq_none (by rw [List.length_set]; omega)] at hother
      cases hother
  · rw [handle?_setHandle_of_ne hk] at hother
    exact h k other hother

theorem everyHandle_enduring (P : Handle τ → Prop) : Enduring (EveryHandle P) where
  call _ _ _ := keeps_call fun _ _ _ hw => hw
  heap _ _ _ hw := hw
  fresh _ _ _ _ _ hw := hw
  drop _ _ hw := hw

theorem keeps_onTable_handles {x : Exec τ α} : Action.Keeps (EveryHandle P) (onTable i x) :=
  keeps_call fun _ _ _ hw => hw

/-! ## Statements about tables -/

section

variable {this other source : ℕ}

theorem moveConstruct_handles : Action.Keeps (EveryHandle P) (moveConstruct source) :=
  (everyHandle_enduring P).yielding.readTable fun _ => Action.Keeps.bind (fun _ hw => hw) fun _ =>
    Action.Keeps.bind keeps_onTable_handles fun _ => Action.Keeps.pure _

theorem stealStorage_handles : Action.Keeps (EveryHandle P) (stealStorage this other) :=
  (everyHandle_enduring P).yielding.readTable fun _ =>
    (everyHandle_enduring P).yielding.readTable fun _ => Action.Keeps.ite
      (Action.Keeps.bind keeps_onTable_handles fun _ => keeps_onTable_handles)
      Action.Keeps.undefined

theorem moveConstructWith_handles {alloc : τ.Alloc} :
    Action.Keeps (EveryHandle P) (moveConstructWith source alloc) :=
  (everyHandle_enduring P).yielding.readTable fun _ => Action.Keeps.bind
    ((everyHandle_enduring P).fresh _ _ _ _) fun i => Action.Keeps.bind
      (Action.Keeps.cleanup (Action.Keeps.ite stealStorage_handles
        (everyHandle_enduring P).yielding.moveContentsFrom) ((everyHandle_enduring P).drop i))
          fun _ => Action.Keeps.pure _

theorem copyAssign_handles : Action.Keeps (EveryHandle P) (copyAssign this other) := by
  refine Action.Keeps.ite (Action.Keeps.pure _) ((everyHandle_enduring P).yielding.readTable
    fun _ => (everyHandle_enduring P).yielding.readTable fun _ => Action.Keeps.ite ?_ ?_)
  · exact Action.Keeps.bind keeps_onTable_handles fun _ => Action.Keeps.bind
      keeps_onTable_handles fun _ => (everyHandle_enduring P).yielding.copyContentsFrom
  · exact Action.Keeps.bind keeps_onTable_handles fun _ => Action.Keeps.bind
      keeps_onTable_handles fun _ => Action.Keeps.bind keeps_onTable_handles fun _ =>
        (everyHandle_enduring P).yielding.copyContentsFrom

theorem moveAssign_handles : Action.Keeps (EveryHandle P) (moveAssign this other) := by
  refine Action.Keeps.ite (Action.Keeps.pure _) ((everyHandle_enduring P).yielding.readTable
    fun _ => (everyHandle_enduring P).yielding.readTable fun _ => Action.Keeps.ite ?_ ?_)
  · exact Action.Keeps.bind keeps_onTable_handles fun _ => Action.Keeps.bind
      keeps_onTable_handles fun _ => stealStorage_handles
  · exact Action.Keeps.bind keeps_onTable_handles fun _ => Action.Keeps.bind
      keeps_onTable_handles fun _ => (everyHandle_enduring P).yielding.moveContentsFrom

theorem swap_handles : Action.Keeps (EveryHandle P) (swap this other) := by
  refine Action.Keeps.ite (Action.Keeps.pure _) ((everyHandle_enduring P).yielding.readTable
    fun _ => (everyHandle_enduring P).yielding.readTable fun _ => Action.Keeps.ite ?_
      Action.Keeps.undefined)
  exact Action.Keeps.bind keeps_onTable_handles fun _ => keeps_onTable_handles

end

/-! ## The allocator of a handle -/

/-- The element of the handle, if it has one, lives in a cell that `a` allocated, and `a` is
what the handle will deallocate it with. -/
def Paired (a : τ.Alloc) (handle : Handle τ) : Prop :=
  ∀ cell ∈ handle.value, handle.allocator = a ∧ cell.tag = a

variable {a : τ.Alloc}

theorem paired_none (alloc : τ.Alloc) : Paired a (⟨none, alloc⟩ : Handle τ) :=
  fun _ hcell => absurd hcell (Option.not_mem_none _)

theorem Paired.movedFrom (h : Paired a handle) : Paired a handle.movedFrom := by
  intro cell hcell
  obtain ⟨old, hold, rfl⟩ := Option.mem_map.mp hcell
  exact h old hold

/-- The element goes to a handle whose allocator, if the element is there, is the one it
comes with. -/
theorem Paired.pass {alloc : τ.Alloc} (h : Paired a handle)
    (halloc : handle.value ≠ none → alloc = handle.allocator) :
    Paired a (⟨handle.value, alloc⟩ : Handle τ) := by
  intro cell hcell
  refine ⟨?_, (h cell hcell).2⟩
  rw [halloc fun hnone => by rw [hnone] at hcell; cases hcell]
  exact (h cell hcell).1

/-- All tables of the program have the allocator `a`. -/
abbrev AllAllocators (a : τ.Alloc) (w : World τ) : Prop :=
  Everywhere (fun t => t.allocator = a) w

theorem allocator_insensitive (a : τ.Alloc) :
    Insensitive fun t : Table τ => t.allocator = a :=
  ⟨fun _ _ _ _ h => h, fun _ _ h => h⟩

/-- What an extraction returns. -/
theorem extractLocated_paired (index : ℕ) (hs : s.table.allocator = a) :
    Action.Post Stuck.anyhow (extractLocated index) s (fun handle _ => Paired a handle)
      (fun _ => True) := by
  have h := (allocator_insensitive a).steady
  have hkeeps : ∀ {γ : Type} {x : Exec τ γ}, KeepsTable (fun t => t.allocator = a) x →
      ∀ s : Store τ, s.table.allocator = a → Action.Post Stuck.anyhow x s
        (fun _ s' => s'.table.allocator = a) (fun _ => True) :=
    fun hx s hs => (hx.post hs).mono (fun _ _ h' => h') (fun _ _ => trivial) fun _ h' => h'
  unfold extractLocated
  refine Action.Post.bind (hkeeps (keeps_bucketAt index) s hs) (fun _ h' => h')
    fun bucket s1 hs1 => ?_
  refine Action.Post.bind (hkeeps (Action.Keeps.bind (keeps_mayThrow h.toForgetful _) fun _ =>
    Action.Keeps.bind (keeps_freshId h.toForgetful) fun _ => Action.Keeps.bind
      (keeps_modifyHeap (I := fun t => t.allocator = a) _) fun _ => Action.Keeps.pure _) s1 hs1)
    (fun _ h' => h')
    fun id s2 hs2 => ?_
  refine Action.Post.bind (hkeeps (keeps_elementAt _) s2 hs2) (fun _ h' => h')
    fun source s3 hs3 => ?_
  refine Action.Post.bind (hkeeps (Action.Keeps.cleanup (keeps_constructElement h.toForgetful _)
    (keeps_modifyHeap (I := fun t => t.allocator = a) _)) s3 hs3) (fun _ h' => h')
    fun element s4 hs4 => ?_
  refine Action.Post.bind (hkeeps (keeps_assignValue h _ _) s4 hs4) (fun _ h' => h')
    fun _ s5 hs5 => ?_
  refine Action.Post.bind (hkeeps (keeps_eraseLocated h (fun _ _ h' => h') _) s5 hs5)
    (fun _ h' => h') fun _ s6 hs6 => ?_
  rw [post_getTable]
  intro cell hcell
  cases hcell
  exact ⟨hs6, hs6⟩

/-- What a member function returns to the program as a handle. -/
theorem op_paired (op : Op τ) (hs : s.table.allocator = a) :
    Action.Post Stuck.anyhow op.exec s (fun reply _ => ∀ handle, reply = .node handle →
      Paired a handle) (fun _ => True) := by
  have h := (allocator_insensitive a).steady
  have hlocate : ∀ {key : τ.Key} {k : ℕ → Exec τ (Handle τ)},
      (∀ existing s', s'.table.allocator = a → Action.Post Stuck.anyhow (k existing) s'
        (fun handle _ => Paired a handle) (fun _ => True)) →
      ∀ s' : Store τ, s'.table.allocator = a → Action.Post Stuck.anyhow
        (callMixedHash key >>= fun hash => findBucket key hash >>= k) s'
        (fun handle _ => Paired a handle) (fun _ => True) := by
    intro key k hk s' hs'
    refine Action.Post.bind ((keeps_callMixedHash h.toForgetful key).post hs')
      (fun _ _ => trivial) fun hash s1 hs1 => ?_
    exact Action.Post.bind ((keeps_findBucket h.toForgetful key hash).post hs1)
      (fun _ _ => trivial) fun existing s2 hs2 => hk existing s2 hs2
  have hother : ∀ {γ : Type} {x : Exec τ γ} {f : γ → Reply τ}, (∀ c handle, f c ≠ .node handle) →
      Action.Post Stuck.anyhow (x >>= fun c => pure (f c)) s (fun reply _ => ∀ handle,
        reply = .node handle → Paired a handle) (fun _ => True) := by
    intro γ x f hf
    exact Action.Post.bind (Action.Post.any x s) (fun _ h' => h')
      fun c s' _ handle heq => absurd heq (hf c handle)
  cases op with
  | extractKey key =>
      refine Action.Post.bind (hlocate (fun existing s1 hs1 => ?_) s hs) (fun _ h' => h') ?_
      · rw [post_getTable]
        split
        · exact paired_none _
        · exact extractLocated_paired existing hs1
      · rintro handle s' hp other heq
        cases heq
        exact hp
  | extractAt node =>
      refine Action.Post.bind (Q := fun handle _ => Paired a handle) (E := fun _ => True) ?_
        (fun _ h' => h') ?_
      · exact Action.Post.bind ((keeps_keyAt node).post (I := fun s' : Store τ =>
          s'.table.allocator = a) hs) (fun _ _ => trivial) fun key s1 hs1 =>
            hlocate (fun existing s2 hs2 => extractLocated_paired existing hs2) s1 hs1
      · rintro handle s' hp other heq
        cases heq
        exact hp
  | _ => exact hother fun _ _ h => by cases h

/-- What an insertion returns and what it leaves of its argument. -/
theorem insertNode_paired (hp : Paired a handle) :
    Action.Post Stuck.anyhow (insertNode handle) s
      (fun r _ => Paired a r.1.node ∧ Paired a r.2) (fun _ => True) := by
  unfold insertNode
  cases hvalue : handle.value with
  | none => exact ⟨paired_none _, hp⟩
  | some cell =>
      refine Action.Post.bind (Action.Post.any _ s) (fun _ h' => h') fun hash s1 _ => ?_
      refine Action.Post.bind (Action.Post.any _ s1) (fun _ h' => h') fun existing s2 _ => ?_
      rw [post_getTable]
      split
      · refine Action.Post.bind (Action.Post.any _ s2) (fun _ h' => h') fun bucket s3 _ => ?_
        exact ⟨hp, paired_none _⟩
      · refine Action.Post.bind (Action.Post.any _ s2) (fun _ h' => h') fun node s3 _ => ?_
        refine Action.Post.bind (Action.Post.any _ s3) (fun _ h' => h') fun _ s4 _ => ?_
        exact ⟨paired_none _, paired_none _⟩

/-! ## Statements about handles -/

section

variable {this source : ℕ}

/-- The statement gives a handle an element that its allocator did not allocate: a move
assignment or a swap of handles that leaves unequal allocators where they are. -/
def Mispairs (w : World τ) : WorldOp τ → Prop
  | .handleAssign this source => τ.pocma = false ∧ this ≠ source ∧
      ∃ handle ∈ w.handle? this, ∃ other ∈ w.handle? source,
        other.value.isSome ∧ handle.allocator ≠ other.allocator
  | .handleSwap this source => τ.pocs = false ∧
      ∃ handle ∈ w.handle? this, ∃ other ∈ w.handle? source,
        (handle.value.isSome ∨ other.value.isSome) ∧ handle.allocator ≠ other.allocator
  | _ => False

theorem insertHandle_paired {hinted : Bool} {hd : ℕ} (h : EveryHandle (Paired a) w) :
    Action.Post Stuck.anyhow (insertHandle hinted this hd) w (fun _ => EveryHandle (Paired a))
      (EveryHandle (Paired a)) := by
  unfold insertHandle
  refine post_readHandle (fun handle hh => ?_) fun _ => trivial
  have hp := h hd handle hh
  have hmoving : Action.Post Stuck.anyhow (movingHandle hd (onTable this (insertNode handle))) w
      (fun r w' => EveryHandle (Paired a) w' ∧ Paired a r.1.node ∧ Paired a r.2)
      (EveryHandle (Paired a)) := by
    have hcall : Action.Post Stuck.anyhow (onTable this (insertNode handle))
        { w with heap := { w.heap with moved := false } }
        (fun r w' => EveryHandle (Paired a) w' ∧ Paired a r.1.node ∧ Paired a r.2)
        (EveryHandle (Paired a)) :=
      post_onTable (fun _ _ => (insertNode_paired hp).mono (fun _ _ hr => ⟨h, hr⟩)
        (fun _ _ => h) fun _ h' => h') fun _ => trivial
    unfold Action.Post at hcall ⊢
    simp only [movingHandle]
    have hmoved : ∀ w', EveryHandle (Paired a) w' →
        EveryHandle (Paired a) (w'.setHandle hd ((w'.handle? hd).map Handle.movedFrom)) := by
      intro w' hw'
      refine hw'.setHandle fun handle' hh' => ?_
      obtain ⟨old, hold, rfl⟩ := Option.mem_map.mp hh'
      exact (hw' hd old hold).movedFrom
    rcases hr : (onTable this (insertNode handle)).run
      { w with heap := { w.heap with moved := false } } with ⟨_ | _ | _ | _, w1⟩ <;>
      rw [hr] at hcall <;> cases hm : w1.heap.moved
    · exact hcall
    · exact ⟨hmoved w1 hcall.1, hcall.2⟩
    · exact hcall
    · exact hmoved w1 hcall
    all_goals trivial
  refine Action.Post.bind hmoving (fun _ h' => h') fun r w1 h1 => ?_
  obtain ⟨hw1, hnode, hrest⟩ := h1
  have hset : EveryHandle (Paired a) (w1.setHandle hd (some r.2)) :=
    hw1.setHandle fun _ heq => Option.some.inj heq ▸ hrest
  cases hinted with
  | true => exact hset
  | false => exact hset.newHandle hnode

theorem handleMove_paired (h : EveryHandle (Paired a) w) :
    Action.Post Stuck.anyhow (handleMove source) w (fun _ => EveryHandle (Paired a))
      (EveryHandle (Paired a)) := by
  unfold handleMove
  refine post_readHandle (fun other hother => ?_) fun _ => trivial
  rw [post_newHandle]
  exact (h.newHandle (h source other hother)).setHandle fun _ heq =>
    Option.some.inj heq ▸ paired_none _

theorem handleAssign_paired (h : EveryHandle (Paired a) w)
    (hstep : ¬ Mispairs w (.handleAssign this source)) :
    Action.Post Stuck.anyhow (handleAssign this source) w (fun _ => EveryHandle (Paired a))
      (EveryHandle (Paired a)) := by
  unfold handleAssign
  by_cases hself : this = source
  · rw [if_pos hself]
    exact h
  rw [if_neg hself]
  refine post_readHandle (fun handle hhandle => ?_) fun _ => trivial
  refine post_readHandle (fun other hother => ?_) fun _ => trivial
  have hpass : Paired a (⟨other.value, if τ.pocma then other.allocator else handle.allocator⟩ :
      Handle τ) := by
    refine (h source other hother).pass fun hvalue => ?_
    cases hpocma : τ.pocma with
    | true => rfl
    | false =>
        by_contra hne
        exact hstep ⟨hpocma, hself, handle, hhandle, other, hother,
          Option.ne_none_iff_isSome.mp hvalue, hne⟩
  have hset : EveryHandle (Paired a) (World.setHandle { w with heap := w.heap.releaseHandle handle }
      this (some ⟨other.value, if τ.pocma then other.allocator else handle.allocator⟩)) :=
    EveryHandle.setHandle (w := { w with heap := w.heap.releaseHandle handle }) h fun _ heq =>
      Option.some.inj heq ▸ hpass
  exact hset.setHandle fun _ heq => Option.some.inj heq ▸ paired_none _

theorem handleSwap_paired (h : EveryHandle (Paired a) w)
    (hstep : ¬ Mispairs w (.handleSwap this source)) :
    Action.Post Stuck.anyhow (handleSwap this source) w (fun _ => EveryHandle (Paired a))
      (EveryHandle (Paired a)) := by
  unfold handleSwap
  refine post_readHandle (fun handle hhandle => ?_) fun _ => trivial
  refine post_readHandle (fun other hother => ?_) fun _ => trivial
  have hequal : τ.pocs = false → handle.value ≠ none ∨ other.value ≠ none →
      handle.allocator = other.allocator := by
    intro hpocs hvalue
    by_contra hne
    exact hstep ⟨hpocs, handle, hhandle, other, hother,
      hvalue.imp Option.ne_none_iff_isSome.mp Option.ne_none_iff_isSome.mp, hne⟩
  have hthis : Paired a (⟨other.value, if τ.pocs then other.allocator else handle.allocator⟩ :
      Handle τ) := by
    refine (h source other hother).pass fun hvalue => ?_
    cases hpocs : τ.pocs with
    | true => rfl
    | false => exact hequal hpocs (Or.inr hvalue)
  have hsource : Paired a (⟨handle.value, if τ.pocs then handle.allocator else other.allocator⟩ :
      Handle τ) := by
    refine (h this handle hhandle).pass fun hvalue => ?_
    cases hpocs : τ.pocs with
    | true => rfl
    | false => exact (hequal hpocs (Or.inl hvalue)).symm
  exact (h.setHandle fun _ heq => Option.some.inj heq ▸ hthis).setHandle fun _ heq =>
    Option.some.inj heq ▸ hsource

theorem destroyHandle_paired {hd : ℕ} (h : EveryHandle (Paired a) w) :
    Action.Post Stuck.anyhow (destroyHandle hd) w (fun _ => EveryHandle (Paired a))
      (EveryHandle (Paired a)) := by
  unfold destroyHandle
  refine post_readHandle (fun handle _ => ?_) fun _ => trivial
  exact EveryHandle.setHandle (w := { w with heap := w.heap.releaseHandle handle }) h
    fun _ heq => by cases heq

/-- A statement that mispairs nothing, over tables with the allocator `a`. -/
theorem WorldOp.exec_paired (op : WorldOp τ) (h : EveryHandle (Paired a) w)
    (hall : AllAllocators a w) (hstep : ¬ Mispairs w op) :
    Action.Post Stuck.anyhow op.exec w (fun _ => EveryHandle (Paired a))
      (EveryHandle (Paired a)) := by
  have he := everyHandle_enduring (Paired a : Handle τ → Prop)
  have hignoring : ∀ {α : Type} {x : Action (World τ) α},
      Action.Post Stuck.anyhow x w (fun _ => EveryHandle (Paired a)) (EveryHandle (Paired a)) →
        Action.Post Stuck.anyhow (ignoring x) w (fun _ => EveryHandle (Paired a))
          (EveryHandle (Paired a)) :=
    fun hx => Action.Post.bind hx (fun _ h' => h') fun _ _ h' => h'
  cases op with
  | construct n hash equal alloc => exact hignoring (he.construct.post h)
  | constructRange values n hash equal alloc => exact hignoring (he.constructRange.post h)
  | copyConstruct source =>
      exact hignoring ((he.yielding.readTable fun _ => he.copyConstructWith).post h)
  | copyConstructWith source alloc => exact hignoring (he.copyConstructWith.post h)
  | moveConstruct source => exact hignoring (moveConstruct_handles.post h)
  | moveConstructWith source alloc => exact hignoring (moveConstructWith_handles.post h)
  | destroy this => exact he.destroy.post h
  | copyAssign this other => exact copyAssign_handles.post h
  | moveAssign this other => exact moveAssign_handles.post h
  | assignValues this values => exact he.yielding.assignValues.post h
  | swap this other => exact swap_handles.post h
  | merge this source => exact he.mergeFrom.post h
  | table this op =>
      refine Action.Post.bind (post_onTable (Q := fun reply w' => EveryHandle (Paired a) w' ∧
        ∀ handle, reply = .node handle → Paired a handle) (E := EveryHandle (Paired a))
        (fun t ht => (op_paired (s := ⟨t, w.heap⟩) op (hall this t ht)).mono
          (fun _ _ hr => ⟨h, hr⟩) (fun _ _ => h) fun _ h' => h') fun _ => trivial)
        (fun _ h' => h') fun reply w' ⟨hw', hreply⟩ => ?_
      cases reply with
      | node handle => exact hw'.newHandle (hreply handle rfl)
      | none => exact hw'
      | inserted _ _ => exact hw'
      | erased _ => exact hw'
      | iterator _ => exact hw'
  | insertHandle hinted this hd => exact hignoring (insertHandle_paired h)
  | handleDefault => exact hignoring (h.newHandle (paired_none _))
  | handleMove source => exact hignoring (handleMove_paired h)
  | handleAssign this source => exact handleAssign_paired h hstep
  | handleSwap this source => exact handleSwap_paired h hstep
  | handleDestroy hd => exact destroyHandle_paired h

end

/-- In a run over tables with the allocator `a` that mispairs nothing, `a` allocated and
will deallocate what the handles hold. -/
theorem run_paired {steps : List (Step τ)} (hrun : Run World.empty steps w)
    (hsteps : EachStep (fun w1 step => AllAllocators a w1 ∧ ¬ Mispairs w1 step.op)
      World.empty steps) : EveryHandle (Paired a) w := by
  refine Run.invariant hrun everyHandle_empty ?_ hsteps
  rintro w1 step w2 hw1 ⟨hall, hstep⟩ hends
  rcases Step.ends_post (WorldOp.exec_paired (w := started step w1) step.op hw1 hall hstep)
    hends with h | ⟨-, h⟩
  · exact h
  · exact h

end Fum.Analysis
