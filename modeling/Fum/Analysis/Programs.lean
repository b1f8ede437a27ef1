import Fum.Analysis.Merging

/-!
# Programs keep the accounts

Node handles, the lemma about one statement of a program and, by induction over the
steps, the lemma about a run.
-/

set_option autoImplicit false

namespace Fum.Analysis

open Fum.Model Effects

variable {τ : Traits} {α β : Type} {lost lost' : Holdings} {w w' : World τ} {i j : ℕ}
  {t : Table τ} {s : Store τ}

/-! ## Handle objects -/

/-- A handle object that has given its element away. -/
theorem handleOwns_empty (handle : Handle τ) :
    handleOwns ({ handle with value := none } : Handle τ) = 0 := rfl

/-- The accounts depend on what the handles own together. -/
theorem WorldSound.rehandle (h : WorldSound lost w) {handles : List (Option (Handle τ))}
    (htotal : total handleOwns handles = total handleOwns w.handles) :
    WorldSound lost { w with handles := handles } where
  tables := h.tables
  balanced := by
    have heq : World.owns { w with handles := handles } = World.owns w := by
      unfold World.owns
      rw [htotal]
    rw [heq]
    exact h.balanced

theorem handle?_setHandle_self {handle handle' : Handle τ} (hh : w.handle? i = some handle) :
    (w.setHandle i (some handle')).handle? i = some handle' := by
  have hi : i < w.handles.length := lt_of_join_eq_some hh
  unfold World.handle? World.setHandle
  rw [List.getElem?_set_self hi]
  rfl

theorem handle?_setHandle_of_ne (hne : i ≠ j) (o : Option (Handle τ)) :
    (w.setHandle i o).handle? j = w.handle? j := by
  unfold World.handle? World.setHandle
  rw [List.getElem?_set_ne hne]

theorem post_newHandle {U : Stuck → Prop} {k : ℕ → Action (World τ) β}
    {Q : β → World τ → Prop} {E : World τ → Prop} {handle : Handle τ} :
    Action.Post U (newHandle handle >>= k) w Q E ↔
      Action.Post U (k w.handles.length) { w with handles := w.handles ++ [some handle] } Q E :=
  Iff.rfl

/-- A new handle object takes over what somebody holds for it. -/
theorem WorldSound.newHandle {handle : Handle τ} (h : WorldSound (lost + handleOwns handle) w) :
    WorldSound lost { w with handles := w.handles ++ [some handle] } where
  tables := h.tables
  balanced := by
    have heq : World.owns { w with handles := w.handles ++ [some handle] } =
        World.owns w + handleOwns handle := by
      unfold World.owns
      rw [total_append, add_assoc]
      rfl
    rw [heq, add_assoc, add_comm (handleOwns handle)]
    exact h.balanced

/-- A handle object that is replaced. -/
theorem WorldSound.setHandle {handle handle' : Handle τ} (hh : w.handle? i = some handle)
    (h : WorldSound lost w) (hlost : lost + handleOwns handle = lost' + handleOwns handle') :
    WorldSound lost' (w.setHandle i (some handle')) where
  tables := h.tables
  balanced := by
    have hi : i < w.handles.length := lt_of_join_eq_some hh
    have hold : World.owns w = total tableOwns w.tables +
        (handleOwns handle + total handleOwns (w.handles.set i none)) := by
      unfold World.owns
      rw [total_eq (f := handleOwns) hh]
    have hnew : World.owns (w.setHandle i (some handle')) = total tableOwns w.tables +
        (handleOwns handle' + total handleOwns (w.handles.set i none)) := by
      unfold World.owns World.setHandle
      rw [total_set hi]
      rfl
    have hbal := h.balanced
    rw [hold, add_comm (handleOwns handle), ← add_assoc, add_assoc,
      add_comm (handleOwns handle), hlost, add_comm lost', ← add_assoc, add_assoc _ _
      (handleOwns handle'), add_comm _ (handleOwns handle'), ← hnew] at hbal
    exact hbal

theorem fault_releaseHandle (heap : Heap) (handle : Handle τ) :
    (heap.releaseHandle handle).fault = heap.fault := by
  unfold Heap.releaseHandle
  cases handle.value <;> rfl

/-- A released handle, still in hand, gives back what it owned. -/
theorem WorldSound.releaseHandle {handle : Handle τ}
    (h : WorldSound (lost + handleOwns handle) w) :
    WorldSound lost { w with heap := w.heap.releaseHandle handle } :=
  h.reheap fun hb => by
    rw [← add_assoc] at hb
    exact Balanced.releaseHandle hb

theorem handleMove_sound (source : ℕ) (h : WorldSound lost w) :
    Action.Post Stuck.anyhow (handleMove source) w (fun _ => WorldAccounts lost w)
      (fun _ => False) := by
  unfold handleMove
  refine post_readHandle (fun other hother => ?_) fun _ => trivial
  rw [post_newHandle]
  have hi : source < w.handles.length := lt_of_join_eq_some hother
  refine ⟨h.rehandle ?_, rfl⟩
  rw [total_set (by rw [List.length_append]; omega), List.set_append_left _ _ hi, total_append,
    total_eq (f := handleOwns) hother, add_comm (handleOwns other)]
  exact zero_add _

theorem handleAssign_sound (this source : ℕ) (h : WorldSound lost w) :
    Action.Post Stuck.anyhow (handleAssign this source) w (fun _ => WorldAccounts lost w)
      (fun _ => False) := by
  unfold handleAssign
  by_cases hne : this = source
  · rw [if_pos hne]
    exact ⟨h, rfl⟩
  rw [if_neg hne]
  refine post_readHandle (fun handle hhandle => ?_) fun _ => trivial
  refine post_readHandle (fun other hother => ?_) fun _ => trivial
  -- the element of the target is let go, and the one of the source moves over
  have h1 : WorldSound (lost + handleOwns other)
      (w.setHandle source (some { other with value := none })) :=
    h.setHandle hother (by rw [handleOwns_empty, add_zero])
  have hhandle1 : (w.setHandle source (some { other with value := none })).handle? this =
      some handle := (handle?_setHandle_of_ne (Ne.symm hne) _).trans hhandle
  have h2 : WorldSound (lost + handleOwns handle)
      ((w.setHandle source (some { other with value := none })).setHandle this
        (some ⟨other.value, if τ.pocma then other.allocator else handle.allocator⟩)) :=
    h1.setHandle hhandle1 (add_right_comm ..)
  refine ⟨?_, congrArg faultPoint (fault_releaseHandle w.heap handle)⟩
  have h3 := h2.releaseHandle
  have hcomm : (w.handles.set source (some { other with value := none })).set this
      (some ⟨other.value, if τ.pocma then other.allocator else handle.allocator⟩) =
      (w.handles.set this (some ⟨other.value, if τ.pocma then other.allocator
        else handle.allocator⟩)).set source (some { other with value := none }) :=
    List.set_comm _ _ (Ne.symm hne)
  unfold World.setHandle at h3
  rw [hcomm] at h3
  exact h3

theorem handleSwap_sound (this source : ℕ) (h : WorldSound lost w) :
    Action.Post Stuck.anyhow (handleSwap this source) w (fun _ => WorldAccounts lost w)
      (fun _ => False) := by
  unfold handleSwap
  refine post_readHandle (fun a ha => ?_) fun _ => trivial
  refine post_readHandle (fun b hb => ?_) fun _ => trivial
  refine ⟨?_, rfl⟩
  by_cases hne : this = source
  · subst hne
    rw [ha] at hb
    cases hb
    have h1 : WorldSound lost
        (w.setHandle this (some ⟨a.value, if τ.pocs then a.allocator else a.allocator⟩)) :=
      h.setHandle ha rfl
    exact h1.setHandle (handle?_setHandle_self ha) rfl
  · have h1 : WorldSound (lost + handleOwns a)
        (w.setHandle this (some { a with value := none })) :=
      h.setHandle ha (by rw [handleOwns_empty, add_zero])
    have h2 : WorldSound (lost + handleOwns b)
        ((w.setHandle this (some { a with value := none })).setHandle source
          (some ⟨a.value, if τ.pocs then a.allocator else b.allocator⟩)) :=
      h1.setHandle ((handle?_setHandle_of_ne hne _).trans hb) (add_right_comm ..)
    have ha2 : ((w.setHandle this (some { a with value := none })).setHandle source
        (some ⟨a.value, if τ.pocs then a.allocator else b.allocator⟩)).handle? this =
        some { a with value := none } :=
      (handle?_setHandle_of_ne (Ne.symm hne) _).trans (handle?_setHandle_self ha)
    have h3 : WorldSound lost
        (((w.setHandle this (some { a with value := none })).setHandle source
          (some ⟨a.value, if τ.pocs then a.allocator else b.allocator⟩)).setHandle this
            (some ⟨b.value, if τ.pocs then b.allocator else a.allocator⟩)) :=
      h2.setHandle ha2 (by rw [handleOwns_empty, add_zero]; rfl)
    have hcomm : ((w.handles.set this (some { a with value := none })).set source
        (some ⟨a.value, if τ.pocs then a.allocator else b.allocator⟩)).set this
          (some ⟨b.value, if τ.pocs then b.allocator else a.allocator⟩) =
        (w.handles.set this (some ⟨b.value, if τ.pocs then b.allocator else a.allocator⟩)).set
          source (some ⟨a.value, if τ.pocs then a.allocator else b.allocator⟩) := by
      rw [List.set_comm _ _ hne, List.set_set, List.set_comm _ _ (Ne.symm hne)]
    unfold World.setHandle at h3 ⊢
    rw [hcomm] at h3
    exact h3

theorem destroyHandle_sound (hd : ℕ) (h : WorldSound lost w) :
    Action.Post Stuck.anyhow (destroyHandle hd) w (fun _ => WorldAccounts lost w)
      (fun _ => False) := by
  unfold destroyHandle
  refine post_readHandle (fun handle hhandle => ?_) fun _ => trivial
  refine ⟨?_, congrArg faultPoint (fault_releaseHandle w.heap handle)⟩
  have hi : hd < w.handles.length := lt_of_join_eq_some hhandle
  have h1 : WorldSound (lost + handleOwns handle) (w.setHandle hd none) := by
    refine ⟨h.tables, ?_⟩
    have hbal := h.balanced
    have hold : World.owns w = World.owns (w.setHandle hd none) + handleOwns handle := by
      unfold World.owns World.setHandle
      rw [total_eq (f := handleOwns) hhandle, add_comm (handleOwns handle), ← add_assoc]
    rw [hold, add_assoc, add_comm (handleOwns handle)] at hbal
    exact hbal
  exact h1.releaseHandle

/-! ## Insertion of a node -/

theorem handleOwns_movedFrom (handle : Handle τ) :
    handleOwns handle.movedFrom = handleOwns handle := by
  unfold handleOwns Handle.movedFrom
  cases handle.value <;> rfl

/-- The world after a call with the element of the handle `hd` as argument. -/
def afterHandleMove (hd : ℕ) (w : World τ) : World τ :=
  if w.heap.moved then w.setHandle hd ((w.handle? hd).map Handle.movedFrom) else w

/-- A call with the element of a handle as rvalue argument, which is moved from if the call
says so. -/
theorem post_movingHandle_flag {U : Stuck → Prop} {x : Action (World τ) α}
    {Q : α → World τ → Prop} {E : World τ → Prop} {hd : ℕ}
    (hx : Action.Post U x { w with heap := { w.heap with moved := false } }
      (fun a w' => Q a (afterHandleMove hd w')) (fun w' => E (afterHandleMove hd w'))) :
    Action.Post U (movingHandle hd x) w Q E := by
  unfold Action.Post at hx ⊢
  simp only [movingHandle]
  rcases hr : x.run { w with heap := { w.heap with moved := false } } with
    ⟨_ | _ | _ | _, w1⟩ <;> rw [hr] at hx <;> cases hm : w1.heap.moved
  any_goals exact hx
  all_goals
    simp only [afterHandleMove, hm] at hx
    exact hx

/-- What holds after the call must survive that the element is moved from. -/
theorem post_movingHandle {U : Stuck → Prop} {x : Action (World τ) α} {Q : α → World τ → Prop}
    {E : World τ → Prop} {hd : ℕ}
    (hx : Action.Post U x { w with heap := { w.heap with moved := false } }
      (fun a w' => Q a w' ∧ Q a (w'.setHandle hd ((w'.handle? hd).map Handle.movedFrom)))
      (fun w' => E w' ∧ E (w'.setHandle hd ((w'.handle? hd).map Handle.movedFrom)))) :
    Action.Post U (movingHandle hd x) w Q E := by
  refine post_movingHandle_flag (hx.mono (fun a w' h' => ?_) (fun w' h' => ?_) fun _ h' => h')
  · unfold afterHandleMove
    split
    · exact h'.2
    · exact h'.1
  · unfold afterHandleMove
    split
    · exact h'.2
    · exact h'.1

theorem setHandle_self {handle : Handle τ} (hh : w.handle? i = some handle) :
    w.setHandle i (some handle) = w := by
  have hi := lt_of_join_eq_some hh
  have hget : w.handles[i] = some handle := by
    unfold World.handle? at hh
    rw [List.getElem?_eq_getElem hi] at hh
    exact hh
  unfold World.setHandle
  rw [← hget, List.set_getElem_self hi]

theorem setHandle_setHandle (w : World τ) (i : ℕ) (a b : Option (Handle τ)) :
    (w.setHandle i a).setHandle i b = w.setHandle i b := by
  unfold World.setHandle
  rw [List.set_set]

theorem setHandle_withStore_setHandle (w : World τ) (i k : ℕ) (s : Store τ)
    (a b : Option (Handle τ)) :
    (withStore (w.setHandle k a) i s).setHandle k b = (withStore w i s).setHandle k b :=
  setHandle_setHandle (withStore w i s) k a b

/-- The insertion of the element of a handle into one table, with what is left of the
handle put back, or with the handle as it was or moved from. -/
theorem insertNode_onTable_sound {this hd : ℕ} {handle : Handle τ}
    (hhandle : w.handle? hd = some handle) (h : WorldSound lost w)
    (hmax : AtMost w this maxSize) (hcalls : CallsReturn w.heap.fault) :
    Action.Post Stuck.anyhow (onTable this (insertNode handle)) w
      (fun r w' => WorldAccounts (lost + handleOwns r.1.node) w (w'.setHandle hd (some r.2)))
      (fun w' => w'.handle? hd = some handle ∧
        ∀ handle' : Handle τ, handleOwns handle' = handleOwns handle →
          WorldThrown lost (NoChunksGrowth w.heap.fault) (w'.setHandle hd (some handle'))) := by
  refine post_onTable (fun t ht => ?_) fun _ => trivial
  -- the world without the element of the handle, which is in hand
  have hbare : WorldSound (lost + handleOwns handle)
      (w.setHandle hd (some { handle with value := none })) :=
    h.setHandle hhandle (by rw [handleOwns_empty, add_zero])
  have ht' : (w.setHandle hd (some { handle with value := none })).table? this = some t := ht
  have hhandle' : ∀ s' : Store τ,
      (withStore (w.setHandle hd (some { handle with value := none })) this s').handle? hd =
        some { handle with value := none } := fun s' => handle?_setHandle_self hhandle
  have htable := hbare.table ht'
  rw [← add_assoc] at htable
  refine (insertNode_sound handle htable (hmax t ht) hcalls).mono ?_ ?_ fun _ h' => h'
  · rintro r s' ⟨h', hpoint⟩
    have hworld : WorldSound (lost + handleOwns r.1.node + handleOwns r.2)
        (withStore (w.setHandle hd (some { handle with value := none })) this s') :=
      hbare.store ht' (by rwa [add_assoc, add_assoc, ← add_assoc lost] at h')
    have hset : WorldSound (lost + handleOwns r.1.node)
        ((withStore (w.setHandle hd (some { handle with value := none })) this s').setHandle hd
          (some r.2)) :=
      hworld.setHandle (hhandle' s') (by rw [handleOwns_empty, add_zero])
    rw [setHandle_withStore_setHandle] at hset
    exact ⟨hset, hpoint⟩
  · rintro s' ⟨more, h', hmore⟩
    have hworld : WorldSound (lost + more + handleOwns handle)
        (withStore (w.setHandle hd (some { handle with value := none })) this s') :=
      hbare.store ht'
        (by rwa [add_assoc, add_assoc, add_comm (handleOwns handle), ← add_assoc lost] at h')
    refine ⟨hhandle, fun handle' howns => ?_⟩
    rw [← setHandle_withStore_setHandle w this hd s' (some { handle with value := none })]
    refine ⟨lost + more, hworld.setHandle (hhandle' s') ?_, fun hc => ?_⟩
    · rw [handleOwns_empty, add_zero, howns]
    · rw [hmore.eq_zero hc, add_zero]

theorem insertHandle_sound (hinted : Bool) (this hd : ℕ) (h : WorldSound lost w)
    (hmax : AtMost w this maxSize) (hcalls : CallsReturn w.heap.fault) :
    Action.Post Stuck.anyhow (insertHandle hinted this hd) w (fun _ => WorldAccounts lost w)
      (WorldThrown lost (NoChunksGrowth w.heap.fault)) := by
  unfold insertHandle
  refine post_readHandle (fun handle hhandle => ?_) fun _ => trivial
  have hcall : Action.Post Stuck.anyhow (movingHandle hd (onTable this (insertNode handle))) w
      (fun r w' => WorldAccounts (lost + handleOwns r.1.node) w (w'.setHandle hd (some r.2)))
      (WorldThrown lost (NoChunksGrowth w.heap.fault)) := by
    have hhandle0 : ({ w with heap := { w.heap with moved := false } } : World τ).handle? hd =
        some handle := hhandle
    refine post_movingHandle ((insertNode_onTable_sound hhandle0
      (h.reset w.heap.fault false) hmax hcalls).mono ?_ ?_ fun _ h' => h')
    · intro r w' h'
      refine ⟨h', ?_⟩
      rw [setHandle_setHandle]
      exact h'
    · rintro w' ⟨hself, hkept⟩
      have hsame := hkept handle rfl
      rw [setHandle_self hself] at hsame
      refine ⟨hsame, ?_⟩
      rw [hself]
      exact hkept _ (handleOwns_movedFrom handle)
  refine Action.Post.bind hcall (fun _ h' => h') ?_
  rintro r w1 ⟨h1, hpoint⟩
  cases hinted with
  | true => exact ⟨h1.releaseHandle, (congrArg faultPoint (fault_releaseHandle _ _)).trans hpoint⟩
  | false => exact ⟨h1.newHandle, hpoint⟩

/-! ## Statements -/

/-- A statement that builds a table object in place, without a delegated constructor whose
completion would make an exception run the destructor. -/
def buildsInPlace : WorldOp τ → Bool
  | .copyConstruct _ => true
  | .copyConstructWith _ _ => true
  | .moveConstructWith _ _ => true
  | _ => false

/-- An exception that loses nothing: it does not come from the growth of `chunks_`, and it
ends no object that has already allocated. -/
def LosesNothing (op : WorldOp τ) (fault : Option (Point × ℕ)) : Prop :=
  NoChunksGrowth fault ∧ (buildsInPlace op = true → AtFirstAllocation fault)

instance (op : WorldOp τ) (fault : Option (Point × ℕ)) : Decidable (LosesNothing op fault) :=
  inferInstanceAs (Decidable (faultPoint fault ≠ some .chunksGrowth ∧
    (buildsInPlace op = true → fault = some (.bucketArray, 0))))

/-- The statement itself and, for one that inserts a range, the same statement with any
beginning of the range. -/
def beginnings : WorldOp τ → List (WorldOp τ)
  | .constructRange values n hash equal alloc =>
      values.inits.map fun front => .constructRange front n hash equal alloc
  | .assignValues this values => values.inits.map fun front => .assignValues this front
  | op => [op]

theorem mem_beginnings_self (op : WorldOp τ) : op ∈ beginnings op := by
  cases op with
  | constructRange values n hash equal alloc =>
      exact List.mem_map.mpr ⟨values, List.mem_inits values values |>.mpr List.prefix_rfl, rfl⟩
  | assignValues this values =>
      exact List.mem_map.mpr ⟨values, List.mem_inits values values |>.mpr List.prefix_rfl, rfl⟩
  | _ => exact List.mem_singleton.mpr rfl

/-- The call returns or throws, and leaves the world `w'`. -/
def Ends (x : Action (World τ) α) (w w' : World τ) : Prop :=
  (∃ a, x.run w = (.ok a, w')) ∨ x.run w = (.thrown, w')

/-- No table exceeds `max_size()` on the way through a statement. -/
def StaysBounded (op : WorldOp τ) (w : World τ) : Prop :=
  Bounded w ∧ ∀ op' ∈ beginnings op, ∀ w', Ends op'.exec w w' → Bounded w'

theorem run_ignoring_ok {x : Action (World τ) α} {a : α} (h : x.run w = (.ok a, w')) :
    (ignoring x).run w = (.ok (), w') := by
  unfold ignoring
  rw [Action.run_bind_ok _ h]
  rfl

theorem ignoring_sound {x : Action (World τ) α} {Q : World τ → Prop} {E : World τ → Prop}
    (h : Action.Post Stuck.anyhow x w (fun _ => Q) E) :
    Action.Post Stuck.anyhow (ignoring x) w (fun _ => Q) E :=
  Action.Post.bind h (fun _ h' => h') fun _ _ h' => h'

theorem keepReply_sound (reply : Reply τ) (h : WorldSound (lost + replyOwns reply) w) :
    Action.Post Stuck.anyhow (keepReply reply) w (fun _ => WorldAccounts lost w)
      (fun _ => False) := by
  cases reply with
  | node handle => exact ⟨WorldSound.newHandle h, rfl⟩
  | none => exact ⟨by rwa [show replyOwns (.none : Reply τ) = 0 from rfl, add_zero] at h, rfl⟩
  | inserted it flag =>
      exact ⟨by rwa [show replyOwns (.inserted it flag : Reply τ) = 0 from rfl, add_zero] at h,
        rfl⟩
  | erased n =>
      exact ⟨by rwa [show replyOwns (.erased n : Reply τ) = 0 from rfl, add_zero] at h, rfl⟩
  | iterator it =>
      exact ⟨by rwa [show replyOwns (.iterator it : Reply τ) = 0 from rfl, add_zero] at h, rfl⟩

/-- A member function call as a statement. -/
theorem table_sound (this : ℕ) (op : Op τ) (h : WorldSound lost w)
    (hmax : AtMost w this maxSize) (hcalls : CallsReturn w.heap.fault) :
    Action.Post Stuck.anyhow (WorldOp.table this op).exec w (fun _ => WorldAccounts lost w)
      (WorldThrown lost (NoChunksGrowth w.heap.fault)) := by
  have hcall : Action.Post Stuck.anyhow (onTable this op.exec) w
      (fun reply => WorldAccounts (lost + replyOwns reply) w)
      (WorldThrown lost (NoChunksGrowth w.heap.fault)) :=
    onTable_sound h fun t ht => Op.exec_sound op (h.table ht) (hmax t ht) hcalls
  refine Action.Post.bind hcall (fun _ h' => h') ?_
  rintro reply w1 ⟨h1, hpoint⟩
  exact (keepReply_sound reply h1).mono (fun _ w2 h2 => ⟨h2.1, h2.2.trans hpoint⟩)
    (fun _ h' => h'.elim) fun _ h' => h'

/-- Every statement keeps the accounts. -/
theorem WorldOp.exec_sound (op : WorldOp τ) (h : WorldSound lost w) (hb : StaysBounded op w)
    (hcalls : CallsReturn w.heap.fault) :
    Action.Post Stuck.anyhow op.exec w (fun _ => WorldAccounts lost w)
      (WorldThrown lost (LosesNothing op w.heap.fault)) := by
  obtain ⟨hmax, hend⟩ := hb
  -- an exception that loses nothing, of a statement that does not build in place
  have hplain : ∀ w' : World τ, WorldThrown lost (NoChunksGrowth w.heap.fault) w' →
      WorldThrown lost (LosesNothing op w.heap.fault) w' := fun w' h' => h'.weaken And.left
  have hnever : ∀ w' : World τ, False → WorldThrown lost (LosesNothing op w.heap.fault) w' :=
    fun w' h' => h'.elim
  cases op with
  | construct n hash equal alloc =>
      exact (ignoring_sound ((construct_sound n hash equal alloc h hcalls).mono
        (fun _ _ h' => h'.1) (fun _ h' => h'.thrown _) fun _ h' => h'))
  | constructRange values n hash equal alloc =>
      refine (ignoring_sound (constructRange_sound values n hash equal alloc h ?_ hcalls)).mono
        (fun _ _ h' => h') hplain fun _ h' => h'
      intro done rest i w' hsplit hrun
      refine hend (.constructRange done n hash equal alloc) ?_ w'
        (Or.inl ⟨(), run_ignoring_ok hrun⟩)
      exact List.mem_map.mpr ⟨done, List.mem_inits _ _ |>.mpr ⟨rest, hsplit.symm⟩, rfl⟩
  | copyConstruct source =>
      refine (ignoring_sound (copyConstruct_sound source h (hmax source) hcalls)).mono
        (fun _ _ h' => h') (fun _ h' => h'.weaken fun hc => hc.2 rfl) fun _ h' => h'
  | copyConstructWith source alloc =>
      refine (ignoring_sound (copyConstructWith_sound source alloc h (hmax source) hcalls)).mono
        (fun _ _ h' => h') (fun _ h' => h'.weaken fun hc => hc.2 rfl) fun _ h' => h'
  | moveConstruct source =>
      exact (ignoring_sound (moveConstruct_sound source h)).mono (fun _ _ h' => h') hnever
        fun _ h' => h'
  | moveConstructWith source alloc =>
      refine (ignoring_sound (moveConstructWith_sound source alloc h (hmax source) hcalls)).mono
        (fun _ _ h' => h') (fun _ h' => h'.weaken fun hc => hc.2 rfl) fun _ h' => h'
  | destroy this => exact (destroy_sound h).mono (fun _ _ h' => h') hnever fun _ h' => h'
  | copyAssign this other =>
      exact (copyAssign_sound this other h (hmax other) hcalls).mono (fun _ _ h' => h') hplain
        fun _ h' => h'
  | moveAssign this other =>
      exact (moveAssign_sound this other h (hmax other) hcalls).mono (fun _ _ h' => h') hplain
        fun _ h' => h'
  | assignValues this values =>
      refine (assignValues_sound this values h ?_ hcalls).mono (fun _ _ h' => h') hplain
        fun _ h' => h'
      intro done rest w' hsplit hrun
      refine hend (.assignValues this done) ?_ w' (Or.inl ⟨(), hrun⟩)
      exact List.mem_map.mpr ⟨done, List.mem_inits _ _ |>.mpr ⟨rest, hsplit.symm⟩, rfl⟩
  | swap this other =>
      exact (swap_sound this other h).mono (fun _ _ h' => h') hnever fun _ h' => h'
  | merge this source =>
      refine (mergeFrom_sound this source h (hmax this) ?_ hcalls).mono (fun _ _ h' => h') hplain
        fun _ h' => h'
      rintro w' (hrun | hrun)
      · exact hend _ (mem_beginnings_self _) w' (Or.inl ⟨(), hrun⟩)
      · exact hend _ (mem_beginnings_self _) w' (Or.inr hrun)
  | table this op =>
      exact (table_sound this op h (hmax this) hcalls).mono (fun _ _ h' => h') hplain
        fun _ h' => h'
  | insertHandle hinted this hd =>
      exact (ignoring_sound (insertHandle_sound hinted this hd h (hmax this) hcalls)).mono
        (fun _ _ h' => h') hplain fun _ h' => h'
  | handleDefault =>
      have h0 : WorldSound (lost + handleOwns (Handle.default : Handle τ)) w := by
        rwa [handleOwns_default, add_zero]
      exact ⟨h0.newHandle, rfl⟩
  | handleMove source =>
      exact (ignoring_sound (handleMove_sound source h)).mono (fun _ _ h' => h') hnever
        fun _ h' => h'
  | handleAssign this source =>
      exact (handleAssign_sound this source h).mono (fun _ _ h' => h') hnever fun _ h' => h'
  | handleSwap this source =>
      exact (handleSwap_sound this source h).mono (fun _ _ h' => h') hnever fun _ h' => h'
  | handleDestroy hd =>
      exact (destroyHandle_sound hd h).mono (fun _ _ h' => h') hnever fun _ h' => h'

end Fum.Analysis
