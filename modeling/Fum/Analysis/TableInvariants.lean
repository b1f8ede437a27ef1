import Fum.Analysis.Merging

/-!
# Invariants of all tables

A predicate on tables that ignores the arena, the iteration vector and the contents of
the bucket array is kept by every member function, and by every statement that builds,
moves, exchanges or merges tables.
-/

set_option autoImplicit false

namespace Fum.Analysis

open Fum.Model Effects

variable {τ : Traits} {α β : Type} {I : Table τ → Prop} {i : ℕ} {w : World τ}

/-- The predicate survives everything but a change of the load factor or of the functors. -/
structure Robust (I : Table τ → Prop) : Prop extends Insensitive I where
  iteration : IgnoresIteration I
  rebuild : Rebuildable I
  drop : ∀ t, I t → I t.dropBuckets
  reset : ∀ t, I t → I t.resetToEmptyState
  allocators : ∀ (t : Table τ) (a v : τ.Alloc), I t →
    I { t with allocator := a, vectorAllocator := v }
  fresh : ∀ (t : Table τ) (a : τ.Alloc), I t →
    I (Table.initial t.maxLoadFactor t.hashFunction t.keyEqual a)

/-! ## Member functions -/

/-- What a predicate on a table and its memory has to ignore for every member function to
keep it. -/
structure Durable (J : Store τ → Prop) : Prop extends Steady J where
  order : Unordered J
  refill : Refillable J
  drop : ∀ s : Store τ, J s → J ⟨s.table.dropBuckets, s.heap⟩

/-- The predicate survives an insertion into a table that has it, a shorter iteration vector
and a rehash: this is enough for every member function. -/
structure Resilient (J : Store τ → Prop) : Prop extends Steady J where
  shrink : Shrinkable J
  attach : Attachable J
  rehash : ∀ n : ℕ, Action.Keeps J (rehash n : Exec τ Unit)

theorem Robust.durable (h : Robust I) : Durable fun s : Store τ => I s.table where
  toSteady := h.steady
  order := h.iteration.unordered
  refill := h.rebuild.refillable
  drop s hs := h.drop s.table hs

section

variable {J : Store τ → Prop}

theorem keeps_rehash (h : Durable J) (n : ℕ) : Action.Keeps J (rehash n : Exec τ Unit) := by
  refine Action.Keeps.bind keeps_getTable fun t => Action.Keeps.bind (keeps_defined _)
    fun target => Action.Keeps.ite (Action.Keeps.ite ?_ ?_) ?_
  · exact Action.Keeps.bind (keeps_deallocateBuckets h.toSteady) fun _ => fun s hs => h.drop s hs
  · exact Action.Keeps.pure _
  · exact Action.Keeps.bind (keeps_defined _) fun _ => keeps_rehashTo h.toSteady h.refill _

theorem Durable.resilient (h : Durable J) : Resilient J where
  toSteady := h.toSteady
  shrink := h.order.shrinkable
  attach := keeps_attachable h.toSteady h.order.linkable h.refill
  rehash := keeps_rehash h

theorem Resilient.reserve (h : Resilient J) (n : ℕ) : Action.Keeps J (reserve n : Exec τ Unit) :=
  Action.Keeps.bind keeps_getTable fun _ => Action.Keeps.bind (keeps_defined _) fun _ => h.rehash _

theorem keeps_destroyEverything (h : Steady J) :
    Action.Keeps J (destroyEverything : Exec τ Unit) := by
  refine Action.Keeps.bind (keeps_destroyAllValues h) fun _ =>
    Action.Keeps.bind (keeps_deallocateBuckets h) fun _ =>
      Action.Keeps.bind keeps_getTable fun t => Action.Keeps.bind ?_ fun _ => ?_
  · exact Action.Keeps.forEach fun chunk _ => h.modifyHeap fun _ => le_rfl
  · exact fun s hs => h.unchunk s hs

theorem keeps_setMaxLoadFactor (z : RoundedArithmetic.FloatValue τ.rounding)
    (hz : ∀ s : Store τ, J s → J ⟨withFactor s.table (LoadFactor.ofFloat z), s.heap⟩) :
    Action.Keeps J (setMaxLoadFactor z) := by
  intro s hs
  rw [run_setMaxLoadFactor]
  exact hz s hs

/-- Every member function keeps the predicate; the setter of the load factor is asked for. -/
theorem Resilient.op (h : Resilient J) (op : Op τ)
    (hz : ∀ z, op = .maxLoadFactor z →
      ∀ s : Store τ, J s → J ⟨withFactor s.table (LoadFactor.ofFloat z), s.heap⟩) :
    Action.Keeps J op.exec := by
  have ht := h.toSteady
  cases op with
  | insert value =>
      exact Action.Keeps.bind (h.attach.emplaceImpl ht value) fun _ => Action.Keeps.pure _
  | tryEmplace key mapped =>
      exact Action.Keeps.bind (h.attach.tryEmplaceImpl ht key mapped)
        fun _ => Action.Keeps.pure _
  | insertOrAssign key mapped =>
      exact Action.Keeps.bind (h.attach.insertOrAssignImpl ht key mapped)
        fun _ => Action.Keeps.pure _
  | assign node mapped =>
      exact Action.Keeps.bind (keeps_assignValue ht node _) fun _ => Action.Keeps.pure _
  | eraseKey key =>
      exact Action.Keeps.bind (h.shrink.eraseKey ht key) fun _ => Action.Keeps.pure _
  | eraseAt node =>
      exact Action.Keeps.bind (h.shrink.eraseAt ht node) fun _ => Action.Keeps.pure _
  | eraseRange first last =>
      exact Action.Keeps.bind (h.shrink.eraseRange ht first last) fun _ => Action.Keeps.pure _
  | extractKey key =>
      exact Action.Keeps.bind (h.shrink.extractKey ht key) fun _ => Action.Keeps.pure _
  | extractAt node =>
      exact Action.Keeps.bind (h.shrink.extractAt ht node) fun _ => Action.Keeps.pure _
  | clear => exact Action.Keeps.bind (h.shrink.clear ht) fun _ => Action.Keeps.pure _
  | rehash requested =>
      exact Action.Keeps.bind (h.rehash requested) fun _ => Action.Keeps.pure _
  | reserve elementCount =>
      exact Action.Keeps.bind (h.reserve elementCount) fun _ => Action.Keeps.pure _
  | maxLoadFactor z =>
      exact Action.Keeps.bind (keeps_setMaxLoadFactor z (hz z rfl)) fun _ => Action.Keeps.pure _
  | find key =>
      exact Action.Keeps.bind (keeps_find ht.toForgetful key) fun _ => Action.Keeps.pure _

theorem Op.keeps (h : Durable J) (op : Op τ)
    (hz : ∀ z, op = .maxLoadFactor z →
      ∀ s : Store τ, J s → J ⟨withFactor s.table (LoadFactor.ofFloat z), s.heap⟩) :
    Action.Keeps J op.exec := h.resilient.op op hz

end

/-! ## Statements -/

/-- Each table `j` satisfies `I j`. -/
def EachTable (I : ℕ → Table τ → Prop) (w : World τ) : Prop :=
  ∀ j t, w.table? j = some t → I j t

/-- Every table satisfies `I`. -/
abbrev Everywhere (I : Table τ → Prop) (w : World τ) : Prop := EachTable (fun _ => I) w

instance [DecidablePred I] (w : World τ) : Decidable (Everywhere I w) :=
  decidable_of_iff (∀ o ∈ w.tables, ∀ t ∈ o, I t) (by
    constructor
    · intro h i t ht
      have hi := lt_of_join_eq_some ht
      unfold World.table? at ht
      rw [List.getElem?_eq_getElem hi] at ht
      exact h _ (List.getElem_mem hi) t ht
    · intro h o ho t ht
      obtain ⟨i, hi, rfl⟩ := List.mem_iff_getElem.mp ho
      refine h i t ?_
      unfold World.table?
      rw [List.getElem?_eq_getElem hi]
      exact ht)

theorem eachTable_empty (K : ℕ → Table τ → Prop) : EachTable K (World.empty : World τ) :=
  fun _ _ ht => absurd ht not_table?_empty

section

variable {K K' : ℕ → Table τ → Prop} {s : Store τ} {t : Table τ} {Q : β → World τ → Prop}
  {E : World τ → Prop}

theorem eachTable_withStore (ht : w.table? i = some t) (hw : EachTable K w) (hi : K' i s.table)
    (hne : ∀ j, j ≠ i → ∀ t, K j t → K' j t) : EachTable K' (withStore w i s) := by
  intro j t' ht'
  by_cases hij : i = j
  · subst hij
    rw [table?_withStore_self ht] at ht'
    cases ht'
    exact hi
  · rw [table?_withStore_of_ne hij] at ht'
    exact hne j (fun h => hij h.symm) t' (hw j t' ht')

/-- A call on the table `i` that turns `K i` into `K' i`. -/
theorem post_onTable_each {x : Exec τ α} (hw : EachTable K w)
    (hx : ∀ s : Store τ, w.table? i = some s.table → K i s.table →
      Action.Post Stuck.anyhow x s (fun _ s' => K' i s'.table) (fun s' => E (withStore w i s')))
    (hne : ∀ j, j ≠ i → ∀ t, K j t → K' j t) :
    Action.Post Stuck.anyhow (onTable i x) w (fun _ => EachTable K') E :=
  post_onTable (fun t ht => (hx ⟨t, w.heap⟩ ht (hw i t ht)).mono
    (fun _ _ h' => eachTable_withStore ht hw h' hne) (fun _ h' => h') fun _ h' => h')
    fun _ => trivial

theorem keeps_onTable_each {x : Exec τ α} (hx : KeepsTable (K i) x) :
    Action.Keeps (EachTable K) (onTable i x) :=
  keeps_call fun w t ht hw =>
    eachTable_withStore ht hw (hx ⟨t, w.heap⟩ (hw i t ht)) fun _ _ _ h' => h'

end

theorem keeps_onTable_everywhere {x : Exec τ α} (hx : KeepsTable I x) :
    Action.Keeps (Everywhere I) (onTable i x) := keeps_onTable_each hx

/-- What is read of a table satisfies `I`. -/
theorem keeps_readTable {f : Table τ → Action (World τ) β}
    (hf : ∀ t, I t → Action.Keeps (Everywhere I) (f t)) :
    Action.Keeps (Everywhere I) (readTable i >>= f) := by
  intro w hw
  cases ht : w.table? i with
  | none =>
      have hrun : (readTable i).run w = (.undefined, w) := run_onTable_none ht
      rw [Action.run_bind, hrun]
      exact hw
  | some t =>
      have hrun : (readTable i).run w = (.ok t, w) :=
        (run_onTable ht).trans (congrArg (Prod.mk (Result.ok t)) (withStore_self ht))
      rw [Action.run_bind_ok f hrun]
      exact hf t (hw i t ht) w hw

theorem keeps_newTable {t : Table τ} (ht : I t) : Action.Keeps (Everywhere I) (newTable t) := by
  intro w hw j t' ht'
  have hnew : ({ w with tables := w.tables ++ [some t] } : World τ).table? j = some t' := ht'
  rw [table?_append] at hnew
  split at hnew
  · cases hnew
    exact ht
  · exact hw j t' hnew

theorem keeps_dropTable {K : ℕ → Table τ → Prop} :
    Action.Keeps (EachTable K) (dropTable i : Action (World τ) Unit) := by
  intro w hw j t' ht'
  by_cases hij : i = j
  · subst hij
    have hnone : (w.setTable i none).table? i = some t' := ht'
    cases ht : w.table? i with
    | none =>
        rw [setTable_none_of_none ht] at hnone
        exact hw i t' hnone
    | some t =>
        rw [table?_setTable_self ht] at hnone
        cases hnone
  · have hother : (w.setTable i none).table? j = some t' := ht'
    rw [table?_setTable_of_ne hij] at hother
    exact hw j t' hother

theorem keeps_readHandle {W : World τ → Prop} {f : Handle τ → Action (World τ) β}
    (hf : ∀ handle, Action.Keeps W (f handle)) : Action.Keeps W (readHandle i >>= f) := by
  refine Action.Keeps.bind (fun w hw => ?_) hf
  cases hh : w.handle? i with
  | none => simpa only [readHandle, hh] using hw
  | some handle => simpa only [readHandle, hh] using hw

/-! ## What calls on single tables preserve -/

/-- The predicate on a program survives every call on one table that keeps what is durable
there, and ignores the memory. -/
structure Lasting (W : World τ → Prop) : Prop where
  call : ∀ {α : Type} (i : ℕ) (x : Exec τ α),
    (∀ J : Store τ → Prop, Durable J → Action.Keeps J x) → Action.Keeps W (onTable i x)
  heap : ∀ (w : World τ) (heap : Heap), w.heap.nextId ≤ heap.nextId → W w →
    W { w with heap := heap }

/-- The predicate ignores the handles, too. -/
structure Handleless (W : World τ → Prop) : Prop extends Lasting W where
  handles : ∀ (w : World τ) (handles : List (Option (Handle τ))), W w →
    W { w with handles := handles }

/-- The predicate survives new tables and the end of tables, too. -/
structure Enduring (W : World τ → Prop) : Prop extends Lasting W where
  fresh : ∀ (factor : LoadFactor τ.rounding) (hash : τ.Key → UInt64)
    (equal : τ.Key → τ.Key → Bool) (alloc : τ.Alloc),
    Action.Keeps W (newTable (Table.initial factor hash equal alloc))
  drop : ∀ i : ℕ, Action.Keeps W (dropTable i)

/-- The predicate survives every call on one table that keeps what is resilient there. -/
structure Yielding (W : World τ → Prop) : Prop where
  call : ∀ {α : Type} (i : ℕ) (x : Exec τ α),
    (∀ J : Store τ → Prop, Resilient J → Action.Keeps J x) → Action.Keeps W (onTable i x)
  heap : ∀ (w : World τ) (heap : Heap), w.heap.nextId ≤ heap.nextId → W w →
    W { w with heap := heap }

/-- The predicate ignores the handles, too. -/
structure Bare (W : World τ → Prop) : Prop extends Yielding W where
  handles : ∀ (w : World τ) (handles : List (Option (Handle τ))), W w →
    W { w with handles := handles }

theorem Lasting.yielding {W : World τ → Prop} (h : Lasting W) : Yielding W where
  call i x hx := h.call i x fun J hJ => hx J hJ.resilient
  heap := h.heap

theorem Handleless.bare {W : World τ → Prop} (h : Handleless W) : Bare W where
  toYielding := h.toLasting.yielding
  handles := h.handles

section

variable {W : World τ → Prop} (h : Yielding W) {this other source : ℕ}

include h

theorem Yielding.insert (value : τ.Value) :
    Action.Keeps W (onTable i (emplaceImpl value)) :=
  h.call i _ fun _ hJ => hJ.attach.emplaceImpl hJ.toSteady value

theorem Yielding.clear : Action.Keeps W (onTable i (clear : Exec τ Unit)) :=
  h.call i _ fun _ hJ => hJ.shrink.clear hJ.toSteady

theorem Yielding.insertRange (values : List τ.Value) :
    Action.Keeps W (onTable i (insertRange values)) :=
  h.call i _ fun _ hJ => hJ.attach.insertRange hJ.toSteady values

theorem Yielding.elementAt (node : ℕ) : Action.Keeps W (onTable i (elementAt node)) :=
  h.call i _ fun _ _ => keeps_elementAt _

theorem Yielding.readTable {f : Table τ → Action (World τ) β}
    (hf : ∀ t, Action.Keeps W (f t)) : Action.Keeps W (readTable i >>= f) :=
  Action.Keeps.bind (h.call i _ fun _ _ => keeps_getTable) hf

theorem Yielding.movingNode {node : ℕ} {x : Action (World τ) α} (hx : Action.Keeps W x) :
    Action.Keeps W (movingNode other node x) := by
  intro w hw
  have h' := hx _ (h.heap w { w.heap with moved := false } le_rfl hw)
  simp only [Model.movingNode]
  split
  · exact h.call _ _ (fun _ hJ => keeps_assignValue hJ.toSteady _ _) _ h'
  · exact h'

theorem Yielding.copyContentsFrom : Action.Keeps W (copyContentsFrom this other) := by
  refine h.readTable fun source => Action.Keeps.ite (Action.Keeps.pure _) ?_
  refine Action.Keeps.bind (h.call _ _ fun _ hJ => hJ.reserve _) fun _ =>
    Action.Keeps.forEach fun node _ => ?_
  exact Action.Keeps.bind (h.elementAt _) fun _ =>
    Action.Keeps.bind (h.insert _) fun _ => Action.Keeps.pure _

/-- The loop of `move_contents_from` and the `clear` after it. -/
theorem Yielding.moveEach (nodes : List ℕ) :
    Action.Keeps W (Action.forEach nodes (fun node => do
      let element ← onTable other (Model.elementAt node)
      let _ ← Model.movingNode other node (onTable this (emplaceImpl element.value))
      pure ()) >>= fun _ => onTable other Model.clear) := by
  refine Action.Keeps.bind (Action.Keeps.forEach fun node _ => ?_) fun _ => h.clear
  exact Action.Keeps.bind (h.elementAt _) fun _ =>
    Action.Keeps.bind (h.movingNode (h.insert _)) fun _ => Action.Keeps.pure _

theorem Yielding.moveContentsFrom : Action.Keeps W (moveContentsFrom this other) :=
  h.readTable fun _ => Action.Keeps.bind (h.call _ _ fun _ hJ => hJ.reserve _)
    fun _ => h.moveEach _

theorem Yielding.mergeFrom : Action.Keeps W (mergeFrom this source) := by
  refine Action.Keeps.bind (h.call _ _ fun _ hJ => keeps_mayThrow hJ.toForgetful _) fun _ =>
    h.readTable fun other => Action.Keeps.forEach fun node _ => ?_
  refine Action.Keeps.bind (h.call _ _ fun _ _ => keeps_keyAt _) fun _ => Action.Keeps.bind
    (h.call _ _ fun _ hJ => keeps_contains hJ.toForgetful _) fun _ =>
      Action.Keeps.ite (Action.Keeps.pure _) ?_
  exact Action.Keeps.bind (h.call _ _ fun _ hJ => keeps_callMixedHash hJ.toForgetful _) fun _ =>
    Action.Keeps.bind (h.call _ _ fun _ hJ => keeps_findBucket hJ.toForgetful _ _) fun _ =>
      Action.Keeps.bind (h.elementAt _) fun _ =>
        Action.Keeps.bind (h.movingNode (h.insert _)) fun _ =>
          h.call _ _ fun _ hJ => hJ.shrink.eraseLocated hJ.toSteady _

theorem Yielding.assignValues {values : List τ.Value} :
    Action.Keeps W (assignValues this values) :=
  h.call _ _ fun _ hJ => Action.Keeps.bind (hJ.shrink.clear hJ.toSteady) fun _ =>
    hJ.attach.insertRange hJ.toSteady values

end

theorem Lasting.mergeFrom {W : World τ → Prop} {this source : ℕ} (h : Lasting W) :
    Action.Keeps W (mergeFrom this source) := h.yielding.mergeFrom

section

variable {W : World τ → Prop} (h : Bare W) {this source : ℕ}

include h

theorem Bare.newHandle (handle : Handle τ) : Action.Keeps W (newHandle handle) :=
  fun w hw => h.handles w _ hw

theorem Bare.setHandle {f : World τ → Option (Handle τ)} {hd : ℕ} :
    Action.Keeps W (Action.modify fun w => w.setHandle hd (f w)) := fun w hw => h.handles w _ hw

theorem Bare.releaseHandle (handle : Handle τ) :
    Action.Keeps W (modifyWorldHeap fun heap => heap.releaseHandle handle) :=
  fun w hw => h.heap w _ (nextId_releaseHandle w.heap handle).ge hw

theorem Bare.insertHandle {hinted : Bool} {hd : ℕ} :
    Action.Keeps W (insertHandle hinted this hd) := by
  refine keeps_readHandle fun handle => Action.Keeps.bind (fun w hw => ?_) fun r =>
    Action.Keeps.bind h.setHandle fun _ => ?_
  · have h' := h.call this _ (fun _ hJ => hJ.attach.insertNode hJ.toSteady handle) _
      (h.heap w { w.heap with moved := false } le_rfl hw)
    simp only [movingHandle]
    split
    · exact h.handles _ _ h'
    · exact h'
  · cases hinted with
    | true => exact Action.Keeps.bind (h.releaseHandle _) fun _ => Action.Keeps.pure _
    | false => exact Action.Keeps.bind (h.newHandle _) fun _ => Action.Keeps.pure _

/-- A member function; the setter of the load factor is asked for. -/
theorem Bare.tableOp (op : Op τ)
    (hz : ∀ z, op = .maxLoadFactor z → Action.Keeps W (onTable this op.exec)) :
    Action.Keeps W (onTable this op.exec >>= keepReply) := by
  have hop : Action.Keeps W (onTable this op.exec) := by
    by_cases hfactor : ∃ z, op = .maxLoadFactor z
    · obtain ⟨z, hop⟩ := hfactor
      exact hz z hop
    · exact h.call _ _ fun _ hJ => hJ.op op fun z hop => absurd ⟨z, hop⟩ hfactor
  refine Action.Keeps.bind hop fun reply => ?_
  cases reply with
  | node handle => exact Action.Keeps.bind (h.newHandle _) fun _ => Action.Keeps.pure _
  | none => exact Action.Keeps.pure _
  | inserted _ _ => exact Action.Keeps.pure _
  | erased _ => exact Action.Keeps.pure _
  | iterator _ => exact Action.Keeps.pure _

theorem Bare.handleMove : Action.Keeps W (handleMove source) :=
  keeps_readHandle fun _ => Action.Keeps.bind (h.newHandle _) fun _ =>
    Action.Keeps.bind h.setHandle fun _ => Action.Keeps.pure _

theorem Bare.handleAssign : Action.Keeps W (handleAssign this source) :=
  Action.Keeps.ite (Action.Keeps.pure _) (keeps_readHandle fun handle =>
    keeps_readHandle fun _ => Action.Keeps.bind (h.releaseHandle handle) fun _ =>
      Action.Keeps.bind h.setHandle fun _ => h.setHandle)

theorem Bare.handleSwap : Action.Keeps W (handleSwap this source) :=
  keeps_readHandle fun _ => keeps_readHandle fun _ =>
    Action.Keeps.bind h.setHandle fun _ => h.setHandle

theorem Bare.destroyHandle {hd : ℕ} : Action.Keeps W (destroyHandle hd) :=
  keeps_readHandle fun handle => Action.Keeps.bind (h.releaseHandle handle) fun _ => h.setHandle

end

section

variable {W : World τ → Prop} (h : Enduring W) {this other source : ℕ}

include h

theorem Enduring.construct {n : ℕ} {hash : τ.Key → UInt64} {equal : τ.Key → τ.Key → Bool}
    {alloc : τ.Alloc} : Action.Keeps W (construct n hash equal alloc) := by
  refine Action.Keeps.bind (h.fresh _ _ _ _) fun i => Action.Keeps.bind (Action.Keeps.cleanup
    (Action.Keeps.ite ?_ (Action.Keeps.pure _)) (h.drop i)) fun _ => Action.Keeps.pure _
  exact h.call _ _ fun _ hJ => Action.Keeps.bind (keeps_defined _) fun _ =>
    keeps_rehashTo hJ.toSteady hJ.refill _

theorem Enduring.destroy : Action.Keeps W (destroy this : Action (World τ) Unit) :=
  Action.Keeps.bind (h.call _ _ fun _ hJ => keeps_destroyEverything hJ.toSteady)
    fun _ => h.drop this

theorem Enduring.constructRange {values : List τ.Value} {n : ℕ} {hash : τ.Key → UInt64}
    {equal : τ.Key → τ.Key → Bool} {alloc : τ.Alloc} :
    Action.Keeps W (constructRange values n hash equal alloc) :=
  Action.Keeps.bind h.construct fun _ => Action.Keeps.bind
    (Action.Keeps.cleanup (h.yielding.insertRange values) h.destroy) fun _ => Action.Keeps.pure _

theorem Enduring.copyConstructWith {alloc : τ.Alloc} :
    Action.Keeps W (copyConstructWith source alloc) :=
  h.yielding.readTable fun _ => Action.Keeps.bind (h.fresh _ _ _ _) fun i => Action.Keeps.bind
    (Action.Keeps.cleanup h.yielding.copyContentsFrom (h.drop i)) fun _ => Action.Keeps.pure _

end

/-- The predicate on a table survives the member functions, a new allocator and the loss of
the storage, and holds of a table made under the same policy. -/
structure Upheld (I : Table τ → Prop) : Prop where
  resilient : Resilient fun s : Store τ => I s.table
  reset : ∀ t, I t → I t.resetToEmptyState
  allocators : ∀ (t : Table τ) (a v : τ.Alloc), I t →
    I { t with allocator := a, vectorAllocator := v }
  fresh : ∀ (t : Table τ) (a : τ.Alloc), I t →
    I (Table.initial t.maxLoadFactor t.hashFunction t.keyEqual a)

theorem Robust.upheld (h : Robust I) : Upheld I :=
  ⟨h.durable.resilient, h.reset, h.allocators, h.fresh⟩

section

variable (h : Upheld I) {this other source : ℕ}

include h

theorem Upheld.bare : Bare (Everywhere I) where
  call _ _ hx := keeps_onTable_everywhere (hx _ h.resilient)
  heap _ _ _ hw := hw
  handles _ _ hw := hw

theorem Upheld.afterSteal (t : Table τ) (ht : I t) : I t.afterSteal :=
  h.resilient.unchunk ⟨t.resetToEmptyState, Heap.empty⟩ (h.reset t ht)

theorem Upheld.stealStorage : Action.Keeps (Everywhere I) (stealStorage this other) :=
  keeps_readTable fun source hsource => keeps_readTable fun _ _ => Action.Keeps.ite
    (Action.Keeps.bind (keeps_onTable_everywhere (keeps_modifyTable fun _ _ =>
      h.allocators source _ _ hsource)) fun _ =>
        keeps_onTable_everywhere (keeps_modifyTable h.afterSteal)) Action.Keeps.undefined

theorem Upheld.destroyEverything : Action.Keeps (Everywhere I) (onTable i destroyEverything) :=
  keeps_onTable_everywhere (keeps_destroyEverything h.resilient.toSteady)

theorem Upheld.destroy : Action.Keeps (Everywhere I) (destroy this : Action (World τ) Unit) :=
  Action.Keeps.bind h.destroyEverything fun _ => keeps_dropTable

theorem Upheld.copyConstructWith {alloc : τ.Alloc} :
    Action.Keeps (Everywhere I) (copyConstructWith source alloc) := by
  refine keeps_readTable fun other hother => Action.Keeps.bind
    (keeps_newTable (h.fresh other alloc hother)) fun i => Action.Keeps.bind
      (Action.Keeps.cleanup h.bare.copyContentsFrom keeps_dropTable) fun _ =>
        Action.Keeps.pure _

theorem Upheld.moveConstruct : Action.Keeps (Everywhere I) (moveConstruct source) :=
  keeps_readTable fun _ hother => Action.Keeps.bind (keeps_newTable hother) fun _ =>
    Action.Keeps.bind (keeps_onTable_everywhere (keeps_modifyTable h.afterSteal)) fun _ =>
      Action.Keeps.pure _

theorem Upheld.moveConstructWith {alloc : τ.Alloc} :
    Action.Keeps (Everywhere I) (moveConstructWith source alloc) := by
  refine keeps_readTable fun other hother => Action.Keeps.bind
    (keeps_newTable (h.fresh other alloc hother)) fun i => Action.Keeps.bind
      (Action.Keeps.cleanup (Action.Keeps.ite h.stealStorage
        h.bare.moveContentsFrom) keeps_dropTable) fun _ => Action.Keeps.pure _

omit h in
theorem keeps_swap : Action.Keeps (Everywhere I) (swap this other) := by
  refine Action.Keeps.ite (Action.Keeps.pure _) ?_
  refine keeps_readTable fun a ha => keeps_readTable fun b hb => Action.Keeps.ite ?_
    Action.Keeps.undefined
  exact Action.Keeps.bind (keeps_onTable_everywhere (keeps_modifyTable fun _ _ => hb))
    fun _ => keeps_onTable_everywhere (keeps_modifyTable fun _ _ => ha)

/-- A copy assignment from a table whose load factor and functors may be adopted. -/
theorem Upheld.copyAssign (hadopt : ∀ t o, I t → I o → I (t.adoptPolicy o)) :
    Action.Keeps (Everywhere I) (copyAssign this other) := by
  refine Action.Keeps.ite (Action.Keeps.pure _) (keeps_readTable fun o ho =>
    keeps_readTable fun t _ => Action.Keeps.ite ?_ ?_)
  · refine Action.Keeps.bind h.destroyEverything fun _ => Action.Keeps.bind
      (keeps_onTable_everywhere (keeps_modifyTable fun t ht => ?_))
        fun _ => h.bare.copyContentsFrom
    exact hadopt _ o (h.allocators _ _ _ (h.reset t ht)) ho
  · refine Action.Keeps.bind (keeps_onTable_everywhere (keeps_modifyTable fun t ht => ?_))
      fun _ => Action.Keeps.bind h.bare.clear fun _ => Action.Keeps.bind
        (keeps_onTable_everywhere (keeps_modifyTable fun t ht => hadopt t o ht ho))
          fun _ => h.bare.copyContentsFrom
    cases τ.pocca with
    | true => exact h.allocators t _ t.vectorAllocator ht
    | false => exact ht

theorem Upheld.moveAssign_transfer {t : Table τ} {a : τ.Alloc} (ht : I t) :
    I (if τ.pocma then { t.resetToEmptyState with allocator := a } else t.resetToEmptyState) := by
  cases τ.pocma with
  | true => exact h.allocators _ a t.vectorAllocator (h.reset t ht)
  | false => exact h.reset t ht

theorem Upheld.moveAssign (hadopt : ∀ t o, I t → I o → I (t.adoptPolicy o)) :
    Action.Keeps (Everywhere I) (moveAssign this other) := by
  refine Action.Keeps.ite (Action.Keeps.pure _) (keeps_readTable fun o ho =>
    keeps_readTable fun t _ => Action.Keeps.ite ?_ ?_)
  · exact Action.Keeps.bind h.destroyEverything fun _ => Action.Keeps.bind
      (keeps_onTable_everywhere (keeps_modifyTable fun t ht => h.moveAssign_transfer ht))
        fun _ => h.stealStorage
  · exact Action.Keeps.bind h.bare.clear fun _ => Action.Keeps.bind
      (keeps_onTable_everywhere (keeps_modifyTable fun t ht => hadopt t o ht ho))
        fun _ => h.bare.moveContentsFrom

/-- Every statement other than a construction from a bucket count and an assignment between
tables keeps the predicate; those are asked for, as is the setter of the load factor. -/
theorem Upheld.statement {w : World τ} {E : World τ → Prop} (op : WorldOp τ)
    (hw : Everywhere I w) (hE : ∀ w', Everywhere I w' → E w')
    (hmade : ∀ n hash equal alloc values, op = .construct n hash equal alloc ∨
      op = .constructRange values n hash equal alloc →
        Action.Keeps (Everywhere I) (construct n hash equal alloc))
    (hz : ∀ i z, op = .table i (.maxLoadFactor z) →
      ∀ t, I t → I (withFactor t (LoadFactor.ofFloat z)))
    (hcopy : ∀ this other, op = .copyAssign this other →
      Action.Post Stuck.anyhow (Model.copyAssign this other) w (fun _ => Everywhere I) E)
    (hmove : ∀ this other, op = .moveAssign this other →
      Action.Post Stuck.anyhow (Model.moveAssign this other) w (fun _ => Everywhere I) E) :
    Action.Post Stuck.anyhow op.exec w (fun _ => Everywhere I) E := by
  have hkeeps : ∀ {x : Action (World τ) Unit}, Action.Keeps (Everywhere I) x →
      Action.Post Stuck.anyhow x w (fun _ => Everywhere I) E :=
    fun hx => (hx.post hw).mono (fun _ _ h' => h') hE fun _ h' => h'
  have hignoring : ∀ {α : Type} {x : Action (World τ) α}, Action.Keeps (Everywhere I) x →
      Action.Post Stuck.anyhow (ignoring x) w (fun _ => Everywhere I) E :=
    fun hx => hkeeps (Action.Keeps.bind hx fun _ => Action.Keeps.pure _)
  cases op with
  | construct n hash equal alloc =>
      exact hignoring (hmade n hash equal alloc [] (Or.inl rfl))
  | constructRange values n hash equal alloc =>
      exact hignoring (Action.Keeps.bind (hmade n hash equal alloc values (Or.inr rfl)) fun i =>
        Action.Keeps.bind (Action.Keeps.cleanup (h.bare.insertRange values) h.destroy)
          fun _ => Action.Keeps.pure _)
  | copyConstruct source =>
      exact hignoring (keeps_readTable fun _ _ => h.copyConstructWith)
  | copyConstructWith source alloc => exact hignoring h.copyConstructWith
  | moveConstruct source => exact hignoring h.moveConstruct
  | moveConstructWith source alloc => exact hignoring h.moveConstructWith
  | destroy this => exact hkeeps h.destroy
  | copyAssign this other => exact hcopy this other rfl
  | moveAssign this other => exact hmove this other rfl
  | assignValues this values => exact hkeeps h.bare.assignValues
  | swap this other => exact hkeeps keeps_swap
  | merge this source => exact hkeeps h.bare.mergeFrom
  | table this op =>
      refine hkeeps (h.bare.tableOp op ?_)
      rintro z rfl
      exact keeps_onTable_everywhere
        (h.resilient.op _ fun z' hop s => hz this z' (by rw [hop]) s.table)
  | insertHandle hinted this hd => exact hignoring h.bare.insertHandle
  | handleDefault => exact hignoring (h.bare.newHandle _)
  | handleMove source => exact hignoring h.bare.handleMove
  | handleAssign this source => exact hkeeps h.bare.handleAssign
  | handleSwap this source => exact hkeeps h.bare.handleSwap
  | handleDestroy hd => exact hkeeps h.bare.destroyHandle

end

section

variable (h : Robust I) {this other : ℕ}

include h

theorem keeps_construct {n : ℕ} {hash : τ.Key → UInt64} {equal : τ.Key → τ.Key → Bool}
    {alloc : τ.Alloc}
    (hinit : I (Table.initial (kDefaultMaxLoadFactor τ.rounding) hash equal alloc)) :
    Action.Keeps (Everywhere I) (construct n hash equal alloc) := by
  refine Action.Keeps.bind (keeps_newTable hinit) fun i => Action.Keeps.bind
    (Action.Keeps.cleanup (Action.Keeps.ite ?_ (Action.Keeps.pure _)) keeps_dropTable)
    fun _ => Action.Keeps.pure _
  exact keeps_onTable_everywhere (Action.Keeps.bind (keeps_defined _) fun _ =>
    keeps_rehashTo h.steady h.rebuild.refillable _)

/-- Every statement other than an assignment between tables keeps the predicate; those two
are asked for, as are the tables that a constructor starts from and the setter of the load
factor. -/
theorem WorldOp.post_everywhere {w : World τ} {E : World τ → Prop} (op : WorldOp τ)
    (hw : Everywhere I w) (hE : ∀ w', Everywhere I w' → E w')
    (hinit : ∀ n hash equal alloc values, op = .construct n hash equal alloc ∨
      op = .constructRange values n hash equal alloc →
        I (Table.initial (kDefaultMaxLoadFactor τ.rounding) hash equal alloc))
    (hz : ∀ i z, op = .table i (.maxLoadFactor z) →
      ∀ t, I t → I (withFactor t (LoadFactor.ofFloat z)))
    (hcopy : ∀ this other, op = .copyAssign this other →
      Action.Post Stuck.anyhow (copyAssign this other) w (fun _ => Everywhere I) E)
    (hmove : ∀ this other, op = .moveAssign this other →
      Action.Post Stuck.anyhow (moveAssign this other) w (fun _ => Everywhere I) E) :
    Action.Post Stuck.anyhow op.exec w (fun _ => Everywhere I) E :=
  h.upheld.statement op hw hE (fun n hash equal alloc values hop =>
    keeps_construct h (hinit n hash equal alloc values hop)) hz hcopy hmove

end

end Fum.Analysis
