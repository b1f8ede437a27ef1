import Fum.Analysis.Arena

/-!
# Node lifetime

What each function of the arena does to a table whose slots are in order, and to the
memory. Every throwing point of `acquire_node` and of the constructor leaves the slots
as they were.
-/

set_option autoImplicit false

namespace Fum.Analysis

open Fum.Model Effects

variable {τ : Traits} {β : Type} {U : Stuck → Prop} {s : Store τ}
  {Q : β → Store τ → Prop} {E : Store τ → Prop}

/-! ## Acquiring a slot -/

/-- The heap after the allocation of an arena chunk. -/
def withChunk (h : Heap) : Heap :=
  { h with nextId := h.nextId + 1, chunks := h.chunks.acquire h.nextId }

/-- What is taken from the memory for a slot: nothing, or a chunk. -/
def ChunkTaken (s s' : Store τ) : Prop :=
  (s'.heap = withFault s.heap s'.heap.fault ∧ chunkIds s'.table = chunkIds s.table) ∨
    (s'.heap = withFault (withChunk s.heap) s'.heap.fault ∧
      chunkIds s'.table = chunkIds s.table ++ [s.heap.nextId])

/-- A slot in hand, and nothing else changed. -/
structure Acquired (s : Store τ) (i : ℕ) (s' : Store τ) : Prop where
  slots : Slots s'.table [i]
  node : ∀ j, s'.table.nodeAt j = s.table.nodeAt j
  iteration : s'.table.iteration = s.table.iteration
  index : SameIndex s.table s'.table
  policy : SamePolicy s.table s'.table
  heap : ChunkTaken s s'
  fault : Through [.chunk, .chunksGrowth] s.heap.fault s'.heap.fault

/-- How `acquire_node` throws: at the allocation of the chunk, or after it at the growth of
`chunks_`, and then the chunk is lost. -/
def AcquireThrown (s s' : Store τ) : Prop :=
  s'.table = s.table ∧
    ((faultPoint s.heap.fault = some .chunk ∧ s'.heap = withFault s.heap none) ∨
      (faultPoint s.heap.fault = some .chunksGrowth ∧
        s'.heap = withFault (withChunk s.heap) none))

/-- The table with a fresh chunk has the same slots. -/
theorem Slots.appendRaw {t : Table τ} (h : Slots t []) (chunk : Chunk τ)
    (hraw : ∀ i, chunk.nodes i = Node.raw) :
    Slots { t with chunks := t.chunks ++ [chunk] } [] := by
  refine h.congr (fun j => by rw [nodeAt_append_raw t chunk hraw]) rfl rfl rfl ?_
  unfold Table.arenaSize
  rw [List.length_append]
  exact Nat.mul_le_mul_right _ (by omega)

theorem acquireNode_spec (h : Slots s.table []) (hmax : s.table.size ≤ maxSize) :
    Action.Post U acquireNode s (Acquired s) (AcquireThrown s) := by
  unfold acquireNode ensureArenaSlot
  rw [Action.bind_assoc, post_getTable]
  by_cases hhead : s.table.freeListHead ≠ kNullIndex
  · rw [if_pos hhead, Action.pure_bind, post_getTable, if_pos hhead, post_modifyTable]
    exact {
      slots := h.pop hhead
      node := fun j => rfl
      iteration := rfl
      index := ⟨rfl, rfl, rfl, rfl⟩
      policy := ⟨rfl, rfl, rfl, rfl⟩
      heap := Or.inl ⟨rfl, rfl⟩
      fault := Through.refl _ _ }
  rw [if_neg hhead]
  have hnull : s.table.freeListHead = kNullIndex := not_not.mp hhead
  by_cases hroom : s.table.arenaHighWater < s.table.arenaSize
  · rw [if_pos hroom, Action.pure_bind, post_getTable, if_neg hhead, post_modifyTable]
    exact {
      slots := h.bump hnull hroom hmax
      node := fun j => rfl
      iteration := rfl
      index := ⟨rfl, rfl, rfl, rfl⟩
      policy := ⟨rfl, rfl, rfl, rfl⟩
      heap := Or.inl ⟨rfl, rfl⟩
      fault := Through.refl _ _ }
  rw [if_neg hroom]
  simp only [allocateChunk, Action.bind_assoc]
  refine post_mayThrow_bind (fun f hf => ?_) fun hpoint _ => ⟨rfl, Or.inl ⟨hpoint, rfl⟩⟩
  rw [post_freshId, post_modifyHeap, post_getTable, Action.pure_bind]
  refine post_mayThrow_bind (fun f' hf' => ?_) fun hpoint _ => ?_
  · rw [post_modifyTable, post_getTable, if_neg hhead, post_modifyTable, post_pure]
    let chunk : Chunk τ := ⟨s.heap.nextId, s.table.allocator, fun _ => Node.raw⟩
    have hslots : Slots { s.table with chunks := s.table.chunks ++ [chunk] } [] :=
      h.appendRaw chunk fun _ => rfl
    have hgrown : s.table.arenaHighWater <
        ({ s.table with chunks := s.table.chunks ++ [chunk] } : Table τ).arenaSize := by
      have hcov := h.covered
      unfold Table.arenaSize at hcov ⊢
      rw [List.length_append, List.length_singleton, Nat.add_mul, Nat.one_mul]
      have : 0 < kChunkSize := by decide
      omega
    exact {
      slots := hslots.bump hnull hgrown hmax
      node := fun j => nodeAt_append_raw s.table chunk (fun _ => rfl) j
      iteration := rfl
      index := ⟨rfl, rfl, rfl, rfl⟩
      policy := ⟨rfl, rfl, rfl, rfl⟩
      heap := Or.inr ⟨rfl, by simp [chunkIds]; rfl⟩
      fault := (hf.through (by simp)).trans (hf'.through (by simp)) }
  · have hpoint' : faultPoint s.heap.fault = some .chunksGrowth := by
      rw [← hf.faultPoint_eq]
      exact hpoint
    exact ⟨rfl, Or.inr ⟨hpoint', rfl⟩⟩

/-! ## Elements -/

/-- The heap after the construction of an element. -/
def withElement (h : Heap) : Heap :=
  { h with
    nextId := h.nextId + 1
    elements := h.elements.acquire h.nextId
    moved := true }

/-- The heap after the destruction of an element. -/
def withoutElement (h : Heap) (e : Element τ) : Heap :=
  { h with elements := h.elements.giveBack e.serial }

theorem post_constructElement {v : τ.Value} {k : Element τ → Exec τ β}
    (hok : ∀ f, Ticks .construct s.heap.fault f →
      Action.Post U (k ⟨s.heap.nextId, v⟩) ⟨s.table, withFault (withElement s.heap) f⟩ Q E)
    (hthrow : faultPoint s.heap.fault = some .construct →
      E ⟨s.table, withFault s.heap none⟩) :
    Action.Post U (constructElement v >>= k) s Q E := by
  unfold constructElement
  rw [Action.bind_assoc]
  refine post_mayThrow_bind (fun f hf => ?_) fun hpoint _ => hthrow hpoint
  rw [Action.bind_assoc, post_freshId, Action.bind_assoc, post_modifyHeap, Action.pure_bind]
  exact hok f hf

theorem constructValue_spec (i : ℕ) (v : τ.Value) :
    Action.Post U (constructValue i v) s
      (fun _ s' => ∃ f, Ticks .construct s.heap.fault f ∧
        s' = ⟨s.table.setStorage i (some ⟨s.heap.nextId, v⟩), withFault (withElement s.heap) f⟩)
      (fun s' => faultPoint s.heap.fault = some .construct ∧
        s' = ⟨s.table, withFault s.heap none⟩) := by
  unfold constructValue
  refine post_constructElement (fun f hf => ?_) fun hpoint => ⟨hpoint, rfl⟩
  exact ⟨f, hf, rfl⟩

/-- The destruction of the element in a node. -/
theorem run_destroyValue {i : ℕ} {e : Element τ} (he : (s.table.nodeAt i).storage = some e) :
    (destroyValue i).run s =
      (.ok (), ⟨s.table.setStorage i none, withoutElement s.heap e⟩) := by
  unfold destroyValue elementAt
  rw [Action.bind_assoc, run_getTable, he]
  rfl

theorem post_destroyValue {i : ℕ} {k : Unit → Exec τ β}
    (hsome : ∀ e, (s.table.nodeAt i).storage = some e →
      Action.Post U (k ()) ⟨s.table.setStorage i none, withoutElement s.heap e⟩ Q E)
    (hnone : (s.table.nodeAt i).storage = none → U .undefined) :
    Action.Post U (destroyValue i >>= k) s Q E := by
  unfold destroyValue
  rw [Action.bind_assoc]
  refine post_elementAt (fun e he => ?_) hnone
  exact hsome e he

theorem run_assignValue {i : ℕ} {e : Element τ} (he : (s.table.nodeAt i).storage = some e)
    (g : τ.Value → τ.Value) :
    (assignValue i g).run s =
      (.ok (), ⟨s.table.setStorage i (some { e with value := g e.value }), s.heap⟩) := by
  unfold assignValue elementAt
  rw [Action.bind_assoc, run_getTable, he]
  rfl

theorem run_assignValue_none {i : ℕ} (he : (s.table.nodeAt i).storage = none)
    (g : τ.Value → τ.Value) : (assignValue i g).run s = (.undefined, s) := by
  unfold assignValue elementAt
  rw [Action.bind_assoc, run_getTable, he]
  rfl

theorem post_assignValue {i : ℕ} {g : τ.Value → τ.Value} {k : Unit → Exec τ β}
    (hsome : ∀ e, (s.table.nodeAt i).storage = some e →
      Action.Post U (k ())
        ⟨s.table.setStorage i (some { e with value := g e.value }), s.heap⟩ Q E)
    (hnone : (s.table.nodeAt i).storage = none → U .undefined) :
    Action.Post U (assignValue i g >>= k) s Q E := by
  unfold assignValue
  rw [Action.bind_assoc]
  refine post_elementAt (fun e he => ?_) hnone
  exact hsome e he

theorem post_releaseNode {i : ℕ} {k : Unit → Exec τ β} :
    Action.Post U (releaseNode i >>= k) s Q E ↔
      Action.Post U (k ()) ⟨s.table.release i, s.heap⟩ Q E := Iff.rfl

/-! ## The iteration vector -/

/-- What `link_into_iteration` does to the table. -/
def linked (t : Table τ) (i : ℕ) : Table τ :=
  { t.setAux i (wrap32 t.size) with iteration := t.iteration ++ [i] }

theorem linkIntoIteration_spec (i : ℕ) :
    Action.Post U (linkIntoIteration i) s
      (fun _ s' => ∃ f, Ticks .iterationGrowth s.heap.fault f ∧
        s' = ⟨linked s.table i, withFault s.heap f⟩)
      (fun s' => faultPoint s.heap.fault = some .iterationGrowth ∧
        s' = ⟨s.table.setAux i (wrap32 s.table.size), withFault s.heap none⟩) := by
  unfold linkIntoIteration
  rw [post_modifyTable]
  refine post_mayThrow_bind (fun f hf => ?_) fun hpoint _ => ⟨hpoint, rfl⟩
  exact ⟨f, hf, rfl⟩

/-- A slot in hand enters the vector. -/
theorem Slots.linked {t : Table τ} {i : ℕ} (h : Slots t [i]) (hmax : t.size ≤ maxSize) :
    Slots (linked t i) [] := by
  have hnull : maxSize < 2 ^ 32 := by decide
  have hwrap : wrap32 t.size = t.size := Nat.mod_eq_of_lt (by omega)
  refine (h.setAux (wrap32 t.size)).append ?_
  rw [aux_setAux_self (h.lt_arenaSize (Or.inr (by simp))), hwrap]
  rfl

theorem storage_linked (t : Table τ) (i j : ℕ) :
    ((linked t i).nodeAt j).storage = (t.nodeAt j).storage :=
  storage_setAux t i _ j

theorem chunkIds_linked (t : Table τ) (i : ℕ) : chunkIds (linked t i) = chunkIds t :=
  chunkIds_setNode t i _

/-- `unlink_from_iteration` of a live slot. -/
theorem post_unlinkFromIteration {pending : List ℕ} {i : ℕ} {k : Unit → Exec τ β}
    (h : Slots s.table pending) (hi : i ∈ s.table.iteration)
    (hk : Action.Post U (k ()) ⟨unlinked s.table i, s.heap⟩ Q E) :
    Action.Post U (unlinkFromIteration i >>= k) s Q E := by
  obtain ⟨hlt, -⟩ := h.position_of_mem hi
  obtain ⟨last, -, hlast⟩ := exists_getLast? (List.ne_nil_of_mem hi)
  unfold unlinkFromIteration
  rw [Action.bind_assoc, post_getTable]
  simp only [hlast]
  rw [if_pos (show (s.table.nodeAt i).aux < s.table.size from hlt), Action.bind_assoc,
    post_modifyTable, Action.bind_assoc, post_modifyTable, post_modifyTable]
  have hun : unlinked s.table i =
      { s.table.setAux last (s.table.nodeAt i).aux with
        iteration := SwapRemove.swapRemove s.table.iteration (s.table.nodeAt i).aux } := by
    unfold unlinked
    rw [hlast]
  rw [hun, SwapRemove.swapRemove_eq hlast] at hk
  exact hk

/-! ## Building a node -/

/-- A slot in hand that holds a new element of value `v`, and nothing else changed. -/
structure Built (s : Store τ) (v : τ.Value) (i : ℕ) (s' : Store τ) : Prop where
  slots : Slots s'.table [i]
  element : ∃ serial, (s'.table.nodeAt i).storage = some ⟨serial, v⟩
  others : ∀ j, j ≠ i → (s'.table.nodeAt j).storage = (s.table.nodeAt j).storage
  iteration : s'.table.iteration = s.table.iteration
  index : SameIndex s.table s'.table
  policy : SamePolicy s.table s'.table
  chunks : chunkIds s.table <+: chunkIds s'.table
  fault : Through [.chunk, .chunksGrowth, .construct] s.heap.fault s'.heap.fault

/-- The slots and elements after an exception before anything was linked. -/
structure Restored (s s' : Store τ) : Prop where
  slots : Slots s'.table []
  storage : ∀ j, (s'.table.nodeAt j).storage = (s.table.nodeAt j).storage
  iteration : s'.table.iteration = s.table.iteration
  index : SameIndex s.table s'.table
  policy : SamePolicy s.table s'.table
  chunks : chunkIds s.table <+: chunkIds s'.table

theorem ChunkTaken.prefix {s s' : Store τ} (h : ChunkTaken s s') :
    chunkIds s.table <+: chunkIds s'.table := by
  rcases h with ⟨-, h⟩ | ⟨-, h⟩
  · rw [h]
  · rw [h]
    exact List.prefix_append _ _

theorem buildNode_spec (v : τ.Value) (h : Slots s.table []) (hmax : s.table.size ≤ maxSize) :
    Action.Post U (buildNode v) s (Built s v) (fun s' => Restored s s' ∧
      ∃ p ∈ [Point.chunk, .chunksGrowth, .construct], faultPoint s.heap.fault = some p) := by
  unfold buildNode
  refine Action.Post.bind (acquireNode_spec h hmax) ?_ fun i s1 h1 => ?_
  · rintro s' ⟨htable, hheap⟩
    refine ⟨?_, ?_⟩
    · rw [← htable] at h
      exact ⟨h, fun j => by rw [htable], by rw [htable], by rw [htable]; exact SameIndex.refl _,
        by rw [htable]; exact SamePolicy.refl _, by rw [htable]⟩
    · rcases hheap with ⟨hpoint, -⟩ | ⟨hpoint, -⟩
      · exact ⟨.chunk, by simp, hpoint⟩
      · exact ⟨.chunksGrowth, by simp, hpoint⟩
  have hin : i < s1.table.arenaSize := h1.slots.lt_arenaSize (Or.inr (by simp))
  refine Action.Post.bind (Action.Post.cleanup (constructValue_spec i v) ?_)
    (fun _ h => h) ?_
  · rintro s' ⟨hpoint, rfl⟩
    refine ⟨⟨h1.slots.release, fun j => ?_, h1.iteration, h1.index.trans ⟨rfl, rfl, rfl, rfl⟩,
      h1.policy.trans ⟨rfl, rfl, rfl, rfl⟩, ?_⟩, .construct, by simp, ?_⟩
    · exact (storage_release s1.table i j).trans (congrArg Node.storage (h1.node j))
    · rw [show chunkIds (s1.table.release i) = chunkIds s1.table from chunkIds_setNode ..]
      exact h1.heap.prefix
    · rw [← h1.fault.point]
      exact hpoint
  · rintro _ _ ⟨f, hf, rfl⟩
    exact {
      slots := h1.slots.setStorage i _
      element := ⟨_, storage_setStorage_self hin _⟩
      others := fun j hj => (storage_setStorage_of_ne hj _).trans
        (congrArg Node.storage (h1.node j))
      iteration := h1.iteration
      index := h1.index.trans ⟨rfl, rfl, rfl, rfl⟩
      policy := h1.policy.trans ⟨rfl, rfl, rfl, rfl⟩
      chunks := by
        show chunkIds s.table <+: chunkIds (s1.table.setNode i _)
        rw [chunkIds_setNode]
        exact h1.heap.prefix
      fault := (h1.fault.mono (by simp)).trans (hf.through (by simp)) }

end Fum.Analysis
