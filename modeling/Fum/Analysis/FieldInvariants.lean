import Fum.Analysis.Rules

/-!
# Invariants of single fields

A predicate that reads only a few fields survives every function that does not write them,
however the call ends. `Forgetful` and `Steady` say what such a predicate on a table and its
memory ignores, `Linkable`, `Refillable` and `Unordered` what becomes of the iteration vector
and of the bucket array. For a predicate on the table alone, `Insensitive`, `Appendable` and
`Rebuildable` say the same.
-/

set_option autoImplicit false

namespace Fum.Analysis

open Fum.Model Effects

variable {τ : Traits} {α : Type} {I : Table τ → Prop} {J : Store τ → Prop}

/-- The predicate ignores the arena and the contents of the bucket array. -/
structure Insensitive (I : Table τ → Prop) : Prop where
  arena : ∀ (t : Table τ) (chunks : List (Chunk τ)) (highWater head : ℕ), I t →
    I { t with chunks := chunks, arenaHighWater := highWater, freeListHead := head }
  buckets : ∀ (t : Table τ) (b : Option (BucketArray τ)), I t → I { t with buckets := b }

/-- The predicate survives a new entry of the iteration vector. -/
def Appendable (I : Table τ → Prop) : Prop :=
  ∀ (t : Table τ) (i : ℕ), I t → I { t with iteration := t.iteration ++ [i] }

/-- The predicate survives the allocation of a bucket array. -/
def Rebuildable (I : Table τ → Prop) : Prop :=
  ∀ (t : Table τ) (array : BucketArray τ) (n : ℕ), I t → I (t.withBuckets array n)

/-- The predicate ignores the iteration vector. -/
def IgnoresIteration (I : Table τ → Prop) : Prop :=
  ∀ (t : Table τ) (l : List ℕ), I t → I { t with iteration := l }

/-- The call keeps a predicate on tables, however it ends. -/
abbrev KeepsTable (I : Table τ → Prop) (x : Exec τ α) : Prop :=
  Action.Keeps (fun s : Store τ => I s.table) x

/-- The predicate ignores the memory, but for the counter of identities, which only moves
on. -/
structure Forgetful (J : Store τ → Prop) : Prop where
  heap : ∀ (s : Store τ) (heap : Heap), s.heap.nextId ≤ heap.nextId → J s → J ⟨s.table, heap⟩

/-- The predicate survives writes to nodes and buckets, a fresh chunk and the loss of the
storage. -/
structure Steady (J : Store τ → Prop) : Prop extends Forgetful J where
  node : ∀ (s : Store τ) (i : ℕ) (node : Node τ), J s → J ⟨s.table.setNode i node, s.heap⟩
  slots : ∀ (s : Store τ) (highWater head : ℕ), J s →
    J ⟨{ s.table with arenaHighWater := highWater, freeListHead := head }, s.heap⟩
  cells : ∀ (s : Store τ) (cells : ℕ → Bucket), J s → J ⟨s.table.setCells cells, s.heap⟩
  chunk : ∀ (s : Store τ), J s →
    J ⟨{ s.table with
          chunks := s.table.chunks ++ [⟨s.heap.nextId, s.table.allocator, fun _ => Node.raw⟩] },
      { s.heap with nextId := s.heap.nextId + 1 }⟩
  unchunk : ∀ (s : Store τ), J s → J ⟨{ s.table with chunks := [] }, s.heap⟩
  unbucket : ∀ (s : Store τ), J s → J ⟨{ s.table with buckets := none }, s.heap⟩

/-- The predicate survives a new entry of the iteration vector. -/
def Linkable (J : Store τ → Prop) : Prop :=
  ∀ (s : Store τ) (i : ℕ), J s → J ⟨{ s.table with iteration := s.table.iteration ++ [i] }, s.heap⟩

/-- The predicate survives the allocation of a bucket array. -/
def Refillable (J : Store τ → Prop) : Prop :=
  ∀ (s : Store τ) (n : ℕ), J s →
    J ⟨s.table.withBuckets ⟨s.heap.nextId, s.table.allocator, n, emptyCells⟩ n,
      { s.heap with nextId := s.heap.nextId + 1 }⟩

/-- The predicate ignores the iteration vector. -/
def Unordered (J : Store τ → Prop) : Prop :=
  ∀ (s : Store τ) (l : List ℕ), J s → J ⟨{ s.table with iteration := l }, s.heap⟩

/-- The predicate survives an iteration vector that is no longer than the one before. -/
def Shrinkable (J : Store τ → Prop) : Prop :=
  ∀ (s : Store τ) (l : List ℕ), l.length ≤ s.table.iteration.length → J s →
    J ⟨{ s.table with iteration := l }, s.heap⟩

/-- The predicate survives the second half of an insertion. -/
def Attachable (J : Store τ → Prop) : Prop := ∀ i : ℕ, Action.Keeps J (attachNode i)

theorem Unordered.linkable (h : Unordered J) : Linkable J := fun s _ hs => h s _ hs

theorem Unordered.shrinkable (h : Unordered J) : Shrinkable J := fun s l _ hs => h s l hs

theorem forgetful_table (I : Table τ → Prop) : Forgetful fun s : Store τ => I s.table :=
  ⟨fun _ _ _ h => h⟩

theorem Insensitive.steady (h : Insensitive I) : Steady fun s : Store τ => I s.table where
  heap _ _ _ hs := hs
  node s _ _ hs := h.arena s.table _ s.table.arenaHighWater s.table.freeListHead hs
  slots s highWater head hs := h.arena s.table s.table.chunks highWater head hs
  cells s _ hs := h.buckets s.table _ hs
  chunk s hs := h.arena s.table _ s.table.arenaHighWater s.table.freeListHead hs
  unchunk s hs := h.arena s.table [] s.table.arenaHighWater s.table.freeListHead hs
  unbucket s hs := h.buckets s.table _ hs

theorem Appendable.linkable (h : Appendable I) : Linkable fun s : Store τ => I s.table :=
  fun s i hs => h s.table i hs

theorem Rebuildable.refillable (h : Rebuildable I) : Refillable fun s : Store τ => I s.table :=
  fun s n hs => h s.table _ n hs

theorem IgnoresIteration.unordered (h : IgnoresIteration I) :
    Unordered fun s : Store τ => I s.table := fun s l hs => h s.table l hs

/-- The table holds more than `n` elements. -/
def Over (n : ℕ) (t : Table τ) : Prop := n < t.size

theorem over_insensitive (n : ℕ) : Insensitive (Over n : Table τ → Prop) :=
  ⟨fun _ _ _ _ h => h, fun _ _ h => h⟩

theorem over_appendable (n : ℕ) : Appendable (Over n : Table τ → Prop) := by
  intro t i h
  unfold Over Table.size at h ⊢
  rw [List.length_append]
  omega

theorem over_rebuildable (n : ℕ) : Rebuildable (Over n : Table τ → Prop) := fun _ _ _ h => h

/-! ## Primitives -/

theorem keeps_modifyTable {f : Table τ → Table τ} (h : ∀ t, I t → I (f t)) :
    KeepsTable I (modifyTable f) := fun s hs => h s.table hs

theorem Forgetful.modifyHeap (h : Forgetful J) {f : Heap → Heap}
    (hf : ∀ heap, heap.nextId ≤ (f heap).nextId) : Action.Keeps J (modifyHeap f) :=
  fun s hs => h.heap s _ (hf s.heap) hs

theorem keeps_modifyHeap (f : Heap → Heap) : KeepsTable I (modifyHeap f) := fun _ hs => hs

theorem keeps_getTable : Action.Keeps J getTable := fun _ hs => hs

theorem keeps_mayThrow (h : Forgetful J) (p : Point) : Action.Keeps J (mayThrow p) := by
  intro s hs
  rcases hf : s.heap.fault with _ | ⟨q, n⟩
  · simpa only [mayThrow, hf] using hs
  · by_cases hq : q = p
    · cases n <;> simp only [mayThrow, hf, hq, if_true] <;> exact h.heap s _ le_rfl hs
    · simpa only [mayThrow, hf, hq, if_false] using hs

theorem keeps_freshId (h : Forgetful J) : Action.Keeps J (freshId : Exec τ ℕ) :=
  fun s hs => h.heap s _ (Nat.le_succ _) hs

theorem keeps_elementAt (i : ℕ) : Action.Keeps J (elementAt i) := by
  refine Action.Keeps.bind keeps_getTable fun t => ?_
  cases (t.nodeAt i).storage with
  | some e => exact Action.Keeps.pure e
  | none => exact Action.Keeps.undefined

theorem keeps_keyAt (i : ℕ) : Action.Keeps J (keyAt i) :=
  Action.Keeps.bind (keeps_elementAt i) fun _ => Action.Keeps.pure _

theorem keeps_bucketAt (i : ℕ) : Action.Keeps J (bucketAt i) := by
  refine Action.Keeps.bind keeps_getTable fun t => ?_
  cases t.buckets with
  | none => exact Action.Keeps.undefined
  | some array => exact Action.Keeps.ite (Action.Keeps.pure _) Action.Keeps.undefined

theorem keeps_callMixedHash (h : Forgetful J) (key : τ.Key) :
    Action.Keeps J (callMixedHash key) :=
  Action.Keeps.bind (keeps_mayThrow h _) fun _ =>
    Action.Keeps.bind keeps_getTable fun _ => Action.Keeps.pure _

theorem keeps_callKeyEqual (h : Forgetful J) (a b : τ.Key) :
    Action.Keeps J (callKeyEqual a b) :=
  Action.Keeps.bind (keeps_mayThrow h _) fun _ =>
    Action.Keeps.bind keeps_getTable fun _ => Action.Keeps.pure _

theorem keeps_getCells : Action.Keeps J (getCells : Exec τ (ℕ → Bucket)) := by
  refine Action.Keeps.bind keeps_getTable fun t => ?_
  cases t.buckets with
  | none => exact Action.Keeps.undefined
  | some array => exact Action.Keeps.pure _

theorem keeps_ended (o : Option α) : Action.Keeps J (ended o : Exec τ α) := by
  cases o with
  | none => exact Action.Keeps.diverge
  | some a => exact Action.Keeps.pure a

theorem keeps_defined (o : Option α) : Action.Keeps J (defined o : Exec τ α) := by
  cases o with
  | none => exact Action.Keeps.undefined
  | some a => exact Action.Keeps.pure a

/-! ## The arena -/

/-- The chunk is appended with the identity and the allocator it was allocated with, so the
two calls are taken together. -/
theorem keeps_ensureArenaSlot (h : Steady J) : Action.Keeps J (ensureArenaSlot : Exec τ Unit) := by
  refine Action.Keeps.bind keeps_getTable fun t =>
    Action.Keeps.ite (Action.Keeps.pure _) (Action.Keeps.ite (Action.Keeps.pure _) ?_)
  refine Action.Keeps.of_post fun s hs => ?_
  unfold allocateChunk
  rw [Action.bind_assoc]
  refine post_mayThrow_bind (fun f _ => ?_) fun _ _ => h.heap s _ le_rfl hs
  rw [Action.bind_assoc, post_freshId, Action.bind_assoc, post_modifyHeap, Action.bind_assoc,
    post_getTable, Action.pure_bind]
  refine post_mayThrow_bind (fun g _ => ?_) fun _ _ => h.heap s _ (Nat.le_succ _) hs
  rw [post_modifyTable_last]
  have hchunk := h.chunk s hs
  exact h.heap _ _ (by exact le_rfl) hchunk

theorem keeps_acquireNode (h : Steady J) : Action.Keeps J (acquireNode : Exec τ ℕ) := by
  refine Action.Keeps.bind (keeps_ensureArenaSlot h) fun _ =>
    Action.Keeps.bind keeps_getTable fun t => Action.Keeps.ite ?_ ?_
  · exact Action.Keeps.bind (fun s hs => h.slots s s.table.arenaHighWater _ hs)
      fun _ => Action.Keeps.pure _
  · exact Action.Keeps.bind (fun s hs => h.slots s _ s.table.freeListHead hs)
      fun _ => Action.Keeps.pure _

theorem keeps_releaseNode (h : Steady J) (i : ℕ) : Action.Keeps J (releaseNode i) :=
  fun s hs => h.slots _ s.table.arenaHighWater i (h.node s i _ hs)

theorem keeps_constructElement (h : Forgetful J) (v : τ.Value) :
    Action.Keeps J (constructElement v) :=
  Action.Keeps.bind (keeps_mayThrow h _) fun _ => Action.Keeps.bind (keeps_freshId h) fun _ =>
    Action.Keeps.bind (h.modifyHeap fun _ => le_rfl) fun _ => Action.Keeps.pure _

theorem keeps_setStorage (h : Steady J) (i : ℕ) (storage : Option (Element τ)) :
    Action.Keeps J (modifyTable fun t => t.setStorage i storage) :=
  fun s hs => h.node s i _ hs

theorem keeps_destroyValue (h : Steady J) (i : ℕ) : Action.Keeps J (destroyValue i) :=
  Action.Keeps.bind (keeps_elementAt i) fun _ =>
    Action.Keeps.bind (h.modifyHeap fun _ => le_rfl) fun _ => keeps_setStorage h i _

theorem keeps_assignValue (h : Steady J) (i : ℕ) (g : τ.Value → τ.Value) :
    Action.Keeps J (assignValue i g) :=
  Action.Keeps.bind (keeps_elementAt i) fun _ => keeps_setStorage h i _

theorem keeps_buildNode (h : Steady J) (v : τ.Value) : Action.Keeps J (buildNode v) := by
  refine Action.Keeps.bind (keeps_acquireNode h) fun i =>
    Action.Keeps.bind (Action.Keeps.cleanup ?_ (keeps_releaseNode h i)) fun _ =>
      Action.Keeps.pure _
  exact Action.Keeps.bind (keeps_constructElement h.toForgetful v) fun _ => keeps_setStorage h i _

theorem keeps_linkIntoIteration (h : Steady J) (ha : Linkable J) (i : ℕ) :
    Action.Keeps J (linkIntoIteration i) :=
  Action.Keeps.bind (fun s hs => h.node s i _ hs) fun _ =>
    Action.Keeps.bind (keeps_mayThrow h.toForgetful _) fun _ => fun s hs => ha s i hs

/-! ## The index -/

theorem keeps_findBucketLoop (h : Forgetful J) (key : τ.Key) (fuel : ℕ) :
    ∀ word index : ℕ, Action.Keeps J (findBucketLoop key fuel word index) := by
  induction fuel with
  | zero => exact fun _ _ => Action.Keeps.diverge
  | succ fuel ih =>
      intro word index
      refine Action.Keeps.bind keeps_getTable fun t =>
        Action.Keeps.bind (keeps_bucketAt _) fun bucket => Action.Keeps.ite ?_ ?_
      · refine Action.Keeps.bind (keeps_keyAt _) fun _ =>
          Action.Keeps.bind (keeps_callKeyEqual h _ _) fun same => ?_
        exact Action.Keeps.ite (Action.Keeps.pure _) (ih _ _)
      · exact Action.Keeps.ite (Action.Keeps.pure _) (ih _ _)

theorem keeps_findBucket (h : Forgetful J) (key : τ.Key) (hash : UInt64) :
    Action.Keeps J (findBucket key hash) :=
  Action.Keeps.bind keeps_getTable fun _ =>
    Action.Keeps.ite (Action.Keeps.pure _) (keeps_findBucketLoop h _ _ _ _)

theorem keeps_placeAndShiftUp (h : Steady J) (word index node : ℕ) :
    Action.Keeps J (placeAndShiftUp word index node) :=
  Action.Keeps.bind keeps_getTable fun _ => Action.Keeps.bind keeps_getCells fun _ =>
    Action.Keeps.bind (keeps_ended _) fun _ => fun s hs => h.cells s _ hs

theorem keeps_insertKnownAbsent (h : Steady J) (node : ℕ) (hash : UInt64) :
    Action.Keeps J (insertKnownAbsent node hash) :=
  Action.Keeps.bind (Action.Keeps.bind keeps_getTable fun _ =>
    Action.Keeps.bind keeps_getCells fun _ => keeps_ended _) fun _ =>
      keeps_placeAndShiftUp h _ _ _

theorem keeps_eraseBucket (h : Steady J) (index : ℕ) : Action.Keeps J (eraseBucket index) :=
  Action.Keeps.bind keeps_getTable fun _ => Action.Keeps.bind keeps_getCells fun _ =>
    Action.Keeps.bind (keeps_ended _) fun _ => fun s hs => h.cells s _ hs

theorem keeps_deallocateBuckets (h : Steady J) :
    Action.Keeps J (deallocateBuckets : Exec τ Unit) := by
  refine Action.Keeps.bind keeps_getTable fun t => ?_
  cases t.buckets with
  | none => exact Action.Keeps.pure _
  | some array =>
      exact Action.Keeps.bind (h.modifyHeap fun _ => le_rfl) fun _ => fun s hs => h.unbucket s hs

/-- The predicate survives the allocation of a bucket array of one size. -/
def RefillableTo (n : ℕ) (J : Store τ → Prop) : Prop :=
  ∀ s : Store τ, J s →
    J ⟨s.table.withBuckets ⟨s.heap.nextId, s.table.allocator, n, emptyCells⟩ n,
      { s.heap with nextId := s.heap.nextId + 1 }⟩

/-- The array is stored with the identity and the allocator it was allocated with. -/
theorem RefillableTo.allocateBuckets {n : ℕ} (hb : RefillableTo n J) (h : Steady J) :
    Action.Keeps J (allocateBuckets n : Exec τ Unit) := by
  refine Action.Keeps.of_post fun s hs => ?_
  unfold Model.allocateBuckets
  refine post_mayThrow_bind (fun f _ => ?_) fun _ _ => h.heap s _ le_rfl hs
  rw [post_freshId, post_modifyHeap, post_modifyTable_last]
  have harray := hb s hs
  exact h.heap _ _ (by exact le_rfl) harray

theorem keeps_replaceNode (h : Steady J) (node : ℕ) : Action.Keeps J (replaceNode node) :=
  Action.Keeps.bind (keeps_keyAt _) fun _ =>
    Action.Keeps.bind (keeps_callMixedHash h.toForgetful _) fun _ =>
      Action.Keeps.bind keeps_getTable fun _ => keeps_placeAndShiftUp h _ _ _

theorem RefillableTo.rehashTo {n : ℕ} (hb : RefillableTo n J) (h : Steady J) :
    Action.Keeps J (rehashTo n : Exec τ Unit) :=
  Action.Keeps.bind keeps_getTable fun _ =>
    Action.Keeps.bind (h.modifyHeap fun _ => le_rfl) fun _ =>
      Action.Keeps.bind (keeps_deallocateBuckets h) fun _ =>
        Action.Keeps.bind (hb.allocateBuckets h) fun _ =>
          Action.Keeps.forEach fun node _ => keeps_replaceNode h node

theorem keeps_rehashTo (h : Steady J) (hb : Refillable J) (n : ℕ) :
    Action.Keeps J (rehashTo n : Exec τ Unit) := RefillableTo.rehashTo (fun s => hb s n) h

theorem keeps_reserveForOneMore (h : Steady J) (hb : Refillable J) :
    Action.Keeps J (reserveForOneMore : Exec τ Unit) :=
  Action.Keeps.bind keeps_getTable fun _ => Action.Keeps.ite (keeps_rehashTo h hb _)
    (Action.Keeps.ite (keeps_rehashTo h hb _) (Action.Keeps.pure _))

/-! ## Insertion -/

theorem keeps_attachNode (h : Steady J) (ha : Linkable J) (hb : Refillable J) (i : ℕ) :
    Action.Keeps J (attachNode i : Exec τ Unit) := by
  refine Action.Keeps.bind (Action.Keeps.cleanup ?_ ?_) fun _ => ?_
  · exact Action.Keeps.bind (keeps_reserveForOneMore h hb) fun _ =>
      keeps_linkIntoIteration h ha i
  · exact Action.Keeps.bind (keeps_destroyValue h i) fun _ => keeps_releaseNode h i
  · exact Action.Keeps.bind (keeps_keyAt _) fun _ =>
      Action.Keeps.bind (keeps_callMixedHash h.toForgetful _) fun _ =>
        keeps_insertKnownAbsent h _ _

theorem keeps_locate (h : Forgetful J) {key : τ.Key} {k : ℕ → Exec τ α}
    (hk : ∀ existing, Action.Keeps J (k existing)) :
    Action.Keeps J (callMixedHash key >>= fun hash => findBucket key hash >>= k) :=
  Action.Keeps.bind (keeps_callMixedHash h _) fun _ =>
    Action.Keeps.bind (keeps_findBucket h _ _) hk

theorem keeps_attachable (h : Steady J) (ha : Linkable J) (hb : Refillable J) : Attachable J :=
  keeps_attachNode h ha hb

theorem Attachable.emplaceImpl (ha : Attachable J) (h : Steady J) (v : τ.Value) :
    Action.Keeps J (emplaceImpl v) := by
  refine Action.Keeps.bind (keeps_buildNode h v) fun i =>
    Action.Keeps.bind (keeps_keyAt _) fun _ => keeps_locate h.toForgetful fun _ =>
      Action.Keeps.bind keeps_getTable fun _ => Action.Keeps.ite ?_ ?_
  · exact Action.Keeps.bind (keeps_bucketAt _) fun _ =>
      Action.Keeps.bind (keeps_destroyValue h _) fun _ =>
        Action.Keeps.bind (keeps_releaseNode h _) fun _ => Action.Keeps.pure _
  · exact Action.Keeps.bind (ha _) fun _ => Action.Keeps.pure _

theorem Attachable.tryEmplaceImpl (ha : Attachable J) (h : Steady J) (key : τ.Key)
    (mapped : τ.Mapped) : Action.Keeps J (tryEmplaceImpl key mapped) := by
  refine keeps_locate h.toForgetful fun _ =>
    Action.Keeps.bind keeps_getTable fun _ => Action.Keeps.ite ?_ ?_
  · exact Action.Keeps.bind (keeps_bucketAt _) fun _ => Action.Keeps.pure _
  · exact Action.Keeps.bind (keeps_buildNode h _) fun _ =>
      Action.Keeps.bind (ha _) fun _ => Action.Keeps.pure _

theorem Attachable.insertOrAssignImpl (ha : Attachable J) (h : Steady J) (key : τ.Key)
    (mapped : τ.Mapped) : Action.Keeps J (insertOrAssignImpl key mapped) := by
  refine keeps_locate h.toForgetful fun _ => Action.Keeps.bind keeps_getTable fun _ =>
    Action.Keeps.ite ?_ (ha.tryEmplaceImpl h _ _)
  exact Action.Keeps.bind (keeps_bucketAt _) fun _ =>
    Action.Keeps.bind (keeps_assignValue h _ _) fun _ => Action.Keeps.pure _

theorem nextId_releaseHandle (heap : Heap) (handle : Handle τ) :
    (heap.releaseHandle handle).nextId = heap.nextId := by
  unfold Heap.releaseHandle
  cases handle.value <;> rfl

theorem Attachable.insertNode (ha : Attachable J) (h : Steady J) (handle : Handle τ) :
    Action.Keeps J (insertNode handle) := by
  unfold Model.insertNode
  cases handle.value with
  | none => exact Action.Keeps.pure _
  | some cell =>
      refine keeps_locate h.toForgetful fun _ => Action.Keeps.bind keeps_getTable fun _ =>
        Action.Keeps.ite ?_ ?_
      · exact Action.Keeps.bind (keeps_bucketAt _) fun _ => Action.Keeps.pure _
      · exact Action.Keeps.bind (keeps_buildNode h _) fun _ =>
          Action.Keeps.bind (ha _) fun _ =>
            Action.Keeps.bind (h.modifyHeap fun heap => (nextId_releaseHandle heap handle).ge)
              fun _ => Action.Keeps.pure _

theorem Attachable.insertRange (ha : Attachable J) (h : Steady J) (values : List τ.Value) :
    Action.Keeps J (insertRange values) :=
  Action.Keeps.forEach fun v _ =>
    Action.Keeps.bind (ha.emplaceImpl h v) fun _ => Action.Keeps.pure _

theorem keeps_emplaceImpl (h : Steady J) (ha : Linkable J) (hb : Refillable J)
    (v : τ.Value) : Action.Keeps J (emplaceImpl v) := (keeps_attachable h ha hb).emplaceImpl h v

theorem keeps_find (h : Forgetful J) (key : τ.Key) : Action.Keeps J (find key) := by
  refine keeps_locate h fun _ => Action.Keeps.bind keeps_getTable fun _ =>
    Action.Keeps.ite (Action.Keeps.pure _) ?_
  exact Action.Keeps.bind (keeps_bucketAt _) fun _ => Action.Keeps.pure _

theorem keeps_contains (h : Forgetful J) (key : τ.Key) : Action.Keeps J (contains key) :=
  keeps_locate h fun _ => Action.Keeps.bind keeps_getTable fun _ => Action.Keeps.pure _

/-! ## Removal, for predicates that survive a shorter iteration vector -/

theorem Shrinkable.unlinkFromIteration (hi : Shrinkable J) (h : Steady J) (i : ℕ) :
    Action.Keeps J (unlinkFromIteration i) := by
  refine Action.Keeps.bind keeps_getTable fun t => ?_
  simp only
  cases t.iteration.getLast? with
  | none => exact Action.Keeps.undefined
  | some last =>
      refine Action.Keeps.ite ?_ Action.Keeps.undefined
      exact Action.Keeps.bind (fun s hs => hi s _ (List.length_set ..).le hs) fun _ =>
        Action.Keeps.bind (fun s hs => h.node s last _ hs) fun _ => fun s hs =>
          hi s _ (List.dropLast_sublist _).length_le hs

theorem Shrinkable.eraseLocated (hi : Shrinkable J) (h : Steady J) (index : ℕ) :
    Action.Keeps J (eraseLocated index) :=
  Action.Keeps.bind (keeps_bucketAt _) fun _ => Action.Keeps.bind (keeps_eraseBucket h _) fun _ =>
    Action.Keeps.bind (keeps_destroyValue h _) fun _ =>
      Action.Keeps.bind (hi.unlinkFromIteration h _) fun _ => keeps_releaseNode h _

theorem Shrinkable.eraseNode (hi : Shrinkable J) (h : Steady J) (node : ℕ) :
    Action.Keeps J (eraseNode node) :=
  Action.Keeps.bind (keeps_keyAt _) fun _ =>
    keeps_locate h.toForgetful fun _ => hi.eraseLocated h _

theorem Shrinkable.eraseAt (hi : Shrinkable J) (h : Steady J) (node : ℕ) :
    Action.Keeps J (eraseAt node) :=
  Action.Keeps.bind keeps_getTable fun _ => Action.Keeps.bind (hi.eraseNode h _) fun _ =>
    Action.Keeps.bind keeps_getTable fun _ => Action.Keeps.pure _

theorem Shrinkable.eraseRange (hi : Shrinkable J) (h : Steady J) (first last : ℕ) :
    Action.Keeps J (eraseRange first last) := by
  refine Action.Keeps.bind keeps_getTable fun t => ?_
  cases t.range (kNullIndex + 1) first last with
  | none => exact Action.Keeps.undefined
  | some doomed =>
      exact Action.Keeps.bind (Action.Keeps.forEach fun _ _ => keeps_mayThrow h.toForgetful _)
        fun _ => Action.Keeps.bind (Action.Keeps.forEach fun node _ => hi.eraseNode h node)
          fun _ => Action.Keeps.pure _

theorem Shrinkable.eraseKey (hi : Shrinkable J) (h : Steady J) (key : τ.Key) :
    Action.Keeps J (eraseKey key) :=
  keeps_locate h.toForgetful fun _ => Action.Keeps.bind keeps_getTable fun _ =>
    Action.Keeps.ite (Action.Keeps.pure _)
      (Action.Keeps.bind (hi.eraseLocated h _) fun _ => Action.Keeps.pure _)

theorem keeps_destroyAllValues (h : Steady J) :
    Action.Keeps J (destroyAllValues : Exec τ Unit) :=
  Action.Keeps.bind keeps_getTable fun _ => Action.Keeps.forEach fun i _ => keeps_destroyValue h i

theorem Shrinkable.clear (hi : Shrinkable J) (h : Steady J) :
    Action.Keeps J (clear : Exec τ Unit) := by
  refine Action.Keeps.bind keeps_getTable fun _ => Action.Keeps.ite (Action.Keeps.pure _) ?_
  refine Action.Keeps.bind (keeps_destroyAllValues h) fun _ s hs => ?_
  exact h.slots _ 0 kNullIndex (hi _ [] (Nat.zero_le _) (h.cells s _ hs))

theorem Shrinkable.extractLocated (hi : Shrinkable J) (h : Steady J) (index : ℕ) :
    Action.Keeps J (extractLocated index) := by
  refine Action.Keeps.bind (keeps_bucketAt _) fun _ => Action.Keeps.bind ?_ fun _ =>
    Action.Keeps.bind (keeps_elementAt _) fun _ => Action.Keeps.bind (Action.Keeps.cleanup
      (keeps_constructElement h.toForgetful _) (h.modifyHeap fun _ => le_rfl)) fun _ =>
        Action.Keeps.bind (keeps_assignValue h _ _) fun _ =>
          Action.Keeps.bind (hi.eraseLocated h _) fun _ =>
            Action.Keeps.bind keeps_getTable fun _ => Action.Keeps.pure _
  exact Action.Keeps.bind (keeps_mayThrow h.toForgetful _) fun _ =>
    Action.Keeps.bind (keeps_freshId h.toForgetful) fun _ =>
      Action.Keeps.bind (h.modifyHeap fun _ => le_rfl) fun _ => Action.Keeps.pure _

theorem Shrinkable.extractKey (hi : Shrinkable J) (h : Steady J) (key : τ.Key) :
    Action.Keeps J (extractKey key) :=
  keeps_locate h.toForgetful fun _ => Action.Keeps.bind keeps_getTable fun _ =>
    Action.Keeps.ite (Action.Keeps.pure _) (hi.extractLocated h _)

theorem Shrinkable.extractAt (hi : Shrinkable J) (h : Steady J) (node : ℕ) :
    Action.Keeps J (extractAt node) :=
  Action.Keeps.bind (keeps_keyAt _) fun _ =>
    keeps_locate h.toForgetful fun _ => hi.extractLocated h _

/-! ## Removal, for predicates that ignore the iteration vector -/

theorem keeps_eraseLocated (h : Steady J) (hi : Unordered J) (index : ℕ) :
    Action.Keeps J (eraseLocated index) := hi.shrinkable.eraseLocated h index

theorem keeps_eraseAt (h : Steady J) (hi : Unordered J) (node : ℕ) :
    Action.Keeps J (eraseAt node) := hi.shrinkable.eraseAt h node

theorem keeps_eraseRange (h : Steady J) (hi : Unordered J) (first last : ℕ) :
    Action.Keeps J (eraseRange first last) := hi.shrinkable.eraseRange h first last

theorem keeps_eraseKey (h : Steady J) (hi : Unordered J) (key : τ.Key) :
    Action.Keeps J (eraseKey key) := hi.shrinkable.eraseKey h key

theorem keeps_clear (h : Steady J) (hi : Unordered J) : Action.Keeps J (clear : Exec τ Unit) :=
  hi.shrinkable.clear h

theorem keeps_extractKey (h : Steady J) (hi : Unordered J) (key : τ.Key) :
    Action.Keeps J (extractKey key) := hi.shrinkable.extractKey h key

theorem keeps_extractAt (h : Steady J) (hi : Unordered J) (node : ℕ) :
    Action.Keeps J (extractAt node) := hi.shrinkable.extractAt h node

end Fum.Analysis
