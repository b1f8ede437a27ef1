import Fum.Analysis.LoadFactors
import Fum.Analysis.QuietCalls
import Fum.Analysis.Traces

/-!
# The slots of a table that only grows

What an insertion does to the slots does not depend on the buckets: whatever has become of
the index, the slots stay in order as long as the table has at most `max_size()` elements
before the insertion. How many it has afterwards is what the insertion adds.
-/

set_option autoImplicit false

namespace Fum.Analysis

open Fum.Model Effects

variable {τ : Traits} {β : Type} {s s' : Store τ} {t t' : Table τ} {pending : List ℕ} {i : ℕ}
  {v : τ.Value} {key : τ.Key}

/-! ## Slots that hold elements -/

/-- The slots are in order, and those that are listed or in hand hold the elements. -/
structure Arranged (t : Table τ) (pending : List ℕ) : Prop where
  slots : Slots t pending
  filled : Filled t (t.iteration ++ pending)

theorem Arranged.filled_iteration (h : Arranged t []) : Filled t t.iteration := by
  have hfilled := h.filled
  rwa [List.append_nil] at hfilled

theorem Arranged.of_filled (hslots : Slots t []) (hfilled : Filled t t.iteration) :
    Arranged t [] := ⟨hslots, by rwa [List.append_nil]⟩

theorem SameArena.arranged (h : SameArena t t') (ha : Arranged t pending) :
    Arranged t' pending where
  slots := h.slots ha.slots
  filled := by
    rw [h.iteration]
    exact h.filled ha.filled

/-- A slot that `acquire_node` hands out is not the end and holds no element. -/
theorem Arranged.acquire (h : Arranged t []) (hmax : t.size ≤ maxSize) {heap : Heap} {slot : ℕ}
    (hrun : (acquireNode : Exec τ ℕ).run ⟨t, heap⟩ = (.ok slot, s')) :
    slot < kNullIndex ∧ slot ∉ t.iteration ∧ (t.nodeAt slot).storage = none := by
  have hacquired : Acquired ⟨t, heap⟩ slot s' :=
    Action.Post.ok_of_run (U := Stuck.anyhow) (acquireNode_spec h.slots hmax) hrun
  have hnull := hacquired.slots.ne_null (i := slot) (Or.inr (by simp))
  have hnot := hacquired.slots.not_mem
  rw [hacquired.iteration] at hnot
  refine ⟨hnull, hnot, ?_⟩
  rw [← h.filled_iteration slot] at hnot
  simpa using hnot

/-- A table with one element more than `max_size()` has used up its slots, and has room in its
chunks for the number of the end. -/
theorem Arranged.exhausted (h : Arranged t []) (hsize : t.size = maxSize + 1) :
    t.freeListHead = kNullIndex ∧ t.arenaHighWater = kNullIndex ∧ kNullIndex < t.arenaSize ∧
      0 ∈ t.iteration := by
  obtain ⟨free, hfree, hperm⟩ := h.slots.split
  have hlength : t.iteration.length + free.length = t.arenaHighWater := by
    have hlen := hperm.length_eq
    rw [List.append_nil, List.length_append, List.length_range] at hlen
    exact hlen
  have hbounded := h.slots.bounded
  have hcovered := h.slots.covered
  have hmax : maxSize + 1 = kNullIndex := rfl
  unfold Table.size at hsize
  have hnone : free = [] := List.length_eq_zero_iff.mp (by omega)
  subst hnone
  have hwater : t.arenaHighWater = kNullIndex := by
    rw [List.length_nil] at hlength
    omega
  refine ⟨hfree, hwater, ?_, ?_⟩
  · -- the chunks are of a size that does not divide the number of the end
    unfold Table.arenaSize kChunkSize at *
    unfold kNullIndex at *
    omega
  · have hzero : 0 ∈ t.iteration ++ [] ++ [] := by
      rw [hperm.mem_iff, hwater]
      exact List.mem_range.mpr (by decide)
    simpa using hzero

/-- Without a free slot the high-water mark is handed out, and moves on modulo `2 ^ 32`. -/
theorem run_acquireNode (hhead : s.table.freeListHead = kNullIndex)
    (hlt : s.table.arenaHighWater < s.table.arenaSize) :
    ∃ s', (acquireNode : Exec τ ℕ).run s = (.ok s.table.arenaHighWater, s') ∧
      s'.table = { s.table with arenaHighWater := wrap32 (s.table.arenaHighWater + 1) } := by
  have hensure : (ensureArenaSlot : Exec τ Unit).run s = (.ok (), s) := by
    unfold ensureArenaSlot
    rw [run_getTable, if_neg (not_not.mpr hhead), if_pos hlt]
    rfl
  refine ⟨⟨{ s.table with arenaHighWater := wrap32 (s.table.arenaHighWater + 1) }, s.heap⟩,
    ?_, rfl⟩
  unfold acquireNode
  rw [Action.run_bind_ok _ hensure, run_getTable, if_neg (not_not.mpr hhead)]
  rfl

/-- From a table with one element more than `max_size()` the next two slots handed out are the
end and the slot of an element. -/
theorem Arranged.acquires_end (h : Arranged s.table [])
    (hsize : s.table.size = maxSize + 1) :
    ∃ s1 s2, (acquireNode : Exec τ ℕ).run s = (.ok kNullIndex, s1) ∧
      (acquireNode : Exec τ ℕ).run s1 = (.ok 0, s2) ∧ 0 ∈ s.table.iteration := by
  obtain ⟨hhead, hwater, hcovered, hzero⟩ := h.exhausted hsize
  obtain ⟨s1, hfirst, htable⟩ := run_acquireNode hhead (hwater.trans_lt hcovered)
  rw [hwater] at hfirst htable
  have hhead1 : s1.table.freeListHead = kNullIndex := by
    rw [htable]
    exact hhead
  have hwrap : wrap32 (kNullIndex + 1) = 0 := by decide
  have hwater1 : s1.table.arenaHighWater = 0 := by
    rw [htable]
    exact hwrap
  have harena : s1.table.arenaSize = s.table.arenaSize := by
    unfold Table.arenaSize
    rw [htable]
  have hcovered1 : s1.table.arenaHighWater < s1.table.arenaSize := by
    rw [hwater1, harena]
    exact Nat.zero_lt_of_lt hcovered
  obtain ⟨s2, hsecond, -⟩ := run_acquireNode hhead1 hcovered1
  rw [hwater1] at hsecond
  exact ⟨s1, s2, hfirst, hsecond, hzero⟩

theorem Built.arranged (h : Built s v i s') (ha : Arranged s.table []) :
    Arranged s'.table [i] where
  slots := h.slots
  filled := h.filled ha.filled_iteration

theorem Restored.arranged (h : Restored s s') (ha : Arranged s.table []) :
    Arranged s'.table [] := by
  apply Arranged.of_filled h.slots
  rw [h.iteration]
  exact ha.filled_iteration.congr fun x => by rw [h.storage]

/-- Without the element in hand, and its slot given back. -/
theorem Arranged.drop (h : Arranged t [i]) :
    Arranged ((t.setStorage i none).release i) [] := by
  have hdropped := Dropped.of_slots h.slots
  apply Arranged.of_filled hdropped.slots
  exact h.slots.filled_dropped h.filled

theorem Arranged.linked (h : Arranged t [i]) (hmax : t.size ≤ maxSize) :
    Arranged (linked t i) [] := by
  apply Arranged.of_filled (h.slots.linked hmax)
  exact h.filled.congr fun x => by rw [storage_linked]

/-- The element in a slot has been assigned to. -/
theorem Arranged.assign (h : Arranged t []) {x : ℕ} {e : Element τ}
    (he : (t.nodeAt x).storage = some e) (e' : Element τ) :
    Arranged (t.setStorage x (some e')) [] := by
  apply Arranged.of_filled (h.slots.setStorage x _)
  exact h.filled_iteration.setStorage he e'

/-! ## Insertions and the slots -/

/-- The call leaves the arena alone, and the fault where it is. -/
def ArenaKept (s s' : Store τ) : Prop :=
  SameArena s.table s'.table ∧ faultPoint s'.heap.fault = faultPoint s.heap.fault

theorem rehashTo_arena (n : ℕ) :
    Action.Post Stuck.anyhow (rehashTo n) s (fun _ => ArenaKept s)
      (fun s' => SameArena s.table s'.table ∧ s.heap.fault ≠ none) := by
  unfold rehashTo
  rw [post_getTable, post_modifyHeap]
  refine Action.Post.bind deallocateBuckets_spec (fun _ h => h.elim) ?_
  rintro ⟨⟩ s1 ⟨htable, hfault⟩
  have harena : SameArena s.table s1.table := by
    rw [htable]
    exact ⟨rfl, rfl, rfl, rfl⟩
  have hfault1 : s1.heap.fault = s.heap.fault := hfault
  refine Action.Post.bind (Q := fun _ => ArenaKept s)
    (E := fun s' => SameArena s.table s'.table ∧ s.heap.fault ≠ none) ?_ (fun _ h => h) ?_
  · unfold allocateBuckets
    refine post_mayThrow_bind (fun f hf => ?_) fun hpoint _ => ?_
    · rw [post_freshId, post_modifyHeap, post_modifyTable_last]
      exact ⟨harena.trans ⟨rfl, rfl, rfl, rfl⟩, by rw [← hfault1]; exact hf.faultPoint_eq⟩
    · exact ⟨harena, by rw [← hfault1]; exact fault_ne_none hpoint⟩
  · rintro ⟨⟩ s2 ⟨h2, hpoint2⟩
    refine (replaceAll_frame s.table.iteration).mono ?_ ?_ fun _ h => h
    · rintro ⟨⟩ s3 h3
      exact ⟨h2.trans h3.arena, h3.fault.point.trans hpoint2⟩
    · intro s3 h3
      obtain ⟨p, -, hpoint⟩ := h3.point
      exact ⟨h2.trans h3.arena, fault_ne_none (hpoint2.symm.trans hpoint)⟩

theorem reserveForOneMore_arena :
    Action.Post Stuck.anyhow reserveForOneMore s (fun _ => ArenaKept s)
      (fun s' => SameArena s.table s'.table ∧ s.heap.fault ≠ none) := by
  unfold reserveForOneMore
  rw [post_getTable]
  split_ifs
  · exact rehashTo_arena _
  · exact rehashTo_arena _
  · exact ⟨SameArena.refl _, rfl⟩

/-- The slots are in order after the call, and so they are when it throws, which it does not
unless an exception is due. -/
def Arranges (s : Store τ) (x : Exec τ β) : Prop :=
  Action.Post Stuck.anyhow x s (fun _ s' => Arranged s'.table [])
    (fun s' => Arranged s'.table [] ∧ s.heap.fault ≠ none)

/-- The second half of an insertion lists the element in hand, or gives it up. -/
theorem attachNode_arranges (h : Arranged s.table [i]) (hmax : s.table.size ≤ maxSize) :
    Arranges s (attachNode i) := by
  have hreserved : Action.Post Stuck.anyhow (do
      reserveForOneMore
      linkIntoIteration i) s
      (fun _ s' => Arranged s'.table [] ∧ faultPoint s'.heap.fault = faultPoint s.heap.fault)
      (fun s' => Arranged s'.table [i] ∧ s.heap.fault ≠ none) := by
    refine Action.Post.bind reserveForOneMore_arena (fun s' h' => ⟨h'.1.arranged h, h'.2⟩) ?_
    rintro ⟨⟩ s1 ⟨h1, hpoint1⟩
    have hsize : s1.table.size ≤ maxSize := by
      unfold Table.size
      rw [h1.iteration]
      exact hmax
    refine (linkIntoIteration_spec i).mono ?_ ?_ fun _ h' => h'
    · rintro ⟨⟩ s2 ⟨f, hf, rfl⟩
      exact ⟨(h1.arranged h).linked hsize, hf.faultPoint_eq.trans hpoint1⟩
    · rintro s2 ⟨hpoint, rfl⟩
      have hin := h1.arranged h
      refine ⟨⟨hin.slots.setAux _, ?_⟩, fault_ne_none (hpoint1.symm.trans hpoint)⟩
      exact hin.filled.congr fun x => by rw [storage_setAux]
  unfold Arranges attachNode
  refine Action.Post.bind (hreserved.cleanup (F := fun s' => Arranged s'.table [] ∧
    s.heap.fault ≠ none) ?_) (fun _ h' => h') ?_
  · rintro s1 ⟨h1, hloud⟩
    refine post_destroyValue (fun e _ => ?_) fun _ => trivial
    exact ⟨h1.drop, hloud⟩
  · rintro ⟨⟩ s1 ⟨h1, hpoint1⟩
    refine post_keyAt (fun e _ => ?_) fun _ => trivial
    refine post_callMixedHash (fun f hf => ?_) fun hpoint _ =>
      ⟨h1, fault_ne_none (hpoint1.symm.trans hpoint)⟩
    exact (insertKnownAbsent_frame [] i _).mono (fun _ s' h' => h'.arena.arranged h1)
      (fun _ h' => h'.elim) fun _ h' => h'

theorem buildNode_arranges (v : τ.Value) (h : Arranged s.table []) (hmax : s.table.size ≤ maxSize) :
    Action.Post Stuck.anyhow (buildNode v) s (Built s v)
      (fun s' => Arranged s'.table [] ∧ s.heap.fault ≠ none) := by
  refine (buildNode_spec v h.slots hmax).mono (fun _ _ h' => h') ?_ fun _ h' => h'
  rintro s' ⟨hrestored, p, -, hpoint⟩
  exact ⟨hrestored.arranged h, fault_ne_none hpoint⟩

/-- The element is built in a slot of its own and listed. -/
theorem insertAbsent_arranges {f : ℕ → Exec τ β} (v : τ.Value) (h : Arranged s.table [])
    (hmax : s.table.size ≤ maxSize)
    (hf : ∀ i s', Arranged s'.table [] → Action.Post Stuck.anyhow (f i) s'
      (fun _ s'' => Arranged s''.table []) (fun _ => False)) :
    Arranges s (buildNode v >>= fun i => attachNode i >>= fun _ => f i) := by
  refine Action.Post.bind (buildNode_arranges v h hmax) (fun _ h' => h') fun i s1 hb => ?_
  have hsize : s1.table.size ≤ maxSize := by
    unfold Table.size
    rw [hb.iteration]
    exact hmax
  refine Action.Post.bind (attachNode_arranges (hb.arranged h) hsize) ?_ fun _ s2 h2 =>
    (hf i s2 h2).mono (fun _ _ h' => h') (fun _ h' => h'.elim) fun _ h' => h'
  rintro s2 ⟨h2, hloud⟩
  exact ⟨h2, fun hquiet => hloud (Through.none (hquiet ▸ hb.fault))⟩

/-- A hash and a lookup come first. -/
theorem locate_arranges {f : ℕ → Exec τ β} (h : Arranged s.table [])
    (hf : ∀ existing s', s'.table = s.table → Arranges s' (f existing)) :
    Arranges s (callMixedHash key >>= fun hash => findBucket key hash >>= f) := by
  refine locate_frame (fun s' hthrow => ?_) fun existing s1 h1 => ?_
  · obtain ⟨p, -, hpoint⟩ := hthrow.point
    exact ⟨by rw [hthrow.table]; exact h, fault_ne_none hpoint⟩
  · refine Action.Post.mono (hf existing s1 h1.table) (fun _ _ h' => h') ?_ fun _ h' => h'
    rintro s' ⟨h', hloud⟩
    exact ⟨h', fun hquiet => hloud (Through.none (hquiet ▸ h1.fault))⟩

/-- A lookup between the construction and the entry of an element must not throw. -/
theorem emplaceImpl_arranges (v : τ.Value) (h : Arranged s.table [])
    (hmax : s.table.size ≤ maxSize) (hcalls : CallsReturn s.heap.fault) :
    Arranges s (emplaceImpl v) := by
  refine Action.Post.bind (buildNode_arranges v h hmax) (fun _ h' => h') fun i s1 hb => ?_
  have h1 := hb.arranged h
  refine post_keyAt (fun e _ => locate_frame (fun s2 h2 => ?_) fun existing s2 h2 => ?_)
    fun _ => trivial
  · obtain ⟨p, hp, hpoint⟩ := h2.point
    rw [hb.fault.point] at hpoint
    simp only [List.mem_cons, List.not_mem_nil, or_false] at hp
    rcases hp with rfl | rfl
    · exact absurd hpoint hcalls.1
    · exact absurd hpoint hcalls.2
  rw [← h2.table] at h1
  rw [post_getTable]
  split_ifs
  · refine post_bucketAt (fun array _ _ => ?_) fun _ => trivial
    refine post_destroyValue (fun e _ => ?_) fun _ => trivial
    exact h1.drop
  · have hsize : s2.table.size ≤ maxSize := by
      unfold Table.size
      rw [h2.table, hb.iteration]
      exact hmax
    refine Action.Post.bind (attachNode_arranges h1 hsize) ?_ fun _ s3 h3 => h3
    rintro s3 ⟨h3, hloud⟩
    exact ⟨h3, fun hquiet =>
      hloud (Through.none (Through.none (hquiet ▸ hb.fault) ▸ h2.fault))⟩

theorem tryEmplaceImpl_arranges (key : τ.Key) (mapped : τ.Mapped) (h : Arranged s.table [])
    (hmax : s.table.size ≤ maxSize) : Arranges s (tryEmplaceImpl key mapped) := by
  refine locate_arranges h fun existing s1 htable => ?_
  rw [← htable] at h hmax
  unfold Arranges
  rw [post_getTable]
  split_ifs
  · exact post_bucketAt (fun array _ _ => h) fun _ => trivial
  · exact insertAbsent_arranges _ h hmax fun i s2 h2 => h2

theorem insertOrAssignImpl_arranges (key : τ.Key) (mapped : τ.Mapped) (h : Arranged s.table [])
    (hmax : s.table.size ≤ maxSize) : Arranges s (insertOrAssignImpl key mapped) := by
  refine locate_arranges h fun existing s1 htable => ?_
  rw [← htable] at h hmax
  unfold Arranges
  rw [post_getTable]
  split_ifs
  · refine post_bucketAt (fun array _ _ => ?_) fun _ => trivial
    refine post_assignValue (fun e he => ?_) fun _ => trivial
    exact h.assign he _
  · exact tryEmplaceImpl_arranges key mapped h hmax

theorem insertNode_arranges (handle : Handle τ) (h : Arranged s.table [])
    (hmax : s.table.size ≤ maxSize) : Arranges s (insertNode handle) := by
  unfold insertNode
  cases handle.value with
  | none => exact h
  | some cell =>
      refine locate_arranges h fun existing s1 htable => ?_
      rw [← htable] at h hmax
      unfold Arranges
      rw [post_getTable]
      split_ifs
      · exact post_bucketAt (fun array _ _ => h) fun _ => trivial
      · exact insertAbsent_arranges _ h hmax fun i s2 h2 => h2

/-- Every insertion keeps the slots in order, whatever the buckets are. -/
theorem Insertion.exec_arranges (x : Insertion τ) (h : Arranged s.table [])
    (hmax : s.table.size ≤ maxSize) (hcalls : CallsReturn s.heap.fault) :
    Arranges s x.exec := by
  cases x with
  | emplace value =>
      exact Action.Post.bind (emplaceImpl_arranges value h hmax hcalls) (fun _ h' => h')
        fun _ _ h' => h'
  | tryEmplace key mapped =>
      exact Action.Post.bind (tryEmplaceImpl_arranges key mapped h hmax) (fun _ h' => h')
        fun _ _ h' => h'
  | insertOrAssign key mapped =>
      exact Action.Post.bind (insertOrAssignImpl_arranges key mapped h hmax) (fun _ h' => h')
        fun _ _ h' => h'
  | node handle =>
      exact Action.Post.bind (insertNode_arranges handle h hmax) (fun _ h' => h')
        fun _ _ h' => h'

/-! ## Insertions that add nothing -/

/-- The constructor throws, and no element has been listed. -/
theorem buildNode_fails (v : τ.Value) (h : Arranged s.table []) (hmax : s.table.size ≤ maxSize)
    (hfault : s.heap.fault = some (.construct, 0)) :
    Action.Post Stuck.anyhow (buildNode v) s (fun _ _ => False)
      (fun s' => s'.table.iteration = s.table.iteration) := by
  unfold buildNode
  refine Action.Post.bind (acquireNode_spec h.slots hmax) (fun s' h' => by rw [h'.1])
    fun i s1 h1 => ?_
  have hfault1 : s1.heap.fault = some (.construct, 0) := by
    rw [← hfault]
    apply h1.fault.same
    simp [hfault, faultPoint]
  refine Action.Post.bind (Action.Post.cleanup (F := fun s' => s'.table.iteration =
    s.table.iteration) (constructValue_spec i v) ?_) (fun _ h' => h') ?_
  · rintro s2 ⟨-, rfl⟩
    exact h1.iteration
  · rintro ⟨⟩ s2 ⟨f, hf, -⟩
    rw [hfault1] at hf
    rcases hf with ⟨-, hne⟩ | ⟨n, heq, -⟩
    · exact hne rfl
    · cases heq

/-- A lookup does not use up the exception that the constructor is due. -/
theorem locate_fails {f : ℕ → Exec τ β} {Q : β → Store τ → Prop}
    (hfault : s.heap.fault = some (.construct, 0))
    (hf : ∀ existing s', s'.table = s.table → s'.heap.fault = some (.construct, 0) →
      Action.Post Stuck.anyhow (f existing) s' Q
        (fun s'' => s''.table.iteration = s'.table.iteration)) :
    Action.Post Stuck.anyhow (callMixedHash key >>= fun hash => findBucket key hash >>= f) s Q
      (fun s' => s'.table.iteration = s.table.iteration) := by
  refine locate_frame (fun s' hthrow => by rw [hthrow.table]) fun existing s1 h1 => ?_
  have hfault1 : s1.heap.fault = some (.construct, 0) := by
    rw [← hfault]
    apply h1.fault.same
    simp [hfault, faultPoint]
  rw [← h1.table]
  exact hf existing s1 h1.table hfault1

theorem emplaceImpl_fails (v : τ.Value) (h : Arranged s.table []) (hmax : s.table.size ≤ maxSize)
    (hfault : s.heap.fault = some (.construct, 0)) :
    Action.Post Stuck.anyhow (emplaceImpl v) s (fun r _ => r.2 = false)
      (fun s' => s'.table.iteration = s.table.iteration) :=
  Action.Post.bind (buildNode_fails v h hmax hfault) (fun _ h' => h') fun _ _ h' => h'.elim

theorem tryEmplaceImpl_fails (key : τ.Key) (mapped : τ.Mapped) (h : Arranged s.table [])
    (hmax : s.table.size ≤ maxSize) (hfault : s.heap.fault = some (.construct, 0)) :
    Action.Post Stuck.anyhow (tryEmplaceImpl key mapped) s (fun r _ => r.2 = false)
      (fun s' => s'.table.iteration = s.table.iteration) := by
  refine locate_fails hfault fun existing s1 htable hfault1 => ?_
  rw [← htable] at h hmax
  rw [post_getTable]
  split_ifs
  · exact post_bucketAt (fun array _ _ => rfl) fun _ => trivial
  · exact Action.Post.bind (buildNode_fails _ h hmax hfault1) (fun _ h' => h')
      fun _ _ h' => h'.elim

theorem insertOrAssignImpl_fails (key : τ.Key) (mapped : τ.Mapped) (h : Arranged s.table [])
    (hmax : s.table.size ≤ maxSize) (hfault : s.heap.fault = some (.construct, 0)) :
    Action.Post Stuck.anyhow (insertOrAssignImpl key mapped) s (fun r _ => r.2 = false)
      (fun s' => s'.table.iteration = s.table.iteration) := by
  refine locate_fails hfault fun existing s1 htable hfault1 => ?_
  rw [← htable] at h hmax
  rw [post_getTable]
  split_ifs
  · refine post_bucketAt (fun array _ _ => ?_) fun _ => trivial
    exact post_assignValue (fun e _ => rfl) fun _ => trivial
  · exact tryEmplaceImpl_fails key mapped h hmax hfault1

theorem insertNode_fails (handle : Handle τ) (h : Arranged s.table [])
    (hmax : s.table.size ≤ maxSize) (hfault : s.heap.fault = some (.construct, 0)) :
    Action.Post Stuck.anyhow (insertNode handle) s (fun r _ => r.1.inserted = false)
      (fun s' => s'.table.iteration = s.table.iteration) := by
  unfold insertNode
  cases handle.value with
  | none => rfl
  | some cell =>
      refine locate_fails hfault fun existing s1 htable hfault1 => ?_
      rw [← htable] at h hmax
      rw [post_getTable]
      split_ifs
      · exact post_bucketAt (fun array _ _ => rfl) fun _ => trivial
      · exact Action.Post.bind (buildNode_fails _ h hmax hfault1) (fun _ h' => h')
          fun _ _ h' => h'.elim

/-- An insertion whose constructor throws adds nothing. -/
theorem Insertion.exec_fails (x : Insertion τ) (h : Arranged s.table [])
    (hmax : s.table.size ≤ maxSize) (hfault : s.heap.fault = some (.construct, 0)) :
    Action.Post Stuck.anyhow x.exec s (fun added _ => added = false)
      (fun s' => s'.table.iteration = s.table.iteration) := by
  cases x with
  | emplace value =>
      exact Action.Post.bind (emplaceImpl_fails value h hmax hfault) (fun _ h' => h')
        fun _ _ h' => h'
  | tryEmplace key mapped =>
      exact Action.Post.bind (tryEmplaceImpl_fails key mapped h hmax hfault) (fun _ h' => h')
        fun _ _ h' => h'
  | insertOrAssign key mapped =>
      exact Action.Post.bind (insertOrAssignImpl_fails key mapped h hmax hfault) (fun _ h' => h')
        fun _ _ h' => h'
  | node handle =>
      exact Action.Post.bind (insertNode_fails handle h hmax hfault) (fun _ h' => h')
        fun _ _ h' => h'

/-! ## Lookups after a slot has been taken -/

/-- Whatever a lookup can see in `s` it sees in `s'` too, and no exception is due. -/
structure Shows (s s' : Store τ) : Prop where
  quiet : s.heap.fault = none
  quiet' : s'.heap.fault = none
  index : SameIndex s.table s'.table
  policy : SamePolicy s.table s'.table
  storage : ∀ x e, (s.table.nodeAt x).storage = some e → (s'.table.nodeAt x).storage = some e

/-- Nothing has been listed that was not in `s`. -/
theorem Built.shows {heap : Heap} (h : Built s v i s') (ha : Arranged s.table [])
    (hquiet : s.heap.fault = none) (hheap : heap.fault = none) :
    Shows (⟨s.table, heap⟩ : Store τ) s' where
  quiet := hheap
  quiet' := Through.none (hquiet ▸ h.fault)
  index := h.index
  policy := h.policy
  storage := by
    intro x e he
    have hne : x ≠ i := by
      rintro rfl
      have hmem := (ha.filled_iteration x).mp (by simp [he])
      rw [← h.iteration] at hmem
      exact h.slots.not_mem hmem
    rwa [h.others x hne]

/-- A round of a lookup that returns in `s` returns the same in `s'`. -/
theorem Shows.round (h : Shows s s') (key : τ.Key) (word index : ℕ) :
    Action.Post Stuck.anyhow (findBucketRound key word index) s
      (fun r s1 => s1 = s ∧ (findBucketRound key word index).run s' = (.ok r, s'))
      (fun _ => False) := by
  unfold findBucketRound
  rw [post_getTable, run_getTable]
  refine post_bucketAt (fun array harray hlt => ?_) fun _ => trivial
  have harray' : s'.table.buckets = some array := h.index.buckets.trans harray
  rw [Action.run_bind_ok _ (run_bucketAt harray' hlt)]
  split_ifs with heq hgt
  · refine post_keyAt (fun e he => ?_) fun _ => trivial
    refine post_callKeyEqual (fun f hf => ?_) fun hpoint _ => fault_ne_none hpoint h.quiet
    have hstill : f = s.heap.fault := hf.eq_of_ne (by simp [h.quiet, faultPoint])
    rw [Action.run_bind_ok _ (run_keyAt (h.storage _ _ he)),
      Action.run_bind_ok _ (run_callKeyEqual h.quiet' _ _), h.policy.keyEqual, hstill,
      withFault_self]
    split_ifs
    · exact ⟨rfl, rfl⟩
    · exact ⟨rfl, rfl⟩
  · rw [h.index.bucketCount]
    exact ⟨rfl, rfl⟩
  · exact ⟨rfl, rfl⟩

theorem Shows.findBucketLoop (h : Shows s s') (key : τ.Key) {b : ℕ} (fuel : ℕ) :
    ∀ word index s1, (findBucketLoop key fuel word index).run s = (.ok b, s1) →
      (Model.findBucketLoop key fuel word index).run s' = (.ok b, s') := by
  induction fuel with
  | zero =>
      intro word index s1 hrun
      cases hrun
  | succ fuel ih =>
      intro word index s1 hrun
      have hround := h.round key word index
      rw [findBucketLoop_succ] at hrun ⊢
      rcases hs : (findBucketRound key word index).run s with ⟨(_ | c) | _ | _ | _, s2⟩
      all_goals rw [hs] at hrun
      · obtain ⟨rfl, hs'⟩ := hround.ok_of_run hs
        rw [hs', h.index.bucketCount]
        exact ih _ _ _ hrun
      · obtain ⟨rfl, hs'⟩ := hround.ok_of_run hs
        rw [hs']
        cases hrun
        rfl
      all_goals cases hrun

/-- The key is in the table, for all that `contains` says. -/
def ContainsKey (t : Table τ) (key : τ.Key) : Prop :=
  ((contains key).run ⟨t, Heap.empty⟩).1 = .ok true

instance (t : Table τ) (key : τ.Key) : Decidable (ContainsKey t key) :=
  inferInstanceAs (Decidable (_ = _))

theorem Shows.findBucket (h : Shows s s') {hash : UInt64} {b : ℕ} {s1 : Store τ}
    (hrun : (Model.findBucket key hash).run s = (.ok b, s1)) :
    (Model.findBucket key hash).run s' = (.ok b, s') := by
  unfold Model.findBucket at hrun ⊢
  rw [run_getTable] at hrun ⊢
  rw [h.index.bucketCount]
  by_cases hzero : s.table.bucketCount = 0
  · rw [if_pos hzero] at hrun ⊢
    cases hrun
    rfl
  · rw [if_neg hzero] at hrun ⊢
    have hhome : s'.table.homeFromHash hash = s.table.homeFromHash hash := by
      unfold Table.homeFromHash
      rw [h.index.bucketShift]
    rw [hhome]
    exact h.findBucketLoop key _ _ _ _ hrun

/-- `contains` has found a bucket. -/
theorem ContainsKey.run_findBucket (h : ContainsKey t key) :
    ∃ b s', b ≠ t.bucketCount ∧
      (findBucket key (t.mixedHash key)).run ⟨t, Heap.empty⟩ = (.ok b, s') := by
  unfold ContainsKey contains at h
  rw [Action.run_bind_ok _ (run_callMixedHash (s := (⟨t, Heap.empty⟩ : Store τ)) rfl key),
    Action.run_bind] at h
  rcases hrun : (findBucket key (t.mixedHash key)).run ⟨t, Heap.empty⟩ with ⟨b | _ | _ | _, s'⟩
  all_goals rw [hrun] at h
  · have hframe := (findBucket_frame (s := (⟨t, Heap.empty⟩ : Store τ)) key _).ok_of_run hrun
    have htable : s'.table = t := hframe.table
    have hne : (b != s'.table.bucketCount) = true := by
      have hresult : (Result.ok (b != s'.table.bucketCount) : Result Bool) = .ok true := h
      exact Result.ok.inj hresult
    rw [htable] at hne
    exact ⟨b, s', by simpa using hne, rfl⟩
  all_goals cases h

/-- A hash and a lookup of a key that the table contains, then the rest. -/
theorem post_found {f : ℕ → Exec τ β} {U : Stuck → Prop} {Q : β → Store τ → Prop}
    {E : Store τ → Prop} (h : Shows (⟨t, Heap.empty⟩ : Store τ) s) (hkey : ContainsKey t key)
    (hf : ∀ b, b ≠ s.table.bucketCount → Action.Post U (f b) s Q E) :
    Action.Post U (callMixedHash key >>= fun hash => findBucket key hash >>= f) s Q E := by
  obtain ⟨b, s1, hne, hrun⟩ := hkey.run_findBucket
  refine Action.Post.bind (Q := fun hash s' => hash = t.mixedHash key ∧ s' = s)
    (E := fun _ => False)
    (Action.Post.of_run_ok (run_callMixedHash h.quiet' key) ⟨h.policy.mixedHash key, rfl⟩)
    (fun _ h' => h'.elim) ?_
  intro hash s' hhash
  rw [hhash.1, hhash.2]
  refine Action.Post.bind (Q := fun a s' => a = b ∧ s' = s) (E := fun _ => False)
    (Action.Post.of_run_ok (h.findBucket hrun) ⟨rfl, rfl⟩) (fun _ h' => h'.elim) ?_
  intro a s' ha
  rw [ha.1, ha.2]
  apply hf
  rwa [h.index.bucketCount]

/-! ## Insertions of a key that is there -/

/-- The key of the element to insert; an empty node handle has none. -/
def Insertion.key? : Insertion τ → Option τ.Key
  | .emplace value => some (τ.keyOf value)
  | .tryEmplace key _ => some key
  | .insertOrAssign key _ => some key
  | .node handle => handle.value.map fun cell => τ.keyOf cell.element.value

/-- There is nothing to add: the key is in the table, or there is no element. -/
def Insertion.Redundant (t : Table τ) (x : Insertion τ) : Prop :=
  match x.key? with
  | some key => ContainsKey t key
  | none => True

instance (t : Table τ) (x : Insertion τ) : Decidable (x.Redundant t) := by
  unfold Insertion.Redundant
  cases x.key? with
  | some key => exact inferInstanceAs (Decidable (ContainsKey t key))
  | none => exact isTrue trivial

theorem emplaceImpl_redundant (v : τ.Value) (h : Arranged s.table [])
    (hmax : s.table.size ≤ maxSize) (hquiet : s.heap.fault = none)
    (hkey : ContainsKey s.table (τ.keyOf v)) :
    Action.Post Stuck.anyhow (emplaceImpl v) s (fun r _ => r.2 = false) (fun _ => True) := by
  refine Action.Post.bind (buildNode_arranges v h hmax) (fun _ _ => trivial) fun i s1 hb => ?_
  have hshows : Shows (⟨s.table, Heap.empty⟩ : Store τ) s1 := hb.shows h hquiet rfl
  obtain ⟨serial, hel⟩ := hb.element
  refine post_keyAt (fun e he => ?_) fun _ => trivial
  rw [hel] at he
  cases he
  refine post_found hshows hkey fun b hne => ?_
  rw [post_getTable, if_pos hne]
  refine post_bucketAt (fun array _ _ => ?_) fun _ => trivial
  exact post_destroyValue (fun e _ => rfl) fun _ => trivial

/-- The store shows what it shows itself. -/
theorem shows_self (hquiet : s.heap.fault = none) : Shows (⟨s.table, Heap.empty⟩ : Store τ) s :=
  ⟨rfl, hquiet, SameIndex.refl _, SamePolicy.refl _, fun _ _ he => he⟩

theorem tryEmplaceImpl_redundant (mapped : τ.Mapped) (hquiet : s.heap.fault = none)
    (hkey : ContainsKey s.table key) :
    Action.Post Stuck.anyhow (tryEmplaceImpl key mapped) s (fun r _ => r.2 = false)
      (fun _ => True) := by
  refine post_found (shows_self hquiet) hkey fun b hne => ?_
  rw [post_getTable, if_pos hne]
  exact post_bucketAt (fun array _ _ => rfl) fun _ => trivial

theorem insertOrAssignImpl_redundant (mapped : τ.Mapped) (hquiet : s.heap.fault = none)
    (hkey : ContainsKey s.table key) :
    Action.Post Stuck.anyhow (insertOrAssignImpl key mapped) s (fun r _ => r.2 = false)
      (fun _ => True) := by
  refine post_found (shows_self hquiet) hkey fun b hne => ?_
  rw [post_getTable, if_pos hne]
  refine post_bucketAt (fun array _ _ => ?_) fun _ => trivial
  exact post_assignValue (fun e _ => rfl) fun _ => trivial

theorem insertNode_redundant (handle : Handle τ) (hquiet : s.heap.fault = none)
    (hredundant : (Insertion.node handle).Redundant s.table) :
    Action.Post Stuck.anyhow (insertNode handle) s (fun r _ => r.1.inserted = false)
      (fun _ => True) := by
  unfold insertNode
  cases hcell : handle.value with
  | none => rfl
  | some cell =>
      have hkey : ContainsKey s.table (τ.keyOf cell.element.value) := by
        simpa [Insertion.Redundant, Insertion.key?, hcell] using hredundant
      refine post_found (shows_self hquiet) hkey fun b hne => ?_
      rw [post_getTable, if_pos hne]
      exact post_bucketAt (fun array _ _ => rfl) fun _ => trivial

/-- An insertion of a key that the table contains adds nothing. -/
theorem Insertion.exec_redundant (x : Insertion τ) (h : Arranged s.table [])
    (hmax : s.table.size ≤ maxSize) (hquiet : s.heap.fault = none)
    (hredundant : x.Redundant s.table) :
    Action.Post Stuck.anyhow x.exec s (fun added _ => added = false) (fun _ => True) := by
  cases x with
  | emplace value =>
      exact Action.Post.bind (emplaceImpl_redundant value h hmax hquiet hredundant)
        (fun _ h' => h') fun _ _ h' => h'
  | tryEmplace key mapped =>
      exact Action.Post.bind (tryEmplaceImpl_redundant mapped hquiet hredundant)
        (fun _ h' => h') fun _ _ h' => h'
  | insertOrAssign key mapped =>
      exact Action.Post.bind (insertOrAssignImpl_redundant mapped hquiet hredundant)
        (fun _ h' => h') fun _ _ h' => h'
  | node handle =>
      exact Action.Post.bind (insertNode_redundant handle hquiet hredundant) (fun _ h' => h')
        fun _ _ h' => h'

end Fum.Analysis
