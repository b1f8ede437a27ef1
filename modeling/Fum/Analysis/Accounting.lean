import Fum.Analysis.Frames
import Fum.Analysis.Ledger

/-!
# The member functions keep the accounts

Every member function of a table leaves the slots in order and the accounts settled,
whether it returns or throws at an allocation or in a constructor, and whatever the
functors answer. Only two things are asked: the table is not full beyond `max_size`, and
no call of a functor throws in the middle of an insertion.
-/

set_option autoImplicit false

namespace Fum.Analysis

open Fum.Model Effects Conservation

variable {τ : Traits} {s s' : Store τ} {others : Holdings} {pending l : List ℕ} {i : ℕ}

/-! ## The index -/

theorem Reindexes.arrayIds {ps : List Point} (h : Reindexes ps s s') :
    arrayIds s'.table = arrayIds s.table := by
  obtain ⟨cells, hcells⟩ := h.cells
  unfold Analysis.arrayIds
  rw [hcells, Option.map_map]
  rfl

theorem ReindexThrows.arrayIds {ps : List Point} (h : ReindexThrows ps s s') :
    arrayIds s'.table = arrayIds s.table := by
  obtain ⟨cells, hcells⟩ := h.cells
  unfold Analysis.arrayIds
  rw [hcells, Option.map_map]
  rfl

theorem Sound.reindex {ps : List Point} (h : Sound others pending l s)
    (hr : Reindexes ps s s') : Sound others pending l s' :=
  h.sameArena hr.arena hr.arrayIds ⟨_, hr.heap⟩

theorem Sound.passes {ps : List Point} (h : Sound others pending l s) (hp : Passes ps s s') :
    Sound others pending l s' := h.reindex hp.reindexes

theorem Sound.throws {ps : List Point} (h : Sound others pending l s) (ht : Throws ps s s') :
    Sound others pending l s' :=
  h.sameArena (by rw [ht.table]; exact SameArena.refl _) (by rw [ht.table]) ⟨none, ht.heap⟩

theorem deallocateBuckets_sound {U : Stuck → Prop} (h : Sound others pending l s) :
    Action.Post U deallocateBuckets s (fun _ s' => Sound others pending l s' ∧
      s'.table = { s.table with buckets := none } ∧ s'.heap.fault = s.heap.fault)
      (fun _ => False) := by
  unfold deallocateBuckets
  rw [post_getTable]
  cases hb : s.table.buckets with
  | none =>
      have htable : s.table = { s.table with buckets := none } := by rw [← hb]
      exact Action.Post.pure ⟨h, htable, rfl⟩
  | some array =>
      have howns : owns s.table l + others =
          owns { s.table with buckets := none } l + others + .array array.id := by
        have harray : owns s.table l =
            owns { s.table with buckets := none } l + .array array.id := by
          ext1
          · exact (add_zero _).symm
          · exact (add_zero _).symm
          · simp [owns, arrayIds, hb, Holdings.array]
          · exact (add_zero _).symm
        rw [harray, add_right_comm]
      have hbal := h.balanced
      rw [howns] at hbal
      exact ⟨⟨h.slots.congr (fun _ => rfl) rfl rfl rfl le_rfl, h.filled, hbal.withoutArray⟩,
        rfl, rfl⟩

theorem allocateBuckets_sound {U : Stuck → Prop} (n : ℕ) (h : Sound others pending l s)
    (hnone : s.table.buckets = none) :
    Action.Post U (allocateBuckets n) s (fun _ s' => Sound others pending l s' ∧
      SameArena s.table s'.table ∧ SamePolicy s.table s'.table ∧
      Through [.bucketArray] s.heap.fault s'.heap.fault)
      (fun s' => s' = ⟨s.table, withFault s.heap none⟩ ∧
        faultPoint s.heap.fault = some .bucketArray) := by
  unfold allocateBuckets
  refine post_mayThrow_bind (fun f hf => ?_) fun hpoint _ => ⟨rfl, hpoint⟩
  rw [post_freshId, post_modifyHeap, post_modifyTable_last]
  have harena : SameArena s.table (s.table.withBuckets
      ⟨s.heap.nextId, s.table.allocator, n, emptyCells⟩ n) := ⟨rfl, rfl, rfl, rfl⟩
  refine ⟨⟨harena.slots h.slots, harena.filled h.filled, ?_⟩, harena, ⟨rfl, rfl, rfl, rfl⟩,
    hf.through (by simp)⟩
  have howns : owns (s.table.withBuckets ⟨s.heap.nextId, s.table.allocator, n, emptyCells⟩ n) l
      = owns s.table l + .array s.heap.nextId := by
    ext1
    · exact (add_zero _).symm
    · exact (add_zero _).symm
    · simp [owns, arrayIds, hnone, Holdings.array, Table.withBuckets]
    · exact (add_zero _).symm
  have hbal : Balanced (withArray (withFault s.heap f))
      (owns s.table l + others + .array s.heap.nextId) := (h.balanced.withFault f).withArray
  rw [add_right_comm, ← howns] at hbal
  exact hbal

/-- What a rebuild of the index leaves alone. -/
structure Rebuilt (s s' : Store τ) : Prop where
  arena : SameArena s.table s'.table
  policy : SamePolicy s.table s'.table
  fault : Through [.bucketArray, .hash] s.heap.fault s'.heap.fault

/-- How a rebuild of the index throws: without a bucket array, or in the hasher. -/
structure RebuildThrown (s s' : Store τ) : Prop where
  arena : SameArena s.table s'.table
  buckets : faultPoint s.heap.fault ≠ some .hash → s'.table.buckets = none

theorem rehashTo_sound (n : ℕ) (h : Sound others pending l s) :
    Action.Post Stuck.anyhow (rehashTo n) s
      (fun _ s' => Sound others pending l s' ∧ Rebuilt s s')
      (fun s' => Sound others pending l s' ∧ RebuildThrown s s') := by
  unfold rehashTo
  rw [post_getTable, post_modifyHeap]
  have h0 : Sound others pending l
      ⟨s.table, { s.heap with rehashes := s.heap.rehashes ++ [(n, s.table.size)] }⟩ :=
    ⟨h.slots, h.filled, h.balanced.withRehash _⟩
  refine Action.Post.bind (deallocateBuckets_sound h0) (fun _ h => h.elim) ?_
  rintro - s1 ⟨h1, htable, hfault⟩
  have harena1 : SameArena s.table s1.table := by
    rw [htable]
    exact ⟨rfl, rfl, rfl, rfl⟩
  have hpolicy1 : SamePolicy s.table s1.table := by
    rw [htable]
    exact ⟨rfl, rfl, rfl, rfl⟩
  refine Action.Post.bind (allocateBuckets_sound n h1 (by rw [htable])) ?_ ?_
  · rintro s' ⟨rfl, -⟩
    exact ⟨⟨h1.slots, h1.filled, h1.balanced.withFault none⟩, harena1, fun _ => by
      show s1.table.buckets = none
      rw [htable]⟩
  · rintro - s2 ⟨h2, harena2, hpolicy2, hfault2⟩
    refine (replaceAll_frame s.table.iteration).mono ?_ ?_ fun _ h => h
    · intro _ s3 h3
      have hthrough : Through [.bucketArray, .hash] s.heap.fault s2.heap.fault := by
        rw [← hfault]
        exact hfault2.mono (by simp)
      exact ⟨h2.reindex h3, (harena1.trans harena2).trans h3.arena,
        (hpolicy1.trans hpolicy2).trans h3.policy,
        hthrough.trans (h3.fault.mono (by simp))⟩
    · intro s3 h3
      refine ⟨h2.sameArena h3.arena h3.arrayIds ⟨none, h3.heap⟩,
        (harena1.trans harena2).trans h3.arena, fun hne => absurd ?_ hne⟩
      obtain ⟨p, hp, hpoint⟩ := h3.point
      rw [List.mem_singleton.mp hp, hfault2.point] at hpoint
      rw [← hpoint, hfault]

theorem Rebuilt.refl (s : Store τ) : Rebuilt s s :=
  ⟨SameArena.refl _, SamePolicy.refl _, Through.refl _ _⟩

theorem reserveForOneMore_sound (h : Sound others pending l s) :
    Action.Post Stuck.anyhow reserveForOneMore s
      (fun _ s' => Sound others pending l s' ∧ Rebuilt s s')
      (fun s' => Sound others pending l s' ∧ RebuildThrown s s') := by
  unfold reserveForOneMore
  rw [post_getTable]
  split
  · exact rehashTo_sound _ h
  · split
    · exact rehashTo_sound _ h
    · exact ⟨h, Rebuilt.refl s⟩

/-! ## Insertion -/

/-- The call keeps the accounts, and the fault stays where it is. -/
def Accounts (others : Holdings) (s s' : Store τ) : Prop :=
  SoundTable others s' ∧ faultPoint s'.heap.fault = faultPoint s.heap.fault

/-- Dropping the element of a slot in hand, and the slot. -/
theorem Sound.drop {e : Element τ} (h : Sound others [i] (s.table.iteration ++ [i]) s)
    (he : (s.table.nodeAt i).storage = some e) :
    SoundTable others ⟨(s.table.setStorage i none).release i, withoutElement s.heap e⟩ where
  slots := (h.slots.setStorage i none).release
  filled := h.slots.filled_dropped h.filled
  balanced := by
    have hbal := h.balanced
    rw [owns_append_singleton he, add_right_comm] at hbal
    have howns : owns ((s.table.setStorage i none).release i) s.table.iteration =
        owns s.table s.table.iteration := by
      refine owns_congr (fun j hj => ?_) ?_ rfl
      · have hne : j ≠ i := by
          rintro rfl
          exact h.slots.not_mem hj
        rw [storage_release, storage_setStorage_of_ne hne]
      · exact (chunkIds_setNode _ _ _).trans (chunkIds_setNode _ _ _)
    have hdone := hbal.withoutElement
    rw [← howns] at hdone
    exact hdone

/-- The account of `acquire_node`: a slot is in hand, and a chunk that was allocated for it
belongs to the table. -/
theorem acquireNode_sound (h : SoundTable others s) (hmax : s.table.size ≤ maxSize) :
    Action.Post Stuck.anyhow acquireNode s
      (fun i s' => Sound others [i] s'.table.iteration s' ∧
        s'.table.iteration = s.table.iteration ∧
        faultPoint s'.heap.fault = faultPoint s.heap.fault)
      (SoundThrown others (faultPoint s.heap.fault)) := by
  refine (acquireNode_spec h.slots hmax).mono (fun i s1 h1 => ?_) ?_ fun _ h' => h'
  · have hstorage : ∀ j, (s1.table.nodeAt j).storage = (s.table.nodeAt j).storage :=
      fun j => by rw [h1.node]
    refine ⟨⟨h1.slots, ?_, ?_⟩, h1.iteration, h1.fault.point⟩
    · rw [h1.iteration]
      exact h.filled.congr fun j => congrArg Option.isSome (hstorage j)
    · rw [h1.iteration]
      rcases h1.heap with ⟨hheap, hids⟩ | ⟨hheap, hids⟩
      · rw [hheap, owns_congr (t := s.table) (fun j _ => hstorage j) hids h1.index.arrayIds]
        exact h.balanced.withFault _
      · rw [hheap, owns_append_chunk (t := s.table) (fun j _ => hstorage j) hids
          h1.index.arrayIds, add_right_comm]
        exact h.balanced.withChunk.withFault _
  · -- at the allocation of the chunk nothing is lost, at the growth of `chunks_` the chunk
    rintro s' ⟨htable, ⟨-, hheap⟩ | ⟨hpoint, hheap⟩⟩
    · have h' : Sound others [] s.table.iteration s' :=
        Sound.sameArena h (by rw [htable]; exact SameArena.refl _) (by rw [htable])
          ⟨none, hheap⟩
      rw [← htable] at h'
      exact SoundTable.thrown h' _
    · refine ⟨.chunk s.heap.nextId, ⟨?_, ?_, ?_⟩, Or.inr ⟨hpoint, _, rfl⟩⟩
      · rw [htable]
        exact h.slots
      · rw [htable]
        exact h.filled
      · rw [htable, hheap, ← add_assoc]
        exact h.balanced.withChunk.withFault none

/-- The element that is constructed in the slot in hand. -/
theorem Sound.construct (h : Sound others [i] s.table.iteration s) (v : τ.Value)
    (fault : Option (Point × ℕ)) :
    Sound others [i] (s.table.iteration ++ [i])
      ⟨s.table.setStorage i (some ⟨s.heap.nextId, v⟩), withFault (withElement s.heap) fault⟩ := by
  have hin : i < s.table.arenaSize := h.slots.lt_arenaSize (Or.inr (by simp))
  have hself := storage_setStorage_self (t := s.table) hin (some ⟨s.heap.nextId, v⟩)
  refine ⟨h.slots.setStorage i _, h.filled.occupy ?_ fun j hj => storage_setStorage_of_ne hj _, ?_⟩
  · rw [hself]
    rfl
  · have howns : owns (s.table.setStorage i (some ⟨s.heap.nextId, v⟩)) s.table.iteration =
        owns s.table s.table.iteration := by
      refine owns_congr (fun j hj => storage_setStorage_of_ne ?_ _) (chunkIds_setNode _ _ _) rfl
      rintro rfl
      exact h.slots.not_mem hj
    rw [owns_append_singleton hself, howns, add_right_comm]
    exact h.balanced.withElement.withFault fault

theorem buildNode_sound (v : τ.Value) (h : SoundTable others s)
    (hmax : s.table.size ≤ maxSize) :
    Action.Post Stuck.anyhow (buildNode v) s
      (fun i s' => Sound others [i] (s'.table.iteration ++ [i]) s' ∧
        s'.table.iteration = s.table.iteration ∧
        faultPoint s'.heap.fault = faultPoint s.heap.fault)
      (SoundThrown others (faultPoint s.heap.fault)) := by
  unfold buildNode
  refine Action.Post.bind (acquireNode_sound h hmax) (fun _ h' => h') ?_
  rintro i s1 ⟨h1, hiter, hpoint⟩
  refine Action.Post.bind (Action.Post.cleanup (constructValue_spec i v) ?_) (fun _ h' => h') ?_
  · rintro s' ⟨-, rfl⟩
    exact SoundTable.thrown (h1.sameStorage h1.slots.release (fun j => storage_release _ _ j)
      (chunkIds_setNode _ _ _) rfl none) _
  · rintro _ _ ⟨f, hf, rfl⟩
    exact ⟨h1.construct v f, hiter, hf.faultPoint_eq.trans hpoint⟩

/-- The second half of an insertion: a slot in hand with its element is linked, or both are
given back. -/
theorem attachNode_sound (h : Sound others [i] (s.table.iteration ++ [i]) s)
    (hmax : s.table.size ≤ maxSize) (hcalls : CallsReturn s.heap.fault) :
    Action.Post Stuck.anyhow (attachNode i) s
      (fun _ s' => Accounts others s s' ∧ s'.table.iteration = s.table.iteration ++ [i])
      (SoundTable others) := by
  unfold attachNode
  refine Action.Post.bind (Q := fun _ s' => Accounts others s s' ∧
      s'.table.iteration = s.table.iteration ++ [i]) (E := SoundTable others)
    (Action.Post.cleanup (E := fun s' => Sound others [i] (s'.table.iteration ++ [i]) s')
      (Action.Post.bind (reserveForOneMore_sound h) ?_ ?_) ?_) (fun _ h => h) ?_
  · rintro s' ⟨h', hr⟩
    rwa [hr.arena.iteration]
  · rintro - s1 ⟨h1, hr⟩
    rw [← hr.arena.iteration] at h1
    refine (linkIntoIteration_spec i).mono ?_ ?_ fun _ h => h
    · rintro _ _ ⟨f, hf, rfl⟩
      have hmax1 : s1.table.size ≤ maxSize := by
        unfold Table.size
        rw [hr.arena.iteration]
        exact hmax
      have hiter : (linked s1.table i).iteration = s1.table.iteration ++ [i] := rfl
      refine ⟨⟨?_, hf.faultPoint_eq.trans hr.fault.point⟩, ?_⟩
      · exact h1.sameStorage (h1.slots.linked hmax1) (fun j => storage_linked _ _ j)
          (chunkIds_linked _ _) rfl f
      · rw [← hr.arena.iteration]
        exact hiter
    · rintro s' ⟨-, rfl⟩
      exact h1.sameStorage (h1.slots.setAux _) (fun j => storage_setAux _ _ _ j)
        (chunkIds_setNode _ _ _) rfl none
  · -- the handler: the element is destroyed and its slot given back
    intro s' h'
    have hsome : (s'.table.nodeAt i).storage.isSome := (h'.filled i).mpr (by simp)
    refine post_destroyValue (fun e he => ?_) fun _ => trivial
    exact h'.drop he
  · rintro - s1 ⟨⟨h1, hpoint⟩, hiter⟩
    refine post_keyAt (fun e _ => ?_) fun _ => trivial
    refine post_callMixedHash (fun f hf => ?_) fun hhash _ => absurd (hpoint ▸ hhash) hcalls.1
    have h2 : SoundTable others ⟨s1.table, withFault s1.heap f⟩ :=
      h1.passes hf.passes_self
    refine (insertKnownAbsent_frame [] i _).mono ?_ (fun _ h => h.elim) fun _ h => h
    intro _ s3 h3
    have h3' := h2.reindex h3
    rw [← h3.arena.iteration] at h3'
    exact ⟨⟨h3', h3.fault.point.trans (hf.faultPoint_eq.trans hpoint)⟩,
      h3.arena.iteration.trans hiter⟩

/-- What an insertion of a single element does to the accounts: they stay settled, and the
table grows by one element at most. -/
def InsertAccounts (others : Holdings) (s s' : Store τ) : Prop :=
  Accounts others s s' ∧ s'.table.size ≤ s.table.size + 1

theorem Passes.calls {ps : List Point} (h : Passes ps s s') (hc : CallsReturn s.heap.fault) :
    CallsReturn s'.heap.fault := hc.of_point h.fault.point

/-- A slot built and attached. -/
theorem insertAbsent_sound (v : τ.Value) (h : SoundTable others s)
    (hmax : s.table.size ≤ maxSize) (hcalls : CallsReturn s.heap.fault) :
    Action.Post Stuck.anyhow (buildNode v >>= fun i => attachNode i >>= fun _ => pure (i, true)) s
      (fun _ => InsertAccounts others s) (SoundThrown others (faultPoint s.heap.fault)) := by
  refine Action.Post.bind (buildNode_sound v h hmax) (fun _ h => h) ?_
  rintro i s1 ⟨h1, hiter, hpoint⟩
  have hsize : s1.table.size = s.table.size := by
    unfold Table.size
    rw [hiter]
  have hcalls1 : CallsReturn s1.heap.fault := hcalls.of_point hpoint
  refine Action.Post.bind (attachNode_sound h1 (hsize ▸ hmax) hcalls1)
    (fun s' h' => h'.thrown _) ?_
  rintro - s2 ⟨⟨h2, hpoint2⟩, hiter2⟩
  refine ⟨⟨h2, hpoint2.trans hpoint⟩, ?_⟩
  rw [← hsize]
  unfold Table.size
  rw [hiter2, List.length_append, List.length_singleton]

theorem emplaceImpl_sound (v : τ.Value) (h : SoundTable others s)
    (hmax : s.table.size ≤ maxSize) (hcalls : CallsReturn s.heap.fault) :
    Action.Post Stuck.anyhow (emplaceImpl v) s (fun _ => InsertAccounts others s)
      (SoundThrown others (faultPoint s.heap.fault)) := by
  unfold emplaceImpl
  refine Action.Post.bind (buildNode_sound v h hmax) (fun _ h => h) ?_
  rintro i s1 ⟨h1, hiter, hpoint⟩
  have hcalls1 : CallsReturn s1.heap.fault := hcalls.of_point hpoint
  have hsize : s1.table.size = s.table.size := by
    unfold Table.size
    rw [hiter]
  refine post_keyAt (fun e _ => ?_) fun _ => trivial
  refine post_callMixedHash (fun f hf => ?_) fun hhash _ => absurd hhash hcalls1.1
  have hpass : Passes [.hash, .equal] s1 ⟨s1.table, withFault s1.heap f⟩ := hf.passes (by simp)
  refine Action.Post.bind (findBucket_frame _ _) ?_ ?_
  · intro s' ht
    obtain ⟨p, hp, heq⟩ := ht.point
    rw [List.mem_singleton.mp hp] at heq
    exact absurd heq (hpass.calls hcalls1).2
  · intro existing s2 h2
    have hpass2 : Passes [.hash, .equal] s1 s2 := hpass.trans (h2.mono (by simp))
    have h2' := h1.passes hpass2
    rw [← hpass2.table] at h2'
    have hpoint2 := hpass2.fault.point
    rw [post_getTable]
    split
    · refine post_bucketAt (fun array _ _ => ?_) fun _ => trivial
      refine post_destroyValue (fun e he => ?_) fun _ => trivial
      have h3 := h2'.drop he
      refine ⟨⟨h3, ?_⟩, ?_⟩
      · exact hpoint2.trans hpoint
      · show s2.table.size ≤ s.table.size + 1
        rw [hpass2.table, hsize]
        omega
    · have hmax2 : s2.table.size ≤ maxSize := by
        rw [hpass2.table, hsize]
        exact hmax
      refine Action.Post.bind (attachNode_sound h2' hmax2 (hpass2.calls hcalls1))
        (fun s' h' => h'.thrown _) ?_
      rintro - s3 ⟨⟨h3, hpoint3⟩, hiter3⟩
      refine ⟨⟨h3, hpoint3.trans (hpoint2.trans hpoint)⟩, ?_⟩
      have hlen : s3.table.size = s2.table.size + 1 := by
        unfold Table.size
        rw [hiter3, List.length_append, List.length_singleton]
      rw [hlen, hpass2.table, hsize]

/-- A hash and a lookup, then the rest. -/
theorem locate_sound {β : Type} {key : τ.Key} {k : ℕ → Exec τ β} {Q : β → Store τ → Prop}
    {E : Store τ → Prop} (h : SoundTable others s) (hE : ∀ s', SoundTable others s' → E s')
    (hk : ∀ existing s', Passes [.hash, .equal] s s' → SoundTable others s' →
      Action.Post Stuck.anyhow (k existing) s' Q E) :
    Action.Post Stuck.anyhow
      (callMixedHash key >>= fun hash => findBucket key hash >>= k) s Q E := by
  refine locate_frame (fun s' ht => ?_) fun existing s' hpass => ?_
  · have h' := h.throws ht
    rw [← ht.table] at h'
    exact hE s' h'
  · have h' := h.passes hpass
    rw [← hpass.table] at h'
    exact hk existing s' hpass h'

theorem tryEmplaceImpl_sound (key : τ.Key) (mapped : τ.Mapped) (h : SoundTable others s)
    (hmax : s.table.size ≤ maxSize) (hcalls : CallsReturn s.heap.fault) :
    Action.Post Stuck.anyhow (tryEmplaceImpl key mapped) s (fun _ => InsertAccounts others s)
      (SoundThrown others (faultPoint s.heap.fault)) := by
  unfold tryEmplaceImpl
  refine locate_sound h (fun s' h' => h'.thrown _) fun existing s1 hpass h1 => ?_
  rw [post_getTable]
  split
  · refine post_bucketAt (fun array _ _ => ?_) fun _ => trivial
    refine ⟨⟨h1, hpass.fault.point⟩, ?_⟩
    rw [hpass.table]
    omega
  · have hmax1 : s1.table.size ≤ maxSize := by rwa [hpass.table]
    have hins := insertAbsent_sound (τ.makeValue key mapped) h1 hmax1 (hpass.calls hcalls)
    rw [hpass.fault.point] at hins
    refine hins.mono (fun _ s' h' => ?_) (fun _ h' => h') fun _ h' => h'
    refine ⟨⟨h'.1.1, h'.1.2.trans hpass.fault.point⟩, ?_⟩
    rw [← hpass.table]
    exact h'.2

/-- An assignment to a stored value keeps the element. -/
theorem Sound.assign {e : Element τ} (h : SoundTable others s)
    (he : (s.table.nodeAt i).storage = some e) (v : τ.Value) :
    SoundTable others ⟨s.table.setStorage i (some { e with value := v }), s.heap⟩ where
  slots := h.slots.setStorage i _
  filled := h.filled.setStorage he _
  balanced := by
    have howns : owns (s.table.setStorage i (some { e with value := v })) s.table.iteration =
        owns s.table s.table.iteration := by
      have hids : elementIds (s.table.setStorage i (some { e with value := v }))
          s.table.iteration = elementIds s.table s.table.iteration := by
        unfold elementIds
        refine List.filterMap_congr fun j _ => ?_
        by_cases hj : j = i
        · subst hj
          have hin := lt_arenaSize_of_isSome (t := s.table) (i := j) (by rw [he]; rfl)
          rw [storage_setStorage_self hin, he]
          rfl
        · rw [storage_setStorage_of_ne hj]
      unfold owns
      rw [hids, show chunkIds (s.table.setStorage i _) = chunkIds s.table from
        chunkIds_setNode _ _ _]
      rfl
    have hbal := h.balanced
    rw [← howns] at hbal
    exact hbal

theorem assignValue_sound (i : ℕ) (g : τ.Value → τ.Value) (h : SoundTable others s) :
    Action.Post Stuck.anyhow (assignValue i g) s
      (fun _ s' => Accounts others s s' ∧ s'.table.iteration = s.table.iteration)
      (fun _ => False) := by
  unfold assignValue
  refine post_elementAt (fun e he => ?_) fun _ => trivial
  exact ⟨⟨h.assign he _, rfl⟩, rfl⟩

theorem insertOrAssignImpl_sound (key : τ.Key) (mapped : τ.Mapped) (h : SoundTable others s)
    (hmax : s.table.size ≤ maxSize) (hcalls : CallsReturn s.heap.fault) :
    Action.Post Stuck.anyhow (insertOrAssignImpl key mapped) s
      (fun _ => InsertAccounts others s) (SoundThrown others (faultPoint s.heap.fault)) := by
  unfold insertOrAssignImpl
  refine locate_sound h (fun s' h' => h'.thrown _) fun existing s1 hpass h1 => ?_
  rw [post_getTable]
  split
  · refine post_bucketAt (fun array _ _ => ?_) fun _ => trivial
    refine Action.Post.bind (assignValue_sound _ _ h1) (fun _ h => h.elim) ?_
    rintro - s2 ⟨⟨h2, hpoint⟩, hiter⟩
    refine ⟨⟨h2, hpoint.trans hpass.fault.point⟩, ?_⟩
    unfold Table.size
    rw [hiter, hpass.table]
    omega
  · have hmax1 : s1.table.size ≤ maxSize := by rwa [hpass.table]
    have hins := tryEmplaceImpl_sound key mapped h1 hmax1 (hpass.calls hcalls)
    rw [hpass.fault.point] at hins
    refine hins.mono (fun _ s' h' => ?_) (fun _ h' => h') fun _ h' => h'
    refine ⟨⟨h'.1.1, h'.1.2.trans hpass.fault.point⟩, ?_⟩
    rw [← hpass.table]
    exact h'.2

end Fum.Analysis
