import Fum.Analysis.Accounting

/-!
# Removal, node handles and teardown

The other half of the accounts: what is destroyed was owned, what is extracted goes to a
handle, and a table that has been torn down answers for nothing.
-/

set_option autoImplicit false

namespace Fum.Analysis

open Fum.Model Effects Conservation

variable {τ : Traits} {U : Stuck → Prop} {s s' : Store τ} {others : Holdings}
  {l : List ℕ} {i : ℕ}

/-! ## Removal of a node -/

/-- The table after a live node has been destroyed, unlinked and released. -/
def removed (t : Table τ) (i : ℕ) : Table τ := (unlinked (t.setStorage i none) i).release i

theorem storage_removed_of_ne {t : Table τ} {j : ℕ} (hne : j ≠ i) :
    ((removed t i).nodeAt j).storage = (t.nodeAt j).storage := by
  unfold removed
  rw [storage_release, storage_unlinked, storage_setStorage_of_ne hne]

theorem storage_removed_self {t : Table τ} (hi : i < t.arenaSize) :
    ((removed t i).nodeAt i).storage = none := by
  unfold removed
  rw [storage_release, storage_unlinked, storage_setStorage_self hi]

theorem chunkIds_removed (t : Table τ) (i : ℕ) : chunkIds (removed t i) = chunkIds t :=
  (chunkIds_setNode _ _ _).trans ((chunkIds_unlinked _ _).trans (chunkIds_setNode _ _ _))

theorem SameIndex.removed (t : Table τ) (i : ℕ) : SameIndex t (removed t i) := by
  have h : SameIndex t (t.setStorage i none) := ⟨rfl, rfl, rfl, rfl⟩
  exact h.trans ((SameIndex.unlinked _ i).trans ⟨rfl, rfl, rfl, rfl⟩)

theorem SamePolicy.removed (t : Table τ) (i : ℕ) : SamePolicy t (removed t i) := by
  have h : SamePolicy t (t.setStorage i none) := ⟨rfl, rfl, rfl, rfl⟩
  exact h.trans ((SamePolicy.unlinked _ i).trans ⟨rfl, rfl, rfl, rfl⟩)

theorem Slots.remove {t : Table τ} (h : Slots t []) (hi : i ∈ t.iteration) :
    Slots (removed t i) [] :=
  ((h.setStorage i none).unlink (i := i) hi).release

theorem Slots.removed_perm {t : Table τ} (h : Slots t []) (hi : i ∈ t.iteration) :
    ((removed t i).iteration ++ [i]).Perm t.iteration :=
  (h.setStorage i none).unlinked_perm hi

theorem Slots.mem_removed {t : Table τ} (h : Slots t []) (hi : i ∈ t.iteration) (j : ℕ) :
    j ∈ (removed t i).iteration ↔ j ∈ t.iteration ∧ j ≠ i := by
  have hperm := h.removed_perm hi
  have hnodup := hperm.nodup_iff.mpr h.iteration_nodup
  have hnot : i ∉ (removed t i).iteration := by
    intro hmem
    exact (List.nodup_append.mp hnodup).2.2 i hmem i (by simp) rfl
  rw [← hperm.mem_iff, List.mem_append, List.mem_singleton]
  by_cases hj : j = i
  · subst hj
    simp [hnot]
  · simp [hj]

theorem Slots.filled_removed {t : Table τ} (h : Slots t []) (hf : Filled t t.iteration)
    (hi : i ∈ t.iteration) : Filled (removed t i) (removed t i).iteration := by
  apply hf.vacate
  · exact storage_removed_self (h.lt_arenaSize (Or.inl hi))
  · intro j hj
    exact storage_removed_of_ne hj
  · exact h.mem_removed hi

/-- The tail of `erase_located`: the element destroyed, the node unlinked and released. -/
theorem post_dropNode (h : Slots s.table []) {e : Element τ}
    (he : (s.table.nodeAt i).storage = some e) (hi : i ∈ s.table.iteration)
    {Q : Unit → Store τ → Prop} {E : Store τ → Prop}
    (hQ : Q () ⟨removed s.table i, withoutElement s.heap e⟩) :
    Action.Post U (destroyValue i >>= fun _ => unlinkFromIteration i >>= fun _ => releaseNode i)
      s Q E := by
  refine post_destroyValue (fun e' he' => ?_) fun hnone => ?_
  · rw [he] at he'
    cases he'
    exact post_unlinkFromIteration (h.setStorage i none) hi hQ
  · rw [he] at hnone
    cases hnone

theorem Sound.remove {e : Element τ} (h : SoundTable others s)
    (he : (s.table.nodeAt i).storage = some e) (hi : i ∈ s.table.iteration) :
    SoundTable others ⟨removed s.table i, withoutElement s.heap e⟩ where
  slots := h.slots.remove hi
  filled := h.slots.filled_removed h.filled hi
  balanced := by
    have hperm := h.slots.removed_perm hi
    have hbal := h.balanced
    rw [← owns_perm hperm, owns_append_singleton he, add_right_comm] at hbal
    have howns : owns (removed s.table i) (removed s.table i).iteration =
        owns s.table (removed s.table i).iteration := by
      refine owns_congr (fun j hj => storage_removed_of_ne ?_) (chunkIds_removed _ _)
        (SameIndex.removed _ _).arrayIds
      exact ((h.slots.mem_removed hi j).mp hj).2
    have hdone := hbal.withoutElement
    rw [← howns] at hdone
    exact hdone

theorem eraseLocated_sound (bucketIndex : ℕ) (h : SoundTable others s) :
    Action.Post Stuck.anyhow (eraseLocated bucketIndex) s
      (fun _ s' => Accounts others s s' ∧ s'.table.size + 1 = s.table.size)
      (fun _ => False) := by
  unfold eraseLocated
  refine post_bucketAt (fun array _ _ => ?_) fun _ => trivial
  generalize (array.cells bucketIndex).nodeIndex = node
  refine Action.Post.bind (eraseBucket_frame [] bucketIndex) (fun _ h => h) ?_
  rintro - s1 h1
  have hs1 := h.reindex h1
  rw [← h1.arena.iteration] at hs1
  cases he : (s1.table.nodeAt node).storage with
  | none =>
      refine post_destroyValue (fun e he' => ?_) fun _ => trivial
      rw [he] at he'
      cases he'
  | some e =>
      have hmem : node ∈ s1.table.iteration := (hs1.filled node).mp (by rw [he]; rfl)
      refine post_dropNode hs1.slots he hmem ⟨⟨hs1.remove he hmem, h1.fault.point⟩, ?_⟩
      have hlen := (hs1.slots.removed_perm hmem).length_eq
      rw [List.length_append, List.length_singleton, h1.arena.iteration] at hlen
      exact hlen

/-- A call that keeps the accounts can be followed by another one. -/
theorem Accounts.trans {s'' : Store τ} (h : faultPoint s'.heap.fault = faultPoint s.heap.fault)
    (h' : Accounts others s' s'') : Accounts others s s'' := ⟨h'.1, h'.2.trans h⟩

theorem eraseNode_sound (node : ℕ) (h : SoundTable others s) :
    Action.Post Stuck.anyhow (eraseNode node) s (fun _ => Accounts others s)
      (SoundTable others) := by
  unfold eraseNode
  refine post_keyAt (fun e _ => ?_) fun _ => trivial
  refine locate_sound h (fun _ h' => h') fun existing s1 hpass h1 => ?_
  exact (eraseLocated_sound existing h1).mono (fun _ _ h' => h'.1.trans hpass.fault.point)
    (fun _ h' => h'.elim) fun _ h' => h'

theorem eraseAt_sound (node : ℕ) (h : SoundTable others s) :
    Action.Post Stuck.anyhow (eraseAt node) s (fun _ => Accounts others s)
      (SoundTable others) := by
  unfold eraseAt
  rw [post_getTable]
  exact Action.Post.bind (eraseNode_sound node h) (fun _ h' => h') fun _ _ h' => h'

theorem eraseKey_sound (key : τ.Key) (h : SoundTable others s) :
    Action.Post Stuck.anyhow (eraseKey key) s (fun _ => Accounts others s)
      (SoundTable others) := by
  unfold eraseKey
  refine locate_sound h (fun _ h' => h') fun existing s1 hpass h1 => ?_
  rw [post_getTable]
  split
  · exact ⟨h1, hpass.fault.point⟩
  · exact Action.Post.bind (eraseLocated_sound existing h1) (fun _ h' => h'.elim)
      fun _ _ h' => h'.1.trans hpass.fault.point

theorem eraseRange_sound (first last : ℕ) (h : SoundTable others s) :
    Action.Post Stuck.anyhow (eraseRange first last) s (fun _ => Accounts others s)
      (SoundTable others) := by
  unfold eraseRange
  rw [post_getTable]
  cases s.table.range (kNullIndex + 1) first last with
  | none => exact Action.Post.undefined trivial
  | some doomed =>
      refine Action.Post.bind (Q := fun _ => Accounts others s)
        (Action.Post.forEach (fun _ => Accounts others s) ⟨h, rfl⟩ ?_) (fun _ h' => h') ?_
      · intro done a rest s1 _ h1
        refine post_mayThrow (fun f hf => ?_) fun hpoint _ => ?_
        · exact ⟨h1.1.passes hf.passes_self,
            hf.faultPoint_eq.trans h1.2⟩
        · exact h1.1.throws (Throws.here hpoint)
      · rintro - s1 h1
        refine Action.Post.bind (Q := fun _ => Accounts others s)
          (Action.Post.forEach (fun _ => Accounts others s) h1 ?_) (fun _ h' => h')
          fun _ _ h' => h'
        intro done a rest s2 _ h2
        exact (eraseNode_sound a h2.1).mono (fun _ _ h' => h'.trans h2.2) (fun _ h' => h')
          fun _ h' => h'

/-! ## Removal of everything -/

/-- The loop of `destroy_all_values`: the elements left are those of the slots not yet
visited. -/
theorem destroyAllValues_sound (h : SoundTable others s) :
    Action.Post U destroyAllValues s (fun _ s' => Sound others [] [] s' ∧
      SameIndex s.table s'.table ∧ SamePolicy s.table s'.table ∧
      s'.table.arenaHighWater = s.table.arenaHighWater ∧ chunkIds s'.table = chunkIds s.table ∧
      s'.heap.fault = s.heap.fault) (fun _ => False) := by
  unfold destroyAllValues
  rw [post_getTable]
  apply Action.Post.forEach_rest (fun rest s' => Sound others [] rest s' ∧
    SameIndex s.table s'.table ∧ SamePolicy s.table s'.table ∧
    s'.table.arenaHighWater = s.table.arenaHighWater ∧ chunkIds s'.table = chunkIds s.table ∧
    s'.heap.fault = s.heap.fault) ⟨h, SameIndex.refl _, SamePolicy.refl _, rfl, rfl, rfl⟩
  rintro a rest s1 hsuffix ⟨h1, hindex, hpolicy, hmark, hids, hfault⟩
  have hnodup : (a :: rest).Nodup := h.slots.iteration_nodup.sublist hsuffix.sublist
  obtain ⟨e, he, hfilled⟩ := h1.filled.destroy hnodup
  refine Action.Post.of_run_ok (run_destroyValue he) ⟨⟨h1.slots.setStorage a none, hfilled, ?_⟩,
    hindex.trans ⟨rfl, rfl, rfl, rfl⟩, hpolicy.trans ⟨rfl, rfl, rfl, rfl⟩, hmark,
    (chunkIds_setNode _ _ _).trans hids, hfault⟩
  have hbal := h1.balanced
  rw [owns_perm (List.perm_append_singleton a rest).symm,
    owns_append_singleton he, add_right_comm] at hbal
  have howns : owns (s1.table.setStorage a none) rest = owns s1.table rest := by
    refine owns_congr (fun j hj => storage_setStorage_of_ne ?_ _) (chunkIds_setNode _ _ _) rfl
    rintro rfl
    exact (List.nodup_cons.mp hnodup).1 hj
  have hdone := hbal.withoutElement
  rw [← howns] at hdone
  exact hdone

theorem clear_sound (h : SoundTable others s) :
    Action.Post U clear s (fun _ s' => Accounts others s s' ∧ s'.table.iteration = [] ∧
      SamePolicy s.table s'.table) (fun _ => False) := by
  unfold clear
  rw [post_getTable]
  by_cases hempty : s.table.iteration = [] ∧ s.table.freeListHead = kNullIndex ∧
      s.table.arenaHighWater = 0
  · rw [if_pos hempty]
    exact ⟨⟨h, rfl⟩, hempty.1, SamePolicy.refl _⟩
  · rw [if_neg hempty]
    refine Action.Post.bind (destroyAllValues_sound h) (fun _ h' => h') ?_
    rintro - s1 ⟨h1, hindex, hpolicy, -, hids, hfault⟩
    refine ⟨⟨⟨⟨⟨[], rfl, List.Perm.refl _⟩, Nat.zero_le _, Nat.zero_le _, ?_⟩, h1.filled, ?_⟩,
      congrArg faultPoint hfault⟩, rfl, hpolicy.trans ⟨rfl, rfl, rfl, rfl⟩⟩
    · intro p j hj
      cases hj
    · have harrays : arrayIds (s1.table.setCells emptyCells) = arrayIds s1.table := by
        unfold arrayIds Table.setCells
        rw [Option.map_map]
        rfl
      have howns : owns (s1.table.setCells emptyCells) [] = owns s1.table [] :=
        owns_congr (fun _ _ => rfl) rfl harrays
      have hbal := h1.balanced
      rw [← howns] at hbal
      exact hbal

/-! ## Teardown -/

theorem deallocateChunks_balanced {held : Holdings}
    (h : Balanced s.heap (⟨0, chunkIds s.table, 0, 0⟩ + held)) :
    Action.Post U deallocateChunks s (fun _ s' => Balanced s'.heap held ∧
      s'.table = { s.table with chunks := [] } ∧ s'.heap.fault = s.heap.fault)
      (fun _ => False) := by
  unfold deallocateChunks
  rw [post_getTable]
  refine Action.Post.bind (Q := fun _ s' => Balanced s'.heap held ∧ s'.table = s.table ∧
      s'.heap.fault = s.heap.fault) (E := fun _ => False)
    ((Action.Post.forEach_rest (fun rest s' =>
      Balanced s'.heap (⟨0, (rest.map Chunk.id : List ℕ), 0, 0⟩ + held) ∧
      s'.table = s.table ∧ s'.heap.fault = s.heap.fault) ⟨h, rfl, rfl⟩ ?_).mono ?_
      (fun _ h => h) fun _ h => h) (fun _ h => h) ?_
  · rintro c rest s1 - ⟨h1, htable, hfault⟩
    refine ⟨?_, htable, hfault⟩
    have hsum : (⟨0, ((c :: rest).map Chunk.id : List ℕ), 0, 0⟩ : Holdings) + held =
        ⟨0, (rest.map Chunk.id : List ℕ), 0, 0⟩ + held + .chunk c.id := by
      rw [add_right_comm]
      congr 1
      ext1
      · rfl
      · show ((c.id :: rest.map Chunk.id : List ℕ) : Multiset ℕ) =
          ↑(rest.map Chunk.id) + {c.id}
        rw [← Multiset.coe_singleton, Multiset.coe_add]
        exact Multiset.coe_eq_coe.mpr (List.perm_append_singleton _ _).symm
      · rfl
      · rfl
    rw [hsum] at h1
    exact h1.withoutChunk
  · rintro - s' ⟨h', htable, hfault⟩
    refine ⟨?_, htable, hfault⟩
    have hzero : (⟨0, (([] : List (Chunk τ)).map Chunk.id : List ℕ), 0, 0⟩ : Holdings) + held =
        held := zero_add held
    rwa [hzero] at h'
  · rintro - s' ⟨h', htable, hfault⟩
    exact ⟨h', by show { s'.table with chunks := [] } = _; rw [htable], hfault⟩

/-- A table that has been torn down answers for nothing. -/
theorem destroyEverything_sound (h : SoundTable others s) :
    Action.Post U destroyEverything s (fun _ s' => Balanced s'.heap others ∧
      s'.table.buckets = none ∧ s'.table.chunks = [] ∧ SamePolicy s.table s'.table ∧
      s'.heap.fault = s.heap.fault) (fun _ => False) := by
  unfold destroyEverything
  refine Action.Post.bind (destroyAllValues_sound h) (fun _ h' => h') ?_
  rintro - s1 ⟨h1, -, hpolicy, -, -, hfault⟩
  refine Action.Post.bind (deallocateBuckets_sound h1) (fun _ h' => h') ?_
  rintro - s2 ⟨h2, htable, hfault2⟩
  have hbal := h2.balanced
  have howns : owns s2.table [] = ⟨0, chunkIds s2.table, 0, 0⟩ := by
    unfold owns arrayIds
    rw [htable]
    rfl
  rw [howns] at hbal
  refine (deallocateChunks_balanced hbal).mono ?_ (fun _ h' => h') fun _ h' => h'
  rintro - s3 ⟨h3, htable3, hfault3⟩
  refine ⟨h3, by rw [htable3, htable], by rw [htable3], ?_, ?_⟩
  · rw [htable3, htable]
    exact hpolicy.trans ⟨rfl, rfl, rfl, rfl⟩
  · rw [hfault3, hfault2, hfault]

/-- An empty table without storage is sound in memory that answers for the others. -/
theorem Sound.reset {t : Table τ} {h : Heap} (hb : Balanced h others) (hc : t.chunks = []) :
    SoundTable others ⟨t.resetToEmptyState, h⟩ where
  slots := ⟨⟨[], rfl, List.Perm.refl _⟩, Nat.zero_le _, Nat.zero_le _, fun p j hj => by
    cases hj⟩
  filled := by
    intro j
    have hnode : t.resetToEmptyState.nodeAt j = Node.raw := by
      apply nodeAt_of_arenaSize_le
      show t.chunks.length * kChunkSize ≤ j
      rw [hc]
      simp
    show (t.resetToEmptyState.nodeAt j).storage.isSome ↔ j ∈ []
    rw [hnode]
    simp [Node.raw]
  balanced := by
    have howns : owns t.resetToEmptyState [] = 0 := by
      unfold owns chunkIds arrayIds
      show (⟨_, ↑(List.map Chunk.id t.chunks), _, _⟩ : Holdings) = 0
      rw [hc]
      rfl
    show Balanced h (owns t.resetToEmptyState [] + others)
    rw [howns, zero_add]
    exact hb

/-! ## The size of the table -/

theorem rehash_sound (n : ℕ) (h : SoundTable others s) :
    Action.Post Stuck.anyhow (rehash n) s
      (fun _ s' => Accounts others s s' ∧ s'.table.iteration = s.table.iteration)
      (fun s' => SoundTable others s' ∧ RebuildThrown s s') := by
  apply post_rehash
  · exact fun _ => trivial
  · intro _ _
    refine Action.Post.bind (deallocateBuckets_sound h) (fun _ h' => h'.elim) ?_
    rintro - s1 ⟨h1, htable, hfault⟩
    have hiter : s1.table.iteration = s.table.iteration := by rw [htable]
    have harena : SameArena s1.table s1.table.dropBuckets := ⟨rfl, rfl, rfl, rfl⟩
    have h2 : Sound others [] s.table.iteration ⟨s1.table.dropBuckets, s1.heap⟩ :=
      h1.sameArena harena rfl ⟨s1.heap.fault, rfl⟩
    rw [← hiter] at h2
    exact ⟨⟨h2, congrArg faultPoint hfault⟩, hiter⟩
  · intro _
    exact ⟨⟨h, rfl⟩, rfl⟩
  · intro _ _ _
    refine (rehashTo_sound _ h).mono ?_ ?_ fun _ h' => h'
    · rintro - s1 ⟨h1, hr⟩
      rw [← hr.arena.iteration] at h1
      exact ⟨⟨h1, hr.fault.point⟩, hr.arena.iteration⟩
    · rintro s1 ⟨h1, hr⟩
      rw [← hr.arena.iteration] at h1
      exact ⟨h1, hr⟩

theorem reserve_sound (n : ℕ) (h : SoundTable others s) :
    Action.Post Stuck.anyhow (reserve n) s
      (fun _ s' => Accounts others s s' ∧ s'.table.iteration = s.table.iteration)
      (fun s' => SoundTable others s' ∧ RebuildThrown s s') := by
  exact post_reserve (fun _ => trivial) fun _ _ => rehash_sound _ h

/-- The load factor, the functors and the numbers of the index are not accounts. -/
theorem Sound.retable {t : Table τ} (h : SoundTable others s) (ha : SameArena s.table t)
    (hids : arrayIds t = arrayIds s.table) : SoundTable others ⟨t, s.heap⟩ := by
  have h' : Sound others [] s.table.iteration ⟨t, s.heap⟩ :=
    Sound.sameArena h ha hids ⟨s.heap.fault, rfl⟩
  rwa [← ha.iteration] at h'

/-- What `max_load_factor(new_factor)` does to the table. -/
def withFactor (t : Table τ) (factor : LoadFactor τ.rounding) : Table τ :=
  { t with
    maxLoadFactor := factor
    maxLoadCapacity :=
      if t.bucketCount ≠ 0 then computeLoadCapacity factor t.bucketCount
      else t.maxLoadCapacity }

theorem run_setMaxLoadFactor (z : RoundedArithmetic.FloatValue τ.rounding) (s : Store τ) :
    (setMaxLoadFactor z).run s = (.ok (), ⟨withFactor s.table (LoadFactor.ofFloat z), s.heap⟩) := by
  unfold setMaxLoadFactor withFactor
  by_cases h : s.table.bucketCount ≠ 0
  · rw [if_pos h]
    show (_, (⟨if _ then _ else _, s.heap⟩ : Store τ)) = _
    rw [if_pos h]
  · rw [if_neg h]
    show (_, (⟨if _ then _ else _, s.heap⟩ : Store τ)) = _
    rw [if_neg h]

theorem setMaxLoadFactor_sound (z : RoundedArithmetic.FloatValue τ.rounding)
    (h : SoundTable others s) :
    Action.Post U (setMaxLoadFactor z) s (fun _ => Accounts others s) (fun _ => False) :=
  Action.Post.of_run_ok (run_setMaxLoadFactor z s) ⟨h.retable ⟨rfl, rfl, rfl, rfl⟩ rfl, rfl⟩

/-! ## Node handles -/

/-- What a node handle owns. -/
def handleOwns (handle : Handle τ) : Holdings :=
  match handle.value with
  | none => 0
  | some cell => .element cell.element.serial + .cell cell.id

/-- The release of a handle gives back what it owns. -/
theorem Balanced.releaseHandle {h : Heap} {held : Holdings} {handle : Handle τ}
    (hb : Balanced h (held + handleOwns handle)) : Balanced (h.releaseHandle handle) held := by
  unfold handleOwns at hb
  unfold Heap.releaseHandle
  cases hv : handle.value with
  | none =>
      simp only [hv, add_zero] at hb
      exact hb
  | some cell =>
      simp only [hv] at hb
      rw [add_comm (Holdings.element _), ← add_assoc] at hb
      have h1 : Balanced (Analysis.withoutElement h cell.element) (held + .cell cell.id) :=
        hb.withoutElement
      exact h1.withoutCell

/-- What a call hands out. -/
def replyOwns : Reply τ → Holdings
  | .node handle => handleOwns handle
  | .none => 0
  | .inserted _ _ => 0
  | .erased _ => 0
  | .iterator _ => 0

theorem Sound.rebalance {h : Heap} {others' : Holdings} (hs : SoundTable others s)
    (hb : Balanced s.heap (owns s.table s.table.iteration + others) →
      Balanced h (owns s.table s.table.iteration + others')) :
    SoundTable others' ⟨s.table, h⟩ := ⟨hs.slots, hs.filled, hb hs.balanced⟩

theorem extractLocated_sound (bucketIndex : ℕ) (h : SoundTable others s) :
    Action.Post Stuck.anyhow (extractLocated bucketIndex) s
      (fun handle => Accounts (others + handleOwns handle) s) (SoundTable others) := by
  unfold extractLocated
  refine post_bucketAt (fun array _ _ => ?_) fun _ => trivial
  generalize (array.cells bucketIndex).nodeIndex = node
  unfold allocateCell
  rw [Action.bind_assoc]
  refine post_mayThrow_bind (fun f hf => ?_) fun hpoint _ => ?_
  · rw [Action.bind_assoc, post_freshId, Action.bind_assoc, post_modifyHeap, Action.pure_bind]
    -- the cell is held while the element is moved into it
    have h1 : SoundTable (others + .cell s.heap.nextId)
        ⟨s.table, withCell (withFault s.heap f)⟩ := by
      refine h.rebalance fun hb => ?_
      rw [← add_assoc]
      exact (hb.withFault f).withCell
    refine post_elementAt (fun source _ => ?_) fun _ => trivial
    have hcons : Action.Post Stuck.anyhow (constructElement source.value)
        ⟨s.table, withCell (withFault s.heap f)⟩
        (fun e s' => SoundTable (others + .cell s.heap.nextId + .element e.serial) s' ∧
          faultPoint s'.heap.fault = faultPoint s.heap.fault)
        (SoundTable (others + .cell s.heap.nextId)) := by
      unfold constructElement
      refine post_mayThrow_bind (fun f' hf' => ?_) fun _ _ => ?_
      · rw [post_freshId, post_modifyHeap, post_pure]
        refine ⟨h1.rebalance fun hb => ?_, hf'.faultPoint_eq.trans hf.faultPoint_eq⟩
        rw [← add_assoc]
        exact (hb.withFault f').withElement
      · exact h1.rebalance fun hb => hb.withFault none
    refine Action.Post.bind (Action.Post.cleanup (F := SoundTable others) hcons ?_)
      (fun _ h' => h') ?_
    · intro s' h'
      refine h'.rebalance fun hb => ?_
      rw [← add_assoc] at hb
      exact hb.withoutCell
    · rintro e s2 ⟨h2, hpoint2⟩
      refine Action.Post.bind (assignValue_sound node τ.movedFrom h2) (fun _ h' => h'.elim) ?_
      rintro - s3 ⟨⟨h3, hpoint3⟩, -⟩
      refine Action.Post.bind (eraseLocated_sound bucketIndex h3) (fun _ h' => h'.elim) ?_
      rintro - s4 ⟨⟨h4, hpoint4⟩, -⟩
      rw [post_getTable, post_pure]
      refine ⟨?_, hpoint4.trans (hpoint3.trans hpoint2)⟩
      show SoundTable (others + (.element e.serial + .cell s.heap.nextId)) s4
      rwa [add_comm (Holdings.element _), ← add_assoc]
  · exact h.throws (Throws.here hpoint)

theorem handleOwns_default : handleOwns (Handle.default : Handle τ) = 0 := rfl

theorem extractKey_sound (key : τ.Key) (h : SoundTable others s) :
    Action.Post Stuck.anyhow (extractKey key) s
      (fun handle => Accounts (others + handleOwns handle) s) (SoundTable others) := by
  unfold extractKey
  refine locate_sound h (fun _ h' => h') fun existing s1 hpass h1 => ?_
  rw [post_getTable]
  split
  · refine ⟨?_, hpass.fault.point⟩
    rwa [handleOwns_default, add_zero]
  · exact (extractLocated_sound existing h1).mono
      (fun _ _ h' => h'.trans hpass.fault.point) (fun _ h' => h') fun _ h' => h'

theorem extractAt_sound (node : ℕ) (h : SoundTable others s) :
    Action.Post Stuck.anyhow (extractAt node) s
      (fun handle => Accounts (others + handleOwns handle) s) (SoundTable others) := by
  unfold extractAt
  refine post_keyAt (fun e _ => ?_) fun _ => trivial
  refine locate_sound h (fun _ h' => h') fun existing s1 hpass h1 => ?_
  exact (extractLocated_sound existing h1).mono
    (fun _ _ h' => h'.trans hpass.fault.point) (fun _ h' => h') fun _ h' => h'

/-- `insert(node_type&&)` consumes the handle, hands it back in the returned node, or
throws and leaves it alone. -/
theorem insertNode_sound (handle : Handle τ) (h : SoundTable (others + handleOwns handle) s)
    (hmax : s.table.size ≤ maxSize) (hcalls : CallsReturn s.heap.fault) :
    Action.Post Stuck.anyhow (insertNode handle) s
      (fun r => Accounts (others + handleOwns r.1.node + handleOwns r.2) s)
      (SoundThrown (others + handleOwns handle) (faultPoint s.heap.fault)) := by
  unfold insertNode
  cases hv : handle.value with
  | none =>
      refine Action.Post.pure ⟨?_, rfl⟩
      rwa [handleOwns_default, add_zero]
  | some cell =>
      have hempty : handleOwns ({ handle with value := none } : Handle τ) = 0 := rfl
      refine locate_sound h (fun s' h' => h'.thrown _) fun existing s1 hpass h1 => ?_
      rw [post_getTable]
      split
      · refine post_bucketAt (fun array _ _ => ?_) fun _ => trivial
        refine ⟨?_, hpass.fault.point⟩
        rwa [hempty, add_zero]
      · have hmax1 : s1.table.size ≤ maxSize := by rwa [hpass.table]
        have hins := insertAbsent_sound cell.element.value h1 hmax1 (hpass.calls hcalls)
        rw [hpass.fault.point] at hins
        have hsplit : ∀ {β : Type} (k : ℕ → Exec τ β),
            (buildNode cell.element.value >>= fun i => attachNode i >>= fun _ => k i) =
              ((buildNode cell.element.value >>= fun i => attachNode i >>= fun _ =>
                pure (i, true)) >>= fun r => k r.1) := by
          intro β k
          simp only [Action.bind_assoc, Action.pure_bind]
        rw [hsplit]
        refine Action.Post.bind hins (fun _ h' => h') ?_
        rintro r s2 ⟨⟨h2, hpoint2⟩, -⟩
        rw [post_modifyHeap, post_pure]
        refine ⟨?_, ?_⟩
        · rw [hempty, handleOwns_default, add_zero, add_zero]
          refine h2.rebalance fun hb => ?_
          rw [← add_assoc] at hb
          exact hb.releaseHandle
        · have hfault : (s2.heap.releaseHandle handle).fault = s2.heap.fault := by
            unfold Heap.releaseHandle
            rw [hv]
          show faultPoint (s2.heap.releaseHandle handle).fault = _
          rw [hfault, hpoint2, hpass.fault.point]

/-- Every operation keeps the accounts. -/
theorem Op.exec_sound (op : Op τ) (h : SoundTable others s)
    (hmax : s.table.size ≤ maxSize) (hcalls : CallsReturn s.heap.fault) :
    Action.Post Stuck.anyhow op.exec s (fun r => Accounts (others + replyOwns r) s)
      (SoundThrown others (faultPoint s.heap.fault)) := by
  have hplain : ∀ {s' : Store τ} {r : Reply τ}, replyOwns r = 0 → Accounts others s s' →
      Accounts (others + replyOwns r) s s' := by
    intro s' r hr h'
    rwa [hr, add_zero]
  cases op with
  | insert value =>
      exact Action.Post.bind (emplaceImpl_sound value h hmax hcalls) (fun _ h' => h')
        fun r s' h' => hplain rfl h'.1
  | tryEmplace key mapped =>
      exact Action.Post.bind (tryEmplaceImpl_sound key mapped h hmax hcalls) (fun _ h' => h')
        fun r s' h' => hplain rfl h'.1
  | insertOrAssign key mapped =>
      exact Action.Post.bind (insertOrAssignImpl_sound key mapped h hmax hcalls)
        (fun _ h' => h') fun r s' h' => hplain rfl h'.1
  | assign node mapped =>
      exact Action.Post.bind (assignValue_sound node _ h) (fun _ h' => h'.elim)
        fun _ s' h' => hplain rfl h'.1
  | eraseKey key =>
      exact Action.Post.bind (eraseKey_sound key h) (fun _ h' => h'.thrown _)
        fun _ s' h' => hplain rfl h'
  | eraseAt node =>
      exact Action.Post.bind (eraseAt_sound node h) (fun _ h' => h'.thrown _)
        fun _ s' h' => hplain rfl h'
  | eraseRange first last =>
      exact Action.Post.bind (eraseRange_sound first last h) (fun _ h' => h'.thrown _)
        fun _ s' h' => hplain rfl h'
  | extractKey key =>
      exact Action.Post.bind (extractKey_sound key h) (fun _ h' => h'.thrown _)
        fun _ s' h' => h'
  | extractAt node =>
      exact Action.Post.bind (extractAt_sound node h) (fun _ h' => h'.thrown _)
        fun _ s' h' => h'
  | clear =>
      exact Action.Post.bind (clear_sound h) (fun _ h' => h'.elim)
        fun _ s' h' => hplain rfl h'.1
  | rehash n =>
      exact Action.Post.bind (rehash_sound n h) (fun _ h' => h'.1.thrown _)
        fun _ s' h' => hplain rfl h'.1
  | reserve n =>
      exact Action.Post.bind (reserve_sound n h) (fun _ h' => h'.1.thrown _)
        fun _ s' h' => hplain rfl h'.1
  | maxLoadFactor z =>
      exact Action.Post.bind (setMaxLoadFactor_sound z h) (fun _ h' => h'.elim)
        fun _ s' h' => hplain rfl h'
  | find key =>
      refine Action.Post.bind (find_frame key) (fun s' ht => ?_) fun it s' hpass => ?_
      · have h' := h.throws ht
        rw [← ht.table] at h'
        exact SoundTable.thrown h' _
      · have h' := h.passes hpass
        rw [← hpass.table] at h'
        exact hplain rfl ⟨h', hpass.fault.point⟩

end Fum.Analysis
