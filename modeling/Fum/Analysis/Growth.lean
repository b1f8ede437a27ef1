import Fum.Analysis.Operations
import Fum.Analysis.TableInvariants

/-!
# Insertions in a row

A copy, a range insertion or a merge enters elements one after another. They keep a table
well formed as long as it is small enough, and a table that has become too large stays so;
hence what matters is only how large it is in the end.
-/

set_option autoImplicit false

namespace Fum.Analysis

open Fum.Model Effects

variable {τ : Traits} {U : Stuck → Prop} {s s' : Store τ} {t t0 t' t'' : Table τ}
  {w w' : World τ} {i this other : ℕ} {key : τ.Key} {v : τ.Value} {it : ℕ} {flag : Bool}

/-! ## Growth -/

/-- The elements of `t` are still there, in the same slots and the same order. -/
structure Grown (t t' : Table τ) : Prop where
  iteration : t.iteration <+: t'.iteration
  storage : ∀ x ∈ t.iteration, (t'.nodeAt x).storage = (t.nodeAt x).storage
  policy : SamePolicy t t'
  chunks : chunkIds t <+: chunkIds t'

theorem Grown.refl (t : Table τ) : Grown t t :=
  ⟨List.prefix_rfl, fun _ _ => rfl, SamePolicy.refl t, List.prefix_rfl⟩

theorem Grown.trans (h : Grown t t') (h' : Grown t' t'') : Grown t t'' where
  iteration := h.iteration.trans h'.iteration
  storage x hx := (h'.storage x (h.iteration.subset hx)).trans (h.storage x hx)
  policy := h.policy.trans h'.policy
  chunks := h.chunks.trans h'.chunks

theorem SameElements.grown (h : SameElements t t') : Grown t t' :=
  ⟨by rw [h.iteration], fun x _ => h.storage x, h.policy, h.chunks⟩

theorem Inserted.grown (h : Inserted t v i t') (hc : Consistent t) : Grown t t' where
  iteration := by
    rw [h.iteration]
    exact List.prefix_append _ _
  storage x hx := h.others x (h.ne_of_listed hc hx)
  policy := h.policy
  chunks := h.chunks

theorem Entered.grown (h : Entered t key v it flag t') (hc : Consistent t) : Grown t t' := by
  cases h with
  | inserted flag_eq absent inserted => exact inserted.grown hc
  | found flag_eq listed same_key same index => exact same.grown

/-! ## Small enough tables -/

theorem not_room_iff : ¬ Room t ↔ Over (2 ^ 24 - 2) t := by
  unfold Room Over
  omega

/-- The table is well formed, unless it has become too large. -/
def Formed (t : Table τ) : Prop := Room t → WellFormed t

/-- The table has grown from `t0`, unless it has become too large. -/
def Growing (t0 t : Table τ) : Prop := Room t → WellFormed t ∧ Grown t0 t

theorem Growing.formed (h : Growing t0 t) : Formed t := fun hroom => (h hroom).1

theorem WellFormed.growing (h : WellFormed t) : Growing t t := fun _ => ⟨h, Grown.refl t⟩

/-- An insertion keeps a table that is too large too large. -/
theorem emplaceImpl_over (v : τ.Value) (h : ¬ Room s.table) :
    Action.Post Stuck.anyhow (emplaceImpl v) s (fun _ s' => ¬ Room s'.table)
      (fun s' => ¬ Room s'.table) := by
  have hkeeps : KeepsTable (Over (2 ^ 24 - 2) : Table τ → Prop) (emplaceImpl v) :=
    keeps_emplaceImpl (over_insensitive _).steady (over_appendable _).linkable
      (over_rebuildable _).refillable v
  exact (hkeeps.post (not_room_iff.mp h)).mono (fun _ _ h' => not_room_iff.mpr h')
    (fun _ h' => not_room_iff.mpr h') fun _ h' => h'

theorem emplaceImpl_growing (v : τ.Value) (h : Growing t0 s.table) :
    Action.Post Stuck.anyhow (emplaceImpl v) s (fun _ s' => Growing t0 s'.table)
      (fun _ => True) := by
  by_cases hroom : Room s.table
  · obtain ⟨hw, hgrown⟩ := h hroom
    refine (emplaceImpl_spec v hw.consistent hroom).mono ?_ (fun _ _ => trivial) fun _ h' => h'
    rintro r s' ⟨hc', hentered, -⟩ -
    exact ⟨hw.of_entered hentered hc', hgrown.trans (hentered.grown hw.consistent)⟩
  · refine (emplaceImpl_over v hroom).mono ?_ (fun _ _ => trivial) fun _ h' => h'
    exact fun _ s' h' hroom' => absurd hroom' h'

/-- The table is well formed, unless it has become too large; if `P`, an insertion undoes what
it has done when it throws. -/
def Undoing (P : Prop) (s : Store τ) : Prop :=
  Room s.table → WellFormed s.table ∧ (P → Undoable s.heap.fault)

theorem Undoing.formed {P : Prop} (h : Undoing P s) : Formed s.table := fun hroom => (h hroom).1

theorem Formed.undoing (h : Formed s.table) : Undoing False s :=
  fun hroom => ⟨h hroom, fun hfalse => hfalse.elim⟩

theorem emplaceImpl_undoing {P : Prop} (v : τ.Value) (h : Undoing P s) :
    Action.Post Stuck.anyhow (emplaceImpl v) s (fun _ => Undoing P)
      (fun s' => P → Formed s'.table) := by
  by_cases hroom : Room s.table
  · obtain ⟨hw, hundo⟩ := h hroom
    refine (emplaceImpl_spec v hw.consistent hroom).mono ?_ ?_ fun _ h' => h'
    · rintro r s' ⟨hc', hentered, hpoint⟩ -
      exact ⟨hw.of_entered hentered hc', fun hP => (hundo hP).congr hpoint⟩
    · intro s' hthrown hP _
      have hins := hthrown.insertThrown (hundo hP) (by simp) (by simp)
      exact hins.wellFormed_of_undoable hw (hundo hP)
  · refine (emplaceImpl_over v hroom).mono ?_ ?_ fun _ h' => h'
    · exact fun _ s' h' hroom' => absurd hroom' h'
    · exact fun s' h' _ hroom' => absurd hroom' h'

theorem emplaceImpl_formed (v : τ.Value) (h : Formed s.table) :
    Action.Post Stuck.anyhow (emplaceImpl v) s (fun _ s' => Formed s'.table)
      (fun _ => True) :=
  (emplaceImpl_undoing v h.undoing).mono (fun _ _ h' => h'.formed) (fun _ _ => trivial)
    fun _ h' => h'

theorem insertRange_undoing {P : Prop} (values : List τ.Value) (h : Undoing P s) :
    Action.Post Stuck.anyhow (insertRange values) s (fun _ => Undoing P)
      (fun s' => P → Formed s'.table) := by
  unfold insertRange
  refine Action.Post.forEach (fun _ => Undoing P) h ?_
  intro done v rest s1 _ h1
  exact Action.Post.bind (emplaceImpl_undoing v h1) (fun _ h' => h') fun _ _ h' => h'

/-! ## Empty tables -/

theorem initial_wellFormed (factor : LoadFactor τ.rounding) (hash : τ.Key → UInt64)
    (equal : τ.Key → τ.Key → Bool) (alloc : τ.Alloc) :
    WellFormed (Table.initial factor hash equal alloc : Table τ) := by
  obtain ⟨hslots, hfilled, -⟩ := initial_sound factor hash equal alloc
  exact WellFormed.of_empty ⟨hslots, hfilled, Or.inl ⟨rfl, rfl, rfl⟩⟩ rfl

/-- An empty table that adopts another policy. -/
theorem WellFormed.adoptPolicy (h : WellFormed t) (hempty : t.iteration = []) (o : Table τ) :
    WellFormed (t.adoptPolicy o) := by
  have harena : SameArena t (t.adoptPolicy o) := ⟨rfl, rfl, rfl, rfl⟩
  refine WellFormed.of_empty ⟨harena.slots h.consistent.slots,
    harena.filled h.consistent.filled, ?_⟩ hempty
  have hindex : IndexInOrder (ownHash t) t.iteration (t.adoptPolicy o) :=
    h.consistent.index.sameIndex ⟨rfl, rfl, rfl, rfl⟩
  refine hindex.congr fun x hx => ?_
  rw [hempty] at hx
  cases hx

theorem WellFormed.realloc (h : WellFormed t) (a v : τ.Alloc) :
    WellFormed { t with allocator := a, vectorAllocator := v } := by
  have harena : SameArena t { t with allocator := a, vectorAllocator := v } :=
    ⟨rfl, rfl, rfl, rfl⟩
  have hr : Refactored t { t with allocator := a, vectorAllocator := v } :=
    ⟨rfl, fun _ => rfl, rfl, rfl, rfl⟩
  refine h.of_refactored hr ⟨harena.slots h.consistent.slots,
    harena.filled h.consistent.filled, ?_⟩
  exact h.consistent.index.sameIndex ⟨rfl, rfl, rfl, rfl⟩

/-- A table without storage. -/
theorem reset_wellFormed (hc : t.chunks = []) : WellFormed t.resetToEmptyState := by
  have heq : t.resetToEmptyState =
      { Table.initial t.maxLoadFactor t.hashFunction t.keyEqual t.allocator with
        vectorAllocator := t.vectorAllocator } := by
    unfold Table.resetToEmptyState Table.initial
    rw [hc]
  rw [heq]
  exact (initial_wellFormed _ _ _ _).realloc _ _

theorem room_of_empty (h : t.iteration = []) : Room t := by
  unfold Room Table.size
  rw [h]
  decide

/-- An empty table gets as many buckets as it asks for, if `std::size_t` has that many. -/
theorem reserve_empty (n : ℕ) (hw : WellFormed s.table) (hempty : s.table.iteration = [])
    (hrange : bucketCountForElements s.table.maxLoadFactor n = none → U .undefined) :
    Action.Post U (reserve n) s
      (fun _ s' => WellFormed s'.table ∧ s'.table.iteration = []) (InsertThrown s) := by
  by_cases hnone : bucketCountForElements s.table.maxLoadFactor n = none
  · exact post_reserve (fun h => hrange h) fun m hm => by rw [hnone] at hm; cases hm
  refine (reserve_spec n hw.consistent (room_of_empty hempty)
    (reserveFits_of_empty hempty hnone)).mono ?_ (fun _ h' => h') fun _ h' => h'
  rintro ⟨⟩ s' ⟨hsame, hc', -⟩
  exact ⟨hw.of_sameElements hsame hc', hsame.iteration.trans hempty⟩

/-- An allocation of buckets has nothing to do with such a fault. -/
theorem reserve_fault (n : ℕ) (hc : Consistent s.table) (hempty : s.table.iteration = [])
    (hundo : Undoable s.heap.fault) :
    Action.Post Stuck.anyhow (reserve n) s
      (fun _ s' => s'.table.chunks = s.table.chunks ∧ s'.heap.fault = s.heap.fault)
      (fun _ => False) := by
  refine post_reserve (fun _ => trivial) fun m _ => ?_
  refine post_rehash (fun _ => trivial) ?_ (fun _ => ⟨rfl, rfl⟩) ?_
  · intro _ _
    refine Action.Post.bind deallocateBuckets_spec (fun _ h' => h') ?_
    rintro ⟨⟩ s1 ⟨htable, hfault⟩
    have hchunks : s1.table.chunks = s.table.chunks := by rw [htable]
    exact ⟨hchunks, hfault⟩
  · intro k hk _
    have hsize : s.table.size ≤ 2 ^ k := by
      unfold Table.size
      rw [hempty]
      exact Nat.zero_le _
    refine (rehashTo_spec hk hc.slots.iteration_nodup (fun _ hx => hc.live hx) hsize
      (room_of_empty hempty)).mono (fun _ s' h' => ?_) (fun s' h' => ?_) fun _ h' => h'
    · refine ⟨h'.arena.chunks, h'.fault.same fun p hp => hundo.ne ?_⟩
      simp only [List.mem_cons, List.not_mem_nil, or_false] at hp
      rcases hp with rfl | rfl <;> simp
    · rcases h'.index with ⟨hp, -⟩ | ⟨hp, -⟩
      · exact hundo.ne (by simp) hp
      · exact hundo.ne (by simp) hp

/-- `reserve` on an empty table, before elements are entered. -/
theorem reserve_undoing {P : Prop} (n : ℕ) (hw : WellFormed s.table)
    (hempty : s.table.iteration = []) (hundo : P → Undoable s.heap.fault) :
    Action.Post Stuck.anyhow (reserve n) s
      (fun _ s' => WellFormed s'.table ∧ s'.table.iteration = [] ∧ (P → Undoable s'.heap.fault))
      (fun _ => ¬ P) := by
  have hspec := reserve_empty (U := Stuck.anyhow) n hw hempty fun _ => trivial
  by_cases hP : P
  · refine (hspec.and (reserve_fault n hw.consistent hempty (hundo hP))).mono ?_
      (fun _ h' => h'.2.elim) fun _ h' => h'
    rintro ⟨⟩ s' ⟨⟨hw', hempty'⟩, -, hfault⟩
    exact ⟨hw', hempty', fun hP => by rw [hfault]; exact hundo hP⟩
  · exact hspec.mono (fun _ _ h' => ⟨h'.1, h'.2, fun h => absurd h hP⟩) (fun _ _ => hP)
      fun _ h' => h'

theorem afterSteal_wellFormed (t : Table τ) : WellFormed t.afterSteal :=
  (initial_wellFormed t.maxLoadFactor t.hashFunction t.keyEqual t.allocator).realloc _ _

theorem destroyEverything_chunks :
    Action.Post Stuck.anyhow destroyEverything s (fun _ s' => s'.table.chunks = [])
      (fun _ => False) := by
  unfold destroyEverything deallocateChunks
  refine Action.Post.bind (Q := fun _ _ => True) (E := fun _ => False) ?_ (fun _ h' => h') ?_
  · unfold destroyAllValues
    rw [post_getTable]
    refine Action.Post.forEach (fun _ _ => True) trivial ?_
    rintro done node rest s1 - -
    exact Action.Post.of_bind_pure (post_destroyValue (fun _ _ => trivial) fun _ => trivial)
  rintro ⟨⟩ s1 -
  refine Action.Post.bind deallocateBuckets_spec (fun _ h' => h') ?_
  rintro ⟨⟩ s2 -
  rw [post_getTable]
  refine Action.Post.bind (Action.Post.forEach (fun _ _ => True) trivial ?_)
    (fun _ h' => h') ?_
  · exact fun _ _ _ _ _ _ => trivial
  rintro ⟨⟩ s3 -
  rw [post_modifyTable_last]

/-! ## The first allocation -/

/-- The table has neither buckets nor chunks. -/
def Unallocated (t : Table τ) : Prop := t.bucketCount = 0 ∧ t.chunks = []

instance : DecidablePred (Unallocated : Table τ → Prop) := fun t =>
  decidable_of_iff (t.bucketCount = 0 ∧ t.chunks.length = 0)
    (and_congr_right fun _ => List.length_eq_zero_iff)

/-- The first allocation of buckets throws, or the first one of a chunk. -/
def FirstAllocationThrows (fault : Option (Point × ℕ)) : Prop :=
  ∃ p ∈ [Point.bucketArray, .chunk, .chunksGrowth], fault = some (p, 0)

instance (fault : Option (Point × ℕ)) : Decidable (FirstAllocationThrows fault) :=
  inferInstanceAs (Decidable (∃ p ∈ _, _))

theorem FirstAllocationThrows.faultAt {fault : Option (Point × ℕ)}
    (h : FirstAllocationThrows fault) : FaultAt [.bucketArray, .chunk, .chunksGrowth] fault := by
  obtain ⟨p, hp, rfl⟩ := h
  exact ⟨p, hp, rfl⟩

/-- The first chunk is not there, or `chunks_` has no room for it. -/
def FirstChunkThrows (fault : Option (Point × ℕ)) : Prop :=
  fault = some (.chunk, 0) ∨ fault = some (.chunksGrowth, 0)

theorem FirstChunkThrows.undoable {fault : Option (Point × ℕ)} (h : FirstChunkThrows fault) :
    Undoable fault := by
  rcases h with rfl | rfl
  · exact ⟨.chunk, by simp, rfl⟩
  · exact ⟨.chunksGrowth, by simp, rfl⟩

/-- If the table gets its buckets, its first chunk is what it does not get. -/
theorem reserve_firstAllocation {n : ℕ} (hn : n ≠ 0) (hw : WellFormed s.table)
    (hempty : s.table.iteration = []) (hnone : Unallocated s.table)
    (hfirst : FirstAllocationThrows s.heap.fault) :
    Action.Post Stuck.anyhow (reserve n) s
      (fun _ s' => WellFormed s'.table ∧ s'.table.chunks = [] ∧ FirstChunkThrows s'.heap.fault)
      (fun s' => WellFormed s'.table) := by
  have hspec := reserve_empty (U := Stuck.anyhow) n hw hempty fun _ => trivial
  have hfirst' : s.heap.fault = some (.bucketArray, 0) ∨ FirstChunkThrows s.heap.fault := by
    obtain ⟨p, hp, hf⟩ := hfirst
    simp only [List.mem_cons, List.not_mem_nil, or_false] at hp
    rcases hp with rfl | rfl | rfl
    · exact Or.inl hf
    · exact Or.inr (Or.inl hf)
    · exact Or.inr (Or.inr hf)
  rcases hfirst' with harray | hchunk
  · refine (hspec.and (reserve_first hn harray)).mono (fun _ _ h' => h'.2.elim) ?_ fun _ h' => h'
    rintro s' ⟨hthrown, -⟩
    exact hthrown.wellFormed hw (by simp [harray, faultPoint]) fun _ => hnone.1
  · refine (hspec.and (reserve_fault n hw.consistent hempty hchunk.undoable)).mono ?_
      (fun _ h' => h'.2.elim) fun _ h' => h'
    rintro ⟨⟩ s' ⟨⟨hw', -⟩, hchunks, hfault⟩
    exact ⟨hw', hchunks.trans hnone.2, by rwa [hfault]⟩

theorem acquireNode_firstChunk (h : Slots s.table []) (hnone : s.table.chunks = [])
    (hf : FirstChunkThrows s.heap.fault) :
    Action.Post U acquireNode s (fun _ _ => False)
      (fun s' => s'.table = s.table ∧ s'.heap.moved = s.heap.moved) := by
  have hsize : s.table.arenaSize = 0 := by
    unfold Table.arenaSize
    rw [hnone]
    exact Nat.zero_mul _
  have hcovered := h.covered
  have hroom : ¬ s.table.arenaHighWater < s.table.arenaSize := by omega
  have hhead : ¬ s.table.freeListHead ≠ kNullIndex := by
    intro hhead
    have hlt := (h.pop hhead).lt_highWater (Or.inr (List.mem_singleton_self _))
    have hlt' : s.table.freeListHead < s.table.arenaHighWater := hlt
    omega
  unfold acquireNode ensureArenaSlot
  rw [Action.bind_assoc, post_getTable, if_neg hhead, if_neg hroom]
  simp only [allocateChunk, Action.bind_assoc]
  refine post_mayThrow_bind (fun f hticks => ?_) fun _ _ => ⟨rfl, rfl⟩
  rw [post_freshId, post_modifyHeap, post_getTable, Action.pure_bind]
  refine post_mayThrow_bind (fun f' hticks' => ?_) fun _ _ => ⟨rfl, rfl⟩
  -- one of the two passages has thrown
  rcases hf with hf | hf
  · exact absurd hf hticks.ne_first
  · exact absurd ((hticks.eq_of_ne (by simp [hf, faultPoint])).trans hf) hticks'.ne_first

/-- The first element of a table without chunks is not constructed. -/
theorem emplaceImpl_firstChunk (v : τ.Value) (h : Slots s.table []) (hnone : s.table.chunks = [])
    (hf : FirstChunkThrows s.heap.fault) :
    Action.Post U (emplaceImpl v) s (fun _ _ => False)
      (fun s' => s'.table = s.table ∧ s'.heap.moved = s.heap.moved) := by
  unfold emplaceImpl buildNode
  rw [Action.bind_assoc]
  exact Action.Post.bind (acquireNode_firstChunk h hnone hf) (fun _ h' => h') fun _ _ h' => h'.elim

/-! ## A value that is moved from -/

theorem keeps_assignValue_of {I : Table τ → Prop} (x : ℕ) (g : τ.Value → τ.Value)
    (h : ∀ t t', I t → Assigned t x g t' → (Slots t [] → Slots t' []) → I t') :
    KeepsTable I (assignValue x g) := by
  intro s hs
  cases he : (s.table.nodeAt x).storage with
  | none =>
      rw [run_assignValue_none he]
      exact hs
  | some e =>
      have hspec := assignValue_spec (U := Stuck.anyhow) x g (s := s) fun _ => trivial
      obtain ⟨ha, -, hslots⟩ := hspec.ok_of_run (run_assignValue he g)
      rw [run_assignValue he]
      exact h _ _ hs ha (hslots [])

theorem keeps_assign_under {H : ℕ → UInt64} (x : ℕ) (g : τ.Value → τ.Value) :
    KeepsTable (ConsistentUnder H) (assignValue x g) :=
  keeps_assignValue_of x g fun _ _ h ha hslots => h.assign ha (hslots h.slots)

theorem assignValue_heap (x : ℕ) (g : τ.Value → τ.Value) (s : Store τ) :
    ((assignValue x g).run s).2.heap = s.heap := by
  cases hs : (s.table.nodeAt x).storage with
  | none => rw [run_assignValue_none hs]
  | some e => rw [run_assignValue hs]

end Fum.Analysis
