import Fum.Analysis.Ownership
import Fum.Analysis.Refilling
import Fum.Analysis.Runs
import Fum.Model.Instances

/-!
# Storage belongs to an equal allocator

What the copy and move operations do with allocators, for every setting of the
propagation flags. The vectors of a table have allocators of their own, which stay behind when
a copy assignment propagates and a move assignment does not: a table and its vectors then
disagree, and a later exchange of storage has undefined behaviour or leaves chunks with two
tables.
-/

set_option autoImplicit false

namespace Fum.Interface

open Fum.Model Fum.Analysis Effects

variable {τ : Traits} {w : World τ} {i j : ℕ} {t u : Table τ} {steps : List (Step τ)}

/-- The bucket array and the chunks of every table were allocated by an allocator equal to
its own, and no two tables share a bucket array or a chunk. -/
structure StorageOwned (w : World τ) : Prop where
  tagged : ∀ i t, w.table? i = some t →
    (∀ array ∈ t.buckets, array.tag = t.allocator) ∧ ∀ chunk ∈ t.chunks, chunk.tag = t.allocator
  apart : ∀ i j t u, i ≠ j → w.table? i = some t → w.table? j = some u →
    (∀ a ∈ t.buckets, ∀ b ∈ u.buckets, a.id ≠ b.id) ∧ ∀ c ∈ t.chunks, ∀ d ∈ u.chunks, c.id ≠ d.id

theorem buckets_mem_storageOf {t : Table τ} {array : BucketArray τ} (h : array ∈ t.buckets) :
    (array.id, array.tag) ∈ storageOf t :=
  List.mem_append_left _ (Option.mem_toList.mpr (Option.mem_map_of_mem _ h))

theorem chunk_mem_storageOf {t : Table τ} {chunk : Chunk τ} (h : chunk ∈ t.chunks) :
    (chunk.id, chunk.tag) ∈ storageOf t :=
  chunks_mem_storageOf (List.mem_map_of_mem h)

theorem storageOwned_of_owned (h : Owned w) : StorageOwned w where
  tagged i t ht := ⟨fun _ ha => h.tagged i t ht _ (buckets_mem_storageOf ha),
    fun _ hc => h.tagged i t ht _ (chunk_mem_storageOf hc)⟩
  apart i j t u hne ht hu := by
    have hdisjoint : ∀ p ∈ storageOf t, ∀ q ∈ storageOf u, p.1 ≠ q.1 := fun p hp q hq heq =>
      hne (h.unique i j p.1 ⟨t, ht, List.mem_map_of_mem hp⟩
        ⟨u, hu, heq ▸ List.mem_map_of_mem hq⟩)
    exact ⟨fun _ ha _ hb => hdisjoint _ (buckets_mem_storageOf ha) _ (buckets_mem_storageOf hb),
      fun _ hc _ hd => hdisjoint _ (chunk_mem_storageOf hc) _ (chunk_mem_storageOf hd)⟩

/-- In every state of every run the storage of a table was allocated by an equal allocator,
and no block of it belongs to another table, whatever the propagation flags say and whatever
throws. -/
theorem storageOwned_of_run (hrun : Run World.empty steps w) : StorageOwned w :=
  storageOwned_of_owned (run_owned hrun)

/-! ## Exchanges of storage -/

/-- The statement returns, and leaves all storage with its owners. -/
def KeepsStorage (w : World τ) (op : WorldOp τ) : Prop :=
  ∃ w', (Step.exec ⟨op, none⟩).run w = (.ok (), w') ∧ StorageOwned w'

/-- A statement that can only get stuck, and that only for want of `C`. -/
theorem keepsStorage_iff {op : WorldOp τ} {C : Prop} (hrun : Run World.empty steps w)
    (hpost : Action.Post (fun _ => ¬ C) op.exec (started ⟨op, none⟩ w) (fun _ _ => C)
      (fun _ => False)) : KeepsStorage w op ↔ C := by
  have hkeeps : Action.Post (fun _ => ¬ C) op.exec (started ⟨op, none⟩ w)
      (fun _ w' => C ∧ StorageOwned w') (fun _ => False) := by
    refine hpost.with_run.mono ?_ (fun _ h => h.1) fun _ h => h
    rintro ⟨⟩ w' ⟨hC, hok⟩
    have hends : Step.Ends ⟨op, none⟩ w w' := Or.inl hok
    exact ⟨hC, storageOwned_of_run (hrun.snoc hends)⟩
  refine Iff.trans ⟨?_, ?_⟩ hkeeps.returns_iff
  · exact fun ⟨w', hok, h⟩ => ⟨(), w', hok, h⟩
  · exact fun ⟨_, w', hok, h⟩ => ⟨w', hok, h⟩

theorem swap_keepsStorage_iff (hrun : Run World.empty steps w) (hne : i ≠ j)
    (hi : w.table? i = some t) (hj : w.table? j = some u) :
    KeepsStorage w (.swap i j) ↔ Exchangeable t u :=
  keepsStorage_iff hrun
    (post_swap (w := started ⟨.swap i j, none⟩ w) hi hj hne id fun hexchange => hexchange)

theorem moveConstructWith_keepsStorage_iff (hrun : Run World.empty steps w)
    (hj : w.table? j = some u) :
    KeepsStorage w (.moveConstructWith j u.allocator) ↔ u.givesUpChunks
      (Table.initial u.maxLoadFactor u.hashFunction u.keyEqual u.allocator) := by
  refine keepsStorage_iff hrun (Action.Post.bind ?_ (fun _ h => h) fun _ _ h => h)
  unfold moveConstructWith
  refine post_readTable (fun source hsource => ?_) fun hnone => ?_
  · cases hj.symm.trans hsource
    rw [post_newTable, if_pos rfl]
    refine Action.Post.bind (Action.Post.cleanup (E := fun _ => False)
      (post_stealStorage (table?_newTable ..) (table?_append_of_some hj _)
        (lt_of_join_eq_some hj).ne' id fun hgives => hgives) fun _ h => h.elim)
      (fun _ h => h) fun _ _ h => h
  · exact absurd hnone (by rw [show (started _ w).table? j = some u from hj]; simp)

theorem moveAssign_keepsStorage_iff (hrun : Run World.empty steps w)
    (hsteps : EachStep Ordinary World.empty steps) (hne : i ≠ j) (hi : w.table? i = some t)
    (hj : w.table? j = some u) (hsteal : τ.pocma = true ∨ t.allocator = u.allocator) :
    KeepsStorage w (.moveAssign i j) ↔ u.givesUpChunks t := by
  obtain ⟨⟨lost, hsound⟩, -⟩ := run_sound hrun hsteps
  obtain ⟨hslots, hfilled⟩ := hsound.tables i t hi
  refine keepsStorage_iff hrun ?_
  have hp0 : Pair (started ⟨.moveAssign i j, none⟩ w) i j t u
      (started ⟨.moveAssign i j, none⟩ w) := Pair.refl hne hi hj
  show Action.Post _ (moveAssign i j) _ _ _
  unfold moveAssign
  rw [if_neg hne]
  refine post_readTable (fun source hsource => ?_) fun hnone =>
    absurd hnone (by rw [hp0.right]; simp)
  refine post_readTable (fun this hthis => ?_) fun hnone =>
    absurd hnone (by rw [hp0.left]; simp)
  cases hj.symm.trans hsource
  cases hi.symm.trans hthis
  rw [if_pos hsteal]
  refine hp0.post_left ((destroyEverything_spec (s := ⟨t, (started _ w).heap⟩) hslots hfilled
    rfl).mono (fun _ s1 h1 hp1 => ?_) (fun _ h => h.elim) fun _ h => h)
  refine hp1.post_modifyLeft fun w2 hp2 _ => ?_
  -- the vectors of the receiver keep their allocator until the storage arrives
  have hvectors : ∀ t' : Table τ, t'.vectorAllocator = t.vectorAllocator →
      (u.givesUpChunks t' ↔ u.givesUpChunks t) := fun t' h => by
    unfold Table.givesUpChunks
    rw [h]
  have hsame := hvectors (if τ.pocma then { s1.table.resetToEmptyState with
    allocator := u.allocator } else s1.table.resetToEmptyState) (by split <;> exact h1.2.1)
  exact post_stealStorage hp2.left hp2.right hne (fun hkeeps => hkeeps ∘ hsame.mpr) hsame.mp

/-- In every state of every run the storage of a table was allocated by an equal allocator, and
no block of it belongs to two tables. From there, the statements that exchange storage go on as
long as the vectors can change hands: a swap of tables with equal allocators, or under
propagation, if and only if their vectors have equal ones as well or they propagate too; a move
that steals if and only if it leaves no chunk in the vector of the source. -/
theorem storage_owned_iff (hrun : Run World.empty steps w) :
    StorageOwned w ∧
      (∀ i j t u, i ≠ j → w.table? i = some t → w.table? j = some u →
        (τ.pocs = true ∨ t.allocator = u.allocator) →
          (KeepsStorage w (.swap i j) ↔
            τ.pocs = true ∨ t.vectorAllocator = u.vectorAllocator)) ∧
      (∀ j u, w.table? j = some u →
        (KeepsStorage w (.moveConstructWith j u.allocator) ↔ u.givesUpChunks
          (Table.initial u.maxLoadFactor u.hashFunction u.keyEqual u.allocator))) ∧
      ∀ i j t u, EachStep Ordinary World.empty steps → i ≠ j → w.table? i = some t →
        w.table? j = some u → (τ.pocma = true ∨ t.allocator = u.allocator) →
          (KeepsStorage w (.moveAssign i j) ↔ u.givesUpChunks t) := by
  refine ⟨storageOwned_of_run hrun, fun i j t u hne hi hj hequal => ?_,
    fun j u hj => moveConstructWith_keepsStorage_iff hrun hj,
    fun i j t u hsteps hne hi hj hsteal =>
      moveAssign_keepsStorage_iff hrun hsteps hne hi hj hsteal⟩
  rw [swap_keepsStorage_iff hrun hne hi hj]
  unfold Exchangeable
  rw [or_and_left]
  exact and_iff_right hequal

/-- Tables with unequal allocators, copied and moved without propagation. -/
def unequalSteps : List (Step (CountedMap false false false)) :=
  [⟨.construct 0 (fun k => UInt64.ofNat k) (fun a b => a == b) 1, none⟩,
    ⟨.construct 0 (fun k => UInt64.ofNat k) (fun a b => a == b) 2, none⟩,
    ⟨.table 0 (.insert (1, 10)), none⟩, ⟨.table 1 (.insert (2, 20)), none⟩,
    ⟨.copyConstructWith 0 3, none⟩, ⟨.moveAssign 0 1, none⟩, ⟨.copyAssign 1 2, none⟩,
    ⟨.moveConstructWith 0 2, none⟩, ⟨.swap 1 3, none⟩, ⟨.destroy 2, none⟩]

theorem storage_owned_unequal : StorageOwned (finish World.empty unequalSteps) :=
  (storage_owned_iff (run_of_completes (by decide +kernel))).1

/-- A copy assignment gives the first table the allocator of the others, which its vectors do
not follow. -/
def reboundSteps : List (Step (CountedMap true false false)) :=
  [⟨.construct 0 (fun k => UInt64.ofNat k) (fun a b => a == b) 1, none⟩,
    ⟨.construct 0 (fun k => UInt64.ofNat k) (fun a b => a == b) 2, none⟩,
    ⟨.construct 0 (fun k => UInt64.ofNat k) (fun a b => a == b) 2, none⟩,
    ⟨.table 0 (.insert (1, 10)), none⟩, ⟨.table 1 (.insert (2, 20)), none⟩,
    ⟨.table 2 (.insert (3, 30)), none⟩, ⟨.copyAssign 0 1, none⟩]

/-- It can then neither be swapped with a table that has its allocator, nor take over the
storage of one. -/
theorem rebound_cannot_exchange :
    EachStep Step.Completes World.empty reboundSteps ∧
      (((finish World.empty reboundSteps).table? 0).map Table.allocator = some (2 : ℕ) ∧
        ((finish World.empty reboundSteps).table? 2).map Table.allocator = some (2 : ℕ)) ∧
      ((Step.exec ⟨.swap 0 2, none⟩).run (finish World.empty reboundSteps)).1 = .undefined ∧
      ¬ KeepsStorage (finish World.empty reboundSteps) (.swap 0 2) ∧
      ¬ KeepsStorage (finish World.empty reboundSteps) (.moveAssign 0 2) := by
  have hswap : ((Step.exec ⟨.swap 0 2, none⟩).run (finish World.empty reboundSteps)).1 =
      .undefined := by decide +kernel
  have hmove : ((Step.exec ⟨.moveAssign 0 2, none⟩).run (finish World.empty reboundSteps)).1 =
      .undefined := by decide +kernel
  refine ⟨by decide +kernel, by decide +kernel, hswap, ?_, ?_⟩
  · rintro ⟨w', hok, -⟩
    rw [hok] at hswap
    cases hswap
  · rintro ⟨w', hok, -⟩
    rw [hok] at hmove
    cases hmove

end Fum.Interface
