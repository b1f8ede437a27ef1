import Fum.Analysis.GrowthCosts
import Fum.Analysis.SlotNumbers

/-!
# The chunks of a table

A chunk is allocated when every slot below the high-water mark, which is at the end of the last
chunk, holds an element. So the chunks are never more than the elements needed when the table
had the most of them, and one. Everything but `acquire_node` leaves the chunks alone.
-/

set_option autoImplicit false

namespace Fum.Analysis

open Fum.Model Effects RoundedArithmetic

variable {τ : Traits} {α β : Type} {s s' : Store τ} {t t' : Table τ} {i n p : ℕ} {ids : List ℕ}
  {key : τ.Key}

/-! ## Calls that leave the chunks alone -/

/-- These are the chunks of the table. -/
def Housed (ids : List ℕ) (s : Store τ) : Prop := chunkIds s.table = ids

theorem housed_forgetful (ids : List ℕ) : Forgetful (Housed ids : Store τ → Prop) :=
  forgetful_table fun t => chunkIds t = ids

theorem Retains.of_keeps {J : Store τ → Prop} {x : Exec τ α} (h : Action.Keeps J x) :
    Retains J x := fun _ hs => h.post hs

theorem Retains.of_arena {x : Exec τ α} (h : ∀ s : Store τ, Action.Post Stuck.anyhow x s
    (fun _ s' => SameArena s.table s'.table) fun s' => SameArena s.table s'.table) :
    Retains (Housed ids) x := fun s hs =>
  (h s).mono (fun _ _ h' => h'.chunkIds.trans hs) (fun _ h' => h'.chunkIds.trans hs)
    fun _ h' => h'

theorem setNode_housed (i : ℕ) (node : Table τ → Node τ) :
    Retains (Housed ids) (modifyTable fun t => t.setNode i (node t)) := fun s hs =>
  (chunkIds_setNode s.table i _).trans hs

theorem releaseNode_housed (i : ℕ) : Retains (Housed ids) (releaseNode i : Exec τ Unit) :=
  fun s hs => (chunkIds_setNode s.table i _).trans hs

theorem destroyValue_housed (i : ℕ) : Retains (Housed ids) (destroyValue i : Exec τ Unit) :=
  Retains.bind (Retains.of_keeps (keeps_elementAt i)) fun _ =>
    Retains.bind (Retains.of_keeps ((housed_forgetful ids).modifyHeap fun _ => le_rfl)) fun _ =>
      setNode_housed i _

theorem assignValue_housed (i : ℕ) (g : τ.Value → τ.Value) :
    Retains (Housed ids) (assignValue i g) :=
  Retains.bind (Retains.of_keeps (keeps_elementAt i)) fun _ => setNode_housed i _

theorem linkIntoIteration_housed (i : ℕ) :
    Retains (Housed ids) (linkIntoIteration i : Exec τ Unit) :=
  Retains.bind (setNode_housed i _) fun _ =>
    Retains.bind (Retains.of_keeps (keeps_mayThrow (housed_forgetful ids) _)) fun _ _ hs => hs

theorem rehashTo_housed (n : ℕ) : Retains (Housed ids) (rehashTo n : Exec τ Unit) :=
  Retains.of_arena fun _ => (rehashTo_arena n).mono (fun _ _ h => h.1) (fun _ h => h.1) fun _ h => h

theorem reserveForOneMore_housed : Retains (Housed ids) (reserveForOneMore : Exec τ Unit) :=
  Retains.of_arena fun _ =>
    reserveForOneMore_arena.mono (fun _ _ h => h.1) (fun _ h => h.1) fun _ h => h

theorem insertKnownAbsent_housed (i : ℕ) (hash : UInt64) :
    Retains (Housed ids) (insertKnownAbsent i hash : Exec τ Unit) :=
  Retains.of_arena fun _ => (insertKnownAbsent_frame [] i hash).mono (fun _ _ h => h.arena)
    (fun _ h => h.elim) fun _ h => h

theorem eraseBucket_housed (b : ℕ) : Retains (Housed ids) (eraseBucket b : Exec τ Unit) :=
  Retains.of_arena fun _ => (eraseBucket_frame [] b).mono (fun _ _ h => h.arena)
    (fun _ h => h.elim) fun _ h => h

theorem attachNode_housed (i : ℕ) : Retains (Housed ids) (attachNode i : Exec τ Unit) := by
  refine Retains.bind (Retains.cleanup ?_ ?_) fun _ => ?_
  · exact Retains.bind reserveForOneMore_housed fun _ => linkIntoIteration_housed i
  · exact Retains.bind (destroyValue_housed i) fun _ => releaseNode_housed i
  · exact Retains.bind (Retains.of_keeps (keeps_keyAt i)) fun key =>
      Retains.bind (Retains.of_keeps (keeps_callMixedHash (housed_forgetful ids) key)) fun hash =>
        insertKnownAbsent_housed i hash

theorem locate_housed {g : ℕ → Exec τ α} (hg : ∀ b, Retains (Housed ids) (g b)) :
    Retains (Housed ids) (callMixedHash key >>= fun hash => findBucket key hash >>= g) :=
  Retains.bind (Retains.of_keeps (keeps_callMixedHash (housed_forgetful ids) key)) fun hash =>
    Retains.bind (Retains.of_keeps (keeps_findBucket (housed_forgetful ids) key hash)) hg

theorem unlinkFromIteration_housed (i : ℕ) :
    Retains (Housed ids) (unlinkFromIteration i : Exec τ Unit) := by
  refine Retains.bind Retains.getTable fun t => ?_
  cases t.iteration.getLast? with
  | none => exact Retains.undefined
  | some last =>
      exact Retains.ite (Retains.bind (fun _ hs => hs) fun _ =>
        Retains.bind (setNode_housed last _) fun _ => fun _ hs => hs) Retains.undefined

theorem eraseLocated_housed (b : ℕ) : Retains (Housed ids) (eraseLocated b : Exec τ Unit) :=
  Retains.bind (Retains.of_keeps (keeps_bucketAt b)) fun _ =>
    Retains.bind (eraseBucket_housed b) fun _ => Retains.bind (destroyValue_housed _) fun _ =>
      Retains.bind (unlinkFromIteration_housed _) fun _ => releaseNode_housed _

theorem eraseNode_housed (node : ℕ) : Retains (Housed ids) (eraseNode node : Exec τ Unit) :=
  Retains.bind (Retains.of_keeps (keeps_keyAt node)) fun _ =>
    locate_housed fun b => eraseLocated_housed b

theorem extractLocated_housed (b : ℕ) :
    Retains (Housed ids) (extractLocated b : Exec τ (Handle τ)) := by
  have hmemory : ∀ f : Heap → Heap, (∀ h, h.nextId ≤ (f h).nextId) →
      Retains (Housed ids) (modifyHeap f : Exec τ Unit) := fun f hf =>
    Retains.of_keeps ((housed_forgetful ids).modifyHeap hf)
  refine Retains.bind (Retains.of_keeps (keeps_bucketAt b)) fun bucket => Retains.bind ?_ fun id =>
    Retains.bind (Retains.of_keeps (keeps_elementAt _)) fun source =>
      Retains.bind (Retains.cleanup (Retains.of_keeps
        (keeps_constructElement (housed_forgetful ids) _)) (hmemory _ fun _ => le_rfl)) fun _ =>
          Retains.bind (assignValue_housed _ _) fun _ => Retains.bind (eraseLocated_housed b)
            fun _ => Retains.bind Retains.getTable fun _ => Retains.pure _
  exact Retains.bind (Retains.of_keeps (keeps_mayThrow (housed_forgetful ids) _)) fun _ =>
    Retains.bind (Retains.of_keeps (keeps_freshId (housed_forgetful ids))) fun _ =>
      Retains.bind (hmemory _ fun _ => le_rfl) fun _ => Retains.pure _

theorem clear_housed : Retains (Housed ids) (clear : Exec τ Unit) := by
  refine Retains.bind Retains.getTable fun t => Retains.ite (Retains.pure _) ?_
  exact Retains.bind (Retains.bind Retains.getTable fun _ =>
    Retains.forEach fun i => destroyValue_housed i) fun _ => fun _ hs => hs

theorem rehash_housed (n : ℕ) : Retains (Housed ids) (rehash n : Exec τ Unit) := by
  refine Retains.bind Retains.getTable fun t => Retains.bind (Retains.of_keeps (keeps_defined _))
    fun target => Retains.ite (Retains.ite ?_ (Retains.pure _))
      (Retains.bind (Retains.of_keeps (keeps_defined _)) fun _ => rehashTo_housed _)
  refine Retains.bind (Retains.bind Retains.getTable fun t => ?_) fun _ => fun _ hs => hs
  cases t.buckets with
  | none => exact Retains.pure _
  | some array =>
      exact Retains.bind (Retains.of_keeps ((housed_forgetful ids).modifyHeap fun _ => le_rfl))
        fun _ => fun _ hs => hs

theorem setMaxLoadFactor_housed (z : FloatValue τ.rounding) :
    Retains (Housed ids) (setMaxLoadFactor z : Exec τ Unit) := by
  refine Retains.bind (fun _ hs => hs) fun _ s hs => ?_
  show chunkIds (if s.table.bucketCount ≠ 0 then _ else s.table) = ids
  split
  · exact hs
  · exact hs

/-- The operation may insert an element. -/
def Inserts : Op τ → Bool
  | .insert _ | .tryEmplace _ _ | .insertOrAssign _ _ => true
  | _ => false

theorem Op.housed {op : Op τ} (hop : Inserts op = false) : Retains (Housed ids) op.exec := by
  cases op with
  | insert | tryEmplace | insertOrAssign => cases hop
  | assign node mapped =>
      exact Retains.bind (assignValue_housed node _) fun _ => Retains.pure _
  | eraseKey key =>
      refine Retains.bind (locate_housed fun b => Retains.bind Retains.getTable fun t =>
        Retains.ite (Retains.pure _) ?_) fun _ => Retains.pure _
      exact Retains.bind (eraseLocated_housed b) fun _ => Retains.pure _
  | eraseAt node =>
      refine Retains.bind (Retains.bind Retains.getTable fun t => ?_) fun _ => Retains.pure _
      exact Retains.bind (eraseNode_housed node) fun _ =>
        Retains.bind Retains.getTable fun _ => Retains.pure _
  | eraseRange first last =>
      refine Retains.bind (Retains.bind Retains.getTable fun t => ?_) fun _ => Retains.pure _
      cases t.range (kNullIndex + 1) first last with
      | none => exact Retains.undefined
      | some doomed =>
          exact Retains.bind (Retains.forEach fun _ =>
            Retains.of_keeps (keeps_mayThrow (housed_forgetful ids) _)) fun _ =>
              Retains.bind (Retains.forEach fun node => eraseNode_housed node)
                fun _ => Retains.pure _
  | extractKey key =>
      exact Retains.bind (locate_housed fun b => Retains.bind Retains.getTable fun t =>
        Retains.ite (Retains.pure _) (extractLocated_housed b)) fun _ => Retains.pure _
  | extractAt node =>
      refine Retains.bind (Retains.bind (Retains.of_keeps (keeps_keyAt node)) fun key =>
        locate_housed fun b => extractLocated_housed b) fun _ => Retains.pure _
  | clear => exact Retains.bind clear_housed fun _ => Retains.pure _
  | rehash n => exact Retains.bind (rehash_housed n) fun _ => Retains.pure _
  | reserve n =>
      exact Retains.bind (Retains.bind Retains.getTable fun t => Retains.bind
        (Retains.of_keeps (keeps_defined _)) fun _ => rehash_housed _) fun _ => Retains.pure _
  | maxLoadFactor z => exact Retains.bind (setMaxLoadFactor_housed z) fun _ => Retains.pure _
  | find key =>
      exact Retains.bind (Retains.of_keeps (keeps_find (housed_forgetful ids) key))
        fun _ => Retains.pure _

/-! ## Insertions -/

/-- The chunks are needed for `p` elements and one more. -/
def FewChunks (p : ℕ) (t : Table τ) : Prop := t.chunks.length * kChunkSize ≤ p + kChunkSize

/-- What leaves the chunks alone keeps their number. -/
theorem Retains.fewChunks {x : Exec τ α} (h : ∀ ids, Retains (Housed ids) x) :
    Retains (fun s : Store τ => FewChunks p s.table) x := by
  have hsame : ∀ s s' : Store τ, Housed (chunkIds s.table) s' → FewChunks p s.table →
      FewChunks p s'.table := by
    intro s s' h' hs
    have hlength : s'.table.chunks.length = s.table.chunks.length := by
      simpa [chunkIds] using congrArg List.length h'
    unfold FewChunks
    rwa [hlength]
  exact fun s hs => (h _ s rfl).mono (fun _ s' h' => hsame s s' h' hs)
    (fun s' h' => hsame s s' h' hs) fun _ h' => h'

/-- The slots are in order, and at most `p` of them are taken. -/
structure Lodged (p : ℕ) (t : Table τ) : Prop where
  slots : Slots t []
  size : t.size ≤ p
  fits : FewChunks p t

/-- A chunk is added when all slots of the others hold elements. -/
theorem Lodged.acquireNode (h : Lodged p s.table) :
    Action.Post Stuck.anyhow Model.acquireNode s (fun _ s' => FewChunks p s'.table)
      fun s' => FewChunks p s'.table := by
  have hfits := h.fits
  unfold Model.acquireNode ensureArenaSlot
  rw [Action.bind_assoc, post_getTable]
  by_cases hhead : s.table.freeListHead ≠ kNullIndex
  · rw [if_pos hhead, Action.pure_bind, post_getTable, if_pos hhead, post_modifyTable]
    exact hfits
  rw [if_neg hhead]
  by_cases hroom : s.table.arenaHighWater < s.table.arenaSize
  · rw [if_pos hroom, Action.pure_bind, post_getTable, if_neg hhead, post_modifyTable]
    exact hfits
  rw [if_neg hroom]
  simp only [allocateChunk, Action.bind_assoc]
  refine post_mayThrow_bind (fun f _ => ?_) fun _ _ => hfits
  rw [post_freshId, post_modifyHeap, post_getTable, Action.pure_bind]
  refine post_mayThrow_bind (fun f' _ => ?_) fun _ _ => hfits
  rw [post_modifyTable, post_getTable, if_neg hhead, post_modifyTable, post_pure]
  have hmark := h.slots.highWater_eq (not_not.mp hhead)
  have hsize := h.size
  unfold Table.arenaSize at hroom
  unfold FewChunks
  simp only [List.length_append, List.length_singleton, Nat.add_mul, Nat.one_mul]
  omega

theorem Lodged.buildNode (h : Lodged p s.table) (v : τ.Value) :
    Action.Post Stuck.anyhow (Model.buildNode v) s (fun _ s' => FewChunks p s'.table)
      fun s' => FewChunks p s'.table := by
  refine Action.Post.bind h.acquireNode (fun _ h' => h') fun i s1 h1 => ?_
  have hconstruct : ∀ ids, Retains (Housed ids) (constructValue i v : Exec τ Unit) := fun ids =>
    Retains.bind (Retains.of_keeps (keeps_constructElement (housed_forgetful ids) v)) fun _ =>
      setNode_housed i _
  exact Retains.fewChunks (fun ids => Retains.bind (Retains.cleanup (hconstruct ids)
    (releaseNode_housed i)) fun _ => Retains.pure _) s1 h1

/-- The element is built and listed. -/
theorem Lodged.insertAbsent {f : ℕ → Exec τ β} (h : Lodged p s.table) (v : τ.Value)
    (hf : ∀ i ids, Retains (Housed ids) (f i)) :
    Action.Post Stuck.anyhow (Model.buildNode v >>= fun i => attachNode i >>= fun _ => f i) s
      (fun _ s' => FewChunks p s'.table) fun s' => FewChunks p s'.table :=
  Action.Post.bind (h.buildNode v) (fun _ h' => h') fun i s1 h1 =>
    Retains.fewChunks (fun ids => Retains.bind (attachNode_housed i) fun _ => hf i ids) s1 h1

theorem Lodged.emplaceImpl (h : Lodged p s.table) (v : τ.Value) :
    Action.Post Stuck.anyhow (Model.emplaceImpl v) s (fun _ s' => FewChunks p s'.table)
      fun s' => FewChunks p s'.table := by
  refine Action.Post.bind (h.buildNode v) (fun _ h' => h') fun i s1 h1 =>
    Retains.fewChunks (fun ids => ?_) s1 h1
  refine Retains.bind (Retains.of_keeps (keeps_keyAt i)) fun key => locate_housed fun b =>
    Retains.bind Retains.getTable fun t => Retains.ite ?_ ?_
  · exact Retains.bind (Retains.of_keeps (keeps_bucketAt b)) fun _ =>
      Retains.bind (destroyValue_housed i) fun _ =>
        Retains.bind (releaseNode_housed i) fun _ => Retains.pure _
  · exact Retains.bind (attachNode_housed i) fun _ => Retains.pure _

theorem Lodged.tryEmplaceImpl (h : Lodged p s.table) (key : τ.Key) (mapped : τ.Mapped) :
    Action.Post Stuck.anyhow (Model.tryEmplaceImpl key mapped) s (fun _ s' => FewChunks p s'.table)
      fun s' => FewChunks p s'.table := by
  refine locate_frame (fun s' h' => by rw [h'.table]; exact h.fits) fun b s1 h1 => ?_
  rw [← h1.table] at h
  rw [post_getTable]
  split
  · exact post_bucketAt (fun _ _ _ => h.fits) fun _ => trivial
  · exact h.insertAbsent _ fun _ _ => Retains.pure _

theorem Lodged.insertOrAssignImpl (h : Lodged p s.table) (key : τ.Key) (mapped : τ.Mapped) :
    Action.Post Stuck.anyhow (Model.insertOrAssignImpl key mapped) s
      (fun _ s' => FewChunks p s'.table) fun s' => FewChunks p s'.table := by
  refine locate_frame (fun s' h' => by rw [h'.table]; exact h.fits) fun b s1 h1 => ?_
  rw [← h1.table] at h
  rw [post_getTable]
  split
  · exact Retains.fewChunks (fun ids => Retains.bind (Retains.of_keeps (keeps_bucketAt b)) fun _ =>
      Retains.bind (assignValue_housed _ _) fun _ => Retains.pure _) s1 h.fits
  · exact h.tryEmplaceImpl key mapped

theorem Lodged.insertNode (h : Lodged p s.table) (handle : Handle τ) :
    Action.Post Stuck.anyhow (Model.insertNode handle) s (fun _ s' => FewChunks p s'.table)
      fun s' => FewChunks p s'.table := by
  unfold Model.insertNode
  cases handle.value with
  | none => exact h.fits
  | some cell =>
      refine locate_frame (fun s' h' => by rw [h'.table]; exact h.fits) fun b s1 h1 => ?_
      rw [← h1.table] at h
      rw [post_getTable]
      split
      · exact post_bucketAt (fun _ _ _ => h.fits) fun _ => trivial
      · exact h.insertAbsent _ fun _ _ => Retains.bind (fun _ hs => hs) fun _ => Retains.pure _

/-- Whatever the operation does, the chunks are not more than it found needed. -/
theorem Lodged.exec (h : Lodged p s.table) (op : Op τ) :
    Action.Post Stuck.anyhow op.exec s (fun _ s' => FewChunks p s'.table)
      fun s' => FewChunks p s'.table := by
  have hhoused : Inserts op = false → Action.Post Stuck.anyhow op.exec s
      (fun _ s' => FewChunks p s'.table) fun s' => FewChunks p s'.table := fun hop =>
    Retains.fewChunks (fun ids => Op.housed hop) s h.fits
  cases op with
  | insert value => exact Action.Post.bind (h.emplaceImpl value) (fun _ h' => h') fun _ _ h' => h'
  | tryEmplace key mapped =>
      exact Action.Post.bind (h.tryEmplaceImpl key mapped) (fun _ h' => h') fun _ _ h' => h'
  | insertOrAssign key mapped =>
      exact Action.Post.bind (h.insertOrAssignImpl key mapped) (fun _ h' => h') fun _ _ h' => h'
  | assign | eraseKey | eraseAt | eraseRange | extractKey | extractAt | clear | rehash | reserve
  | maxLoadFactor | find => exact hhoused rfl

/-! ## Buckets -/

/-- The table has its first buckets, or half of its buckets would not have done for `p` elements
and one more. -/
def FewBuckets (f : LoadFactor τ.rounding) (p : ℕ) (t : Table τ) : Prop :=
  t.bucketCount ≤ kInitialBucketCount ∨ computeLoadCapacity f (t.bucketCount / 2) ≤ p

section

variable {f : LoadFactor τ.rounding}

theorem fewBuckets_insensitive : Insensitive (FewBuckets f p : Table τ → Prop) :=
  ⟨fun _ _ _ _ h => h, fun _ _ h => h⟩

theorem fewBuckets_patient : Patient fun s : Store τ => FewBuckets f p s.table where
  idle s s' h hs := by
    unfold FewBuckets
    rwa [h.index.bucketCount]
  reindex s s' h hs := by
    unfold FewBuckets
    rwa [h.bucketCount]
  shrink _ _ _ hs := hs

/-- The array that a growth asks for is the next one, whether it is granted or not. -/
theorem rehashTo_fewBuckets {n : ℕ} (hs : FewBuckets f p s.table)
    (hn : ∀ t : Table τ, t.bucketCount = n → FewBuckets f p t) :
    Action.Post Stuck.anyhow (rehashTo n) s (fun _ s' => FewBuckets f p s'.table)
      fun s' => FewBuckets f p s'.table := by
  have hkeeps : Action.Keeps (fun s : Store τ => FewBuckets f p s.table) (rehashTo n) :=
    RefillableTo.rehashTo (fun _ _ => hn _ rfl) fewBuckets_insensitive.steady
  exact hkeeps.post hs

theorem reserveForOneMore_fewBuckets (hb : Below f 0 s.table) (hsize : s.table.size ≤ p)
    (hs : FewBuckets f p s.table) :
    Action.Post Stuck.anyhow reserveForOneMore s (fun _ s' => FewBuckets f p s'.table)
      fun s' => FewBuckets f p s'.table := by
  unfold reserveForOneMore
  rw [post_getTable]
  split
  · exact rehashTo_fewBuckets hs fun t ht => Or.inl ht.le
  split
  · next hne hgrow =>
      refine rehashTo_fewBuckets hs fun t ht => Or.inr ?_
      rw [ht, Nat.mul_div_cancel _ (by decide)]
      rcases hb.room with ⟨hzero, -⟩ | ⟨k, -, hcount, hcapacity, -⟩
      · exact absurd hzero hne
      · rw [hcount, ← hcapacity]
        omega
  · exact hs

/-- The table is below its threshold, has at most `p` elements and no more buckets than that. -/
structure Waiting (f : LoadFactor τ.rounding) (p : ℕ) (t : Table τ) : Prop where
  below : Below f 0 t
  size : t.size ≤ p
  few : FewBuckets f p t

theorem waiting_insensitive : Insensitive (Waiting f p : Table τ → Prop) where
  arena t chunks highWater head h := ⟨below_insensitive.arena t chunks highWater head h.below,
    h.size, h.few⟩
  buckets t b h := ⟨below_insensitive.buckets t b h.below, h.size, h.few⟩

theorem waiting_steady : Steady fun s : Store τ => Waiting f p s.table := waiting_insensitive.steady

theorem waiting_forgetful : Forgetful fun s : Store τ => Waiting f p s.table := forgetful_table _

/-- A call that keeps the table waiting, then the rest. -/
theorem post_waiting {x : Exec τ α} {g : α → Exec τ β}
    (hx : Action.Keeps (fun s : Store τ => Waiting f p s.table) x) (hs : Waiting f p s.table)
    (hg : ∀ a s', Waiting f p s'.table → Action.Post Stuck.anyhow (g a) s'
      (fun _ s'' => FewBuckets f p s''.table) fun s'' => FewBuckets f p s''.table) :
    Action.Post Stuck.anyhow (x >>= g) s (fun _ s' => FewBuckets f p s'.table)
      fun s' => FewBuckets f p s'.table :=
  Action.Post.bind (hx.post hs) (fun _ h' => h'.few) hg

theorem Waiting.attachNode (h : Waiting f p s.table) (i : ℕ) :
    Action.Post Stuck.anyhow (Model.attachNode i) s (fun _ s' => FewBuckets f p s'.table)
      fun s' => FewBuckets f p s'.table := by
  have hsteady : Steady fun s : Store τ => FewBuckets f p s.table := fewBuckets_insensitive.steady
  unfold Model.attachNode
  refine Action.Post.bind (Q := fun _ s' => FewBuckets f p s'.table)
    (Action.Post.cleanup (E := fun s' => FewBuckets f p s'.table) ?_ fun s1 h1 => ?_)
    (fun _ h' => h') fun _ s1 h1 => ?_
  · refine Action.Post.bind (reserveForOneMore_fewBuckets h.below h.size h.few) (fun _ h' => h')
      fun _ s1 h1 => ?_
    exact (keeps_linkIntoIteration hsteady (fun _ _ hs => hs) i).post h1
  · exact Action.Keeps.post (Action.Keeps.bind (keeps_destroyValue hsteady i) fun _ =>
      keeps_releaseNode hsteady i) h1
  · exact Action.Keeps.post (Action.Keeps.bind (keeps_keyAt i) fun key =>
      Action.Keeps.bind (keeps_callMixedHash hsteady.toForgetful key) fun hash =>
        keeps_insertKnownAbsent hsteady i hash) h1

theorem Waiting.insertAbsent {g : ℕ → Exec τ β} (h : Waiting f p s.table) (v : τ.Value)
    (hg : ∀ i, Retains (fun s : Store τ => FewBuckets f p s.table) (g i)) :
    Action.Post Stuck.anyhow (buildNode v >>= fun i => Model.attachNode i >>= fun _ => g i) s
      (fun _ s' => FewBuckets f p s'.table) fun s' => FewBuckets f p s'.table :=
  post_waiting (keeps_buildNode waiting_steady v) h fun i _ h1 =>
    Action.Post.bind (h1.attachNode i) (fun _ h' => h') fun _ s2 h2 => hg i s2 h2

theorem Waiting.emplaceImpl (h : Waiting f p s.table) (v : τ.Value) :
    Action.Post Stuck.anyhow (Model.emplaceImpl v) s (fun _ s' => FewBuckets f p s'.table)
      fun s' => FewBuckets f p s'.table := by
  refine post_waiting (keeps_buildNode waiting_steady v) h fun i s1 h1 =>
    post_waiting (keeps_keyAt i) h1 fun key s2 h2 =>
      post_waiting (keeps_callMixedHash waiting_forgetful key) h2 fun hash s3 h3 =>
        post_waiting (keeps_findBucket waiting_forgetful key hash) h3 fun b s4 h4 => ?_
  rw [post_getTable]
  split
  · exact Action.Keeps.post (Action.Keeps.bind (keeps_bucketAt b) fun _ =>
      Action.Keeps.bind (keeps_destroyValue fewBuckets_insensitive.steady i) fun _ =>
        Action.Keeps.bind (keeps_releaseNode fewBuckets_insensitive.steady i) fun _ =>
          Action.Keeps.pure _) h4.few
  · exact Action.Post.bind (h4.attachNode i) (fun _ h' => h') fun _ _ h' => h'

theorem Waiting.tryEmplaceImpl (h : Waiting f p s.table) (key : τ.Key) (mapped : τ.Mapped) :
    Action.Post Stuck.anyhow (Model.tryEmplaceImpl key mapped) s
      (fun _ s' => FewBuckets f p s'.table) fun s' => FewBuckets f p s'.table := by
  refine post_waiting (keeps_callMixedHash waiting_forgetful key) h fun hash s1 h1 =>
    post_waiting (keeps_findBucket waiting_forgetful key hash) h1 fun b s2 h2 => ?_
  rw [post_getTable]
  split
  · exact post_bucketAt (fun _ _ _ => h2.few) fun _ => trivial
  · exact h2.insertAbsent _ fun _ => Retains.pure _

theorem Waiting.insertNode (h : Waiting f p s.table) (handle : Handle τ) :
    Action.Post Stuck.anyhow (Model.insertNode handle) s
      (fun _ s' => FewBuckets f p s'.table) fun s' => FewBuckets f p s'.table := by
  unfold Model.insertNode
  cases handle.value with
  | none => exact h.few
  | some cell =>
      refine post_waiting (keeps_callMixedHash waiting_forgetful _) h fun hash s1 h1 =>
        post_waiting (keeps_findBucket waiting_forgetful _ hash) h1 fun b s2 h2 => ?_
      rw [post_getTable]
      split
      · exact post_bucketAt (fun _ _ _ => h2.few) fun _ => trivial
      · exact h2.insertAbsent _ fun _ => Retains.bind (fun _ hs => hs) fun _ => Retains.pure _

theorem Waiting.insertOrAssignImpl (h : Waiting f p s.table) (key : τ.Key) (mapped : τ.Mapped) :
    Action.Post Stuck.anyhow (Model.insertOrAssignImpl key mapped) s
      (fun _ s' => FewBuckets f p s'.table) fun s' => FewBuckets f p s'.table := by
  refine post_waiting (keeps_callMixedHash waiting_forgetful key) h fun hash s1 h1 =>
    post_waiting (keeps_findBucket waiting_forgetful key hash) h1 fun b s2 h2 => ?_
  rw [post_getTable]
  split
  · exact Action.Keeps.post (Action.Keeps.bind (keeps_bucketAt b) fun _ => Action.Keeps.bind
      (keeps_assignValue fewBuckets_insensitive.steady _ _) fun _ => Action.Keeps.pure _) h2.few
  · exact h2.tryEmplaceImpl key mapped

/-- An operation that asks for no buckets leaves no more than it found needed. -/
theorem Waiting.exec (h : Waiting f p s.table) (op : Op τ) (hop : ∀ k, op ≠ .rehash k)
    (hop' : ∀ k, op ≠ .reserve k) (hset : ∀ z, op ≠ .maxLoadFactor z) :
    Action.Post Stuck.anyhow op.exec s (fun _ s' => FewBuckets f p s'.table)
      fun s' => FewBuckets f p s'.table := by
  have hpassive : Passive op → Action.Post Stuck.anyhow op.exec s
      (fun _ s' => FewBuckets f p s'.table) fun s' => FewBuckets f p s'.table := fun h' =>
    Op.retains fewBuckets_patient h' s h.few
  cases op with
  | insert value => exact Action.Post.bind (h.emplaceImpl value) (fun _ h' => h') fun _ _ h' => h'
  | tryEmplace key mapped =>
      exact Action.Post.bind (h.tryEmplaceImpl key mapped) (fun _ h' => h') fun _ _ h' => h'
  | insertOrAssign key mapped =>
      exact Action.Post.bind (h.insertOrAssignImpl key mapped) (fun _ h' => h') fun _ _ h' => h'
  | rehash k => exact absurd rfl (hop k)
  | reserve k => exact absurd rfl (hop' k)
  | maxLoadFactor z => exact absurd rfl (hset z)
  | assign | eraseKey | eraseAt | eraseRange | extractKey | extractAt | clear | find =>
      exact hpassive trivial

end

end Fum.Analysis
