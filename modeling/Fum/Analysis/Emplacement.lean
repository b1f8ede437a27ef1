import Fum.Analysis.Insertion

/-!
# The insertion functions

`emplace_impl`, `try_emplace_impl`, `insert_or_assign_impl` and `insert(node_type&&)` on a
consistent table: the element they enter or find, and the state each exception leaves.
-/

set_option autoImplicit false

namespace Fum.Analysis

open Fum.Model Effects RobinHood

variable {τ : Traits} {β : Type} {U : Stuck → Prop} {s s' s1 s2 : Store τ} {t t' : Table τ}
  {i x b : ℕ} {v : τ.Value} {key : τ.Key} {Q : β → Store τ → Prop} {E : Store τ → Prop}

/-! ## A hash and a lookup -/

/-- The hasher has been called once, `key_equal` any number of times. -/
structure Probed (s s' : Store τ) : Prop where
  table : s'.table = s.table
  heap : s'.heap = withFault s.heap s'.heap.fault
  hash : ∃ f, Ticks .hash s.heap.fault f ∧ Through [.equal] f s'.heap.fault

theorem Probed.point (h : Probed s s') : faultPoint s'.heap.fault = faultPoint s.heap.fault := by
  obtain ⟨f, hf, hf'⟩ := h.hash
  exact hf'.point.trans hf.faultPoint_eq

/-- A fault at a call of the hasher is one call closer. -/
theorem Probed.fault_hash (h : Probed s s') (m : ℕ) :
    s'.heap.fault = some (.hash, m) ↔ s.heap.fault = some (.hash, m + 1) := by
  obtain ⟨f, hf, hf'⟩ := h.hash
  have hsame : faultPoint f = some .hash → s'.heap.fault = f := by
    intro hpoint
    refine hf'.same fun p hp => ?_
    rw [List.mem_singleton.mp hp, hpoint]
    simp
  rcases hf with ⟨rfl, hne⟩ | ⟨n, hs, rfl⟩
  · constructor
    · intro hm
      have hpoint := hf'.point
      rw [hm] at hpoint
      exact absurd hpoint.symm hne
    · intro hm
      exact absurd (by rw [hm]; rfl) hne
  · rw [hsame rfl, hs]
    simp

theorem Probed.fault_ne (h : Probed s s') : s.heap.fault ≠ some (.hash, 0) := by
  obtain ⟨f, hf, -⟩ := h.hash
  rcases hf with ⟨-, hne⟩ | ⟨n, hs, -⟩
  · intro h0
    exact hne (by rw [h0]; rfl)
  · rw [hs]
    simp

/-- A throw of `key_equal` or of one of the first `n` calls of the hasher, before anything
has been touched. -/
structure Refused (n : ℕ) (s s' : Store τ) : Prop where
  table : s'.table = s.table
  cause : faultPoint s.heap.fault = some .equal ∨ ∃ m < n, s.heap.fault = some (.hash, m)

theorem Refused.fault {n : ℕ} (h : Refused n s s') : s.heap.fault ≠ none := by
  rcases h.cause with hpoint | ⟨m, -, hfault⟩
  · exact fault_ne_none hpoint
  · exact fault_ne_none (p := .hash) (by rw [hfault]; rfl)

theorem Refused.mono {n n' : ℕ} (h : Refused n s s') (hle : n ≤ n') : Refused n' s s' := by
  refine ⟨h.table, h.cause.imp_right ?_⟩
  rintro ⟨m, hm, heq⟩
  exact ⟨m, by omega, heq⟩

theorem Probed.refused {n : ℕ} (h : Probed s s1) (h' : Refused n s1 s') :
    Refused (n + 1) s s' where
  table := h'.table.trans h.table
  cause := by
    rcases h'.cause with hequal | ⟨m, hm, heq⟩
    · exact Or.inl (h.point.symm.trans hequal)
    · exact Or.inr ⟨m + 1, by omega, (h.fault_hash m).mp heq⟩

/-- The index of a table that can be searched. -/
structure Searchable (t : Table τ) : Prop where
  index : IndexInOrder (ownHash t) t.iteration t
  nodup : t.iteration.Nodup
  live : ∀ x ∈ t.iteration, (t.nodeAt x).storage.isSome
  room : Room t

theorem Consistent.searchable (h : Consistent t) (hroom : Room t) : Searchable t :=
  ⟨h.index, h.slots.iteration_nodup, fun _ hx => h.live hx, hroom⟩

theorem InHand.searchable (h : InHand t i) (hroom : Room t) : Searchable t :=
  ⟨h.index, h.slots.iteration_nodup, fun _ hx => h.others hx, hroom⟩

/-- No element with the hash of the key has an equal key. -/
def Absent (t : Table τ) (key : τ.Key) : Prop :=
  ∀ x ∈ t.iteration, ownHash t x = t.mixedHash key → Differs t key x

/-- A bucket array has as many buckets as the table says. -/
theorem IndexInOrder.size_eq {H : ℕ → UInt64} {L : List ℕ} {array : BucketArray τ}
    (h : IndexInOrder H L t) (harray : t.buckets = some array) : array.size = t.bucketCount := by
  rcases h with ⟨hnone, -, -⟩ | ⟨k, cells, I, -, -⟩
  · rw [hnone] at harray
    cases harray
  · obtain ⟨array', harray', hsize, -⟩ := I.buckets
    rw [harray] at harray'
    cases harray'
    rw [hsize, I.bucketCount]

theorem IndexInOrder.bucketOf_lt {H : ℕ → UInt64} {L : List ℕ} (h : IndexInOrder H L t)
    (hb : BucketOf t b x) : b < t.bucketCount := by
  obtain ⟨array, harray, hlt, -, -⟩ := hb
  rwa [← h.size_eq harray]

/-- A hash and a lookup, then the rest: the bucket of an equal key, or none. -/
theorem post_probe {k : ℕ → Exec τ β} (h : Searchable s.table)
    (hE : ∀ s', Refused 1 s s' → E s')
    (hfound : ∀ b x s', Probed s s' → x ∈ s.table.iteration → Matches s.table key x →
      BucketOf s.table b x → b ≠ s.table.bucketCount → Action.Post U (k b) s' Q E)
    (habsent : ∀ s', Probed s s' → Absent s.table key →
      Action.Post U (k s.table.bucketCount) s' Q E) :
    Action.Post U (callMixedHash key >>= fun hash => findBucket key hash >>= k) s Q E := by
  refine post_callMixedHash (fun f hf => ?_) fun hpoint hfault =>
    hE _ ⟨rfl, Or.inr ⟨0, Nat.one_pos, hfault⟩⟩
  refine Action.Post.bind (findBucket_spec (s := ⟨s.table, withFault s.heap f⟩) h.index h.nodup
    h.live h.room) ?_ ?_
  · intro s' hthrow
    obtain ⟨p, hp, hpoint⟩ := hthrow.point
    rw [List.mem_singleton.mp hp] at hpoint
    exact hE s' ⟨hthrow.table, Or.inl (hf.faultPoint_eq.symm.trans hpoint)⟩
  · rintro b s' ⟨hpass, hlocated⟩
    have hprobed : Probed s s' :=
      ⟨hpass.table, by rw [hpass.heap]; rfl, f, hf, hpass.fault⟩
    rcases hlocated with ⟨rfl, habs⟩ | ⟨x, hx, hmatch, hb⟩
    · exact habsent s' hprobed habs
    · exact hfound b x s' hprobed hx hmatch hb (h.index.bucketOf_lt hb).ne

/-- The bucket of a node, then the rest. -/
theorem post_bucketOf {k : Bucket → Exec τ β} (h : BucketOf s.table b x)
    (hk : ∀ bucket, bucket.nodeIndex = x → Action.Post U (k bucket) s Q E) :
    Action.Post U (bucketAt b >>= k) s Q E := by
  obtain ⟨array, harray, hlt, -, hnode⟩ := h
  refine post_bucketAt (fun array' harray' _ => ?_) fun hout => ?_
  · rw [harray] at harray'
    cases harray'
    exact hk _ hnode
  · exact absurd hlt (not_lt.mpr (hout array harray))

/-! ## A new element -/

/-- A new element in a slot of its own, last in the iteration. -/
structure Inserted (t : Table τ) (v : τ.Value) (i : ℕ) (t' : Table τ) : Prop where
  fresh : (t.nodeAt i).storage = none
  iteration : t'.iteration = t.iteration ++ [i]
  element : ∃ serial, (t'.nodeAt i).storage = some ⟨serial, v⟩
  others : ∀ x, x ≠ i → (t'.nodeAt x).storage = (t.nodeAt x).storage
  policy : SamePolicy t t'
  chunks : chunkIds t <+: chunkIds t'
  growth : Sized t t'

/-- The new element is not in the slot of one that was there. -/
theorem Inserted.ne_of_listed (h : Inserted t v i t') (hc : Consistent t) {x : ℕ}
    (hx : x ∈ t.iteration) : x ≠ i := by
  rintro rfl
  exact hc.storage_ne_none hx h.fresh

/-- How the construction and the entry of an element throw: undone, with the old bucket
array gone, or with an element that has no bucket. -/
inductive InsertThrown (s s' : Store τ) : Prop where
  | undone (point : ∃ p ∈ [Point.chunk, .chunksGrowth, .construct, .iterationGrowth],
      faultPoint s.heap.fault = some p) (same : SameElements s.table s'.table)
      (consistent : Consistent s'.table)
  | lostBuckets (point : faultPoint s.heap.fault = some .bucketArray)
      (lost : LostBuckets s.table s'.table)
  | unplaced (point : faultPoint s.heap.fault = some .hash) (unplaced : Unplaced s'.table)

theorem InsertThrown.fault (h : InsertThrown s s') : s.heap.fault ≠ none := by
  rcases h with ⟨⟨p, -, hpoint⟩, -, -⟩ | ⟨hpoint, -⟩ | ⟨hpoint, -⟩
  all_goals exact fault_ne_none hpoint

theorem Consistent.storage_of_built (hc : Consistent s.table) (hb : Built s v i s1) :
    (s.table.nodeAt i).storage = none := by
  have hnot := hb.slots.not_mem
  rw [hb.iteration, ← hc.filled] at hnot
  exact Option.not_isSome_iff_eq_none.mp hnot

/-- The elements of a table are where they were before another one was built. -/
theorem Built.storage_listed (hb : Built s v i s1) (hc : Consistent s.table) {x : ℕ}
    (hx : x ∈ s.table.iteration) :
    (s1.table.nodeAt x).storage = (s.table.nodeAt x).storage := by
  refine hb.others x ?_
  rintro rfl
  exact hc.storage_ne_none hx (hc.storage_of_built hb)

/-- Giving up the node in hand restores a consistent table. -/
theorem Dropped.consistent (h : Dropped s1.table i t') (hb : Built s v i s1)
    (hc : Consistent s.table) (hi : SameIndex s1.table t') : Consistent t' :=
  hc.of_sameElements (h.sameElements hb hc) h.slots (hc.index.sameIndex (hb.index.trans hi))

/-- The size of a bucket array depends on the size of the table, its index and its policy. -/
theorem Sized.of_sameIndex {t0 : Table τ} (h : Sized t t') (hsize : t.size = t0.size)
    (hi : SameIndex t0 t) (hp : SamePolicy t0 t) : Sized t0 t' := by
  have hcount : countForOneMore t = countForOneMore t0 := by
    unfold countForOneMore
    rw [hi.bucketCount, hi.maxLoadCapacity, hsize]
  have hneeds : NeedsGrowth t ↔ NeedsGrowth t0 := by
    unfold NeedsGrowth
    rw [hi.bucketCount, hi.maxLoadCapacity, hsize]
  refine ⟨by rw [h.bucketCount, hcount], ?_⟩
  rw [h.capacity, hcount, hp.maxLoadFactor, hi.maxLoadCapacity]
  exact if_congr hneeds rfl rfl

/-- Entering a node that has been built since `s`. -/
theorem attachNode_of_built (hc : Consistent s.table) (hroom : Room s.table)
    (hb : Built s v i s1) (htable : s2.table = s1.table)
    (hpoint : faultPoint s2.heap.fault = faultPoint s1.heap.fault) :
    Action.Post U (attachNode i) s2
      (fun _ s' => Inserted s.table v i s'.table ∧ Consistent s'.table ∧
        faultPoint s'.heap.fault = faultPoint s.heap.fault) (InsertThrown s) := by
  have hin : InHand s2.table i := htable ▸ hb.inHand hc
  have hsize : s2.table.size = s.table.size := by
    unfold Table.size
    rw [htable, hb.iteration]
  have hroom2 : Room s2.table := by
    unfold Room at hroom ⊢
    rwa [hsize]
  have hpoint2 : faultPoint s2.heap.fault = faultPoint s.heap.fault :=
    hpoint.trans hb.fault.point
  have hown : ∀ x ∈ s.table.iteration, ownHash s.table x = ownHash s2.table x := by
    intro x hx
    refine (ownHash_congr ?_ (by rw [htable]; exact hb.policy)).symm
    rw [htable]
    exact hb.storage_listed hc hx
  refine (attachNode_spec hin hroom2).mono ?_ ?_ fun _ h => h
  · rintro ⟨⟩ s3 ⟨ha, hc3, hpoint3⟩
    refine ⟨?_, hc3, hpoint3.trans hpoint2⟩
    exact {
      fresh := hc.storage_of_built hb
      iteration := by rw [ha.iteration, htable, hb.iteration]
      element := by
        obtain ⟨serial, hel⟩ := hb.element
        exact ⟨serial, by rw [ha.storage, htable, hel]⟩
      others := fun x hx => by rw [ha.storage, htable, hb.others x hx]
      policy := hb.policy.trans (htable ▸ ha.policy)
      chunks := by
        rw [ha.chunks, htable]
        exact hb.chunks
      growth := by
        refine (htable ▸ ha.growth : Sized s1.table s3.table).of_sameIndex ?_ hb.index hb.policy
        unfold Table.size
        rw [hb.iteration] }
  · rintro s3 (⟨hp, hd, hi⟩ | ⟨hp, hd, hbuckets, hcount⟩ | ⟨hp, hu⟩)
    · rw [htable] at hd
      have hsame := hd.sameElements hb hc
      refine InsertThrown.undone ⟨_, by simp, hpoint2.symm.trans hp⟩ hsame ?_
      refine hc.of_sameElements hsame hd.slots ?_
      rw [htable, hb.iteration] at hi
      refine hi.congr fun x hx => ?_
      rw [hown x hx, htable]
    · rw [htable] at hd hcount
      exact InsertThrown.lostBuckets (hpoint2.symm.trans hp)
        ⟨hd.sameElements hb hc, hd.slots, hbuckets, hcount.trans hb.index.bucketCount⟩
    · exact InsertThrown.unplaced (hpoint2.symm.trans hp) hu

theorem insertThrown_of_restored (h : Restored s s') (hc : Consistent s.table)
    (hpoint : ∃ p ∈ [Point.chunk, .chunksGrowth, .construct], faultPoint s.heap.fault = some p) :
    InsertThrown s s' := by
  obtain ⟨hcons, hsame⟩ := consistent_of_restored h hc
  obtain ⟨p, hp, heq⟩ := hpoint
  refine InsertThrown.undone ⟨p, ?_, heq⟩ hsame hcons
  simp only [List.mem_cons, List.not_mem_nil, or_false] at hp ⊢
  tauto

/-- The construction and the entry of an element, then the rest. -/
theorem post_insertAbsent {k : ℕ → Exec τ β} (v : τ.Value) (hc : Consistent s.table)
    (hroom : Room s.table) (hE : ∀ s', InsertThrown s s' → E s')
    (hk : ∀ i s', Inserted s.table v i s'.table → Consistent s'.table →
      Action.Post U (k i) s' Q E) :
    Action.Post U (buildNode v >>= fun i => attachNode i >>= fun _ => k i) s Q E := by
  refine Action.Post.bind (buildNode_spec v hc.slots hroom.le_maxSize)
    (fun s' h' => hE s' (insertThrown_of_restored h'.1 hc h'.2)) fun i s1 hb => ?_
  refine Action.Post.bind (attachNode_of_built hc hroom hb rfl rfl) hE ?_
  rintro ⟨⟩ s' ⟨hins, hc', -⟩
  exact hk i s' hins hc'

/-! ## The functions -/

/-- What an insertion answers: the new element, or the one that has an equal key. -/
inductive Entered (t : Table τ) (key : τ.Key) (v : τ.Value) (it : ℕ) (flag : Bool)
    (t' : Table τ) : Prop where
  | inserted (flag_eq : flag = true) (absent : Absent t key) (inserted : Inserted t v it t')
  | found (flag_eq : flag = false) (listed : it ∈ t.iteration) (same_key : Matches t key it)
      (same : SameElements t t') (index : SameIndex t t')

/-- An exception of a function that calls the hasher `n` times before it constructs. -/
def LateThrown (n : ℕ) (s s' : Store τ) : Prop :=
  Refused n s s' ∨ (∀ m < n, s.heap.fault ≠ some (.hash, m)) ∧ InsertThrown s s'

theorem LateThrown.fault {n : ℕ} (h : LateThrown n s s') : s.heap.fault ≠ none := by
  rcases h with h | ⟨-, h⟩
  · exact h.fault
  · exact h.fault

/-- An exception after a probe, for the table before it. -/
theorem InsertThrown.of_probed (h : Probed s s1) (h' : InsertThrown s1 s') : InsertThrown s s' := by
  cases h' with
  | undone point same consistent =>
      rw [h.point] at point
      rw [h.table] at same
      exact .undone point same consistent
  | lostBuckets point lost =>
      rw [h.point] at point
      rw [h.table] at lost
      exact .lostBuckets point lost
  | unplaced point unplaced =>
      rw [h.point] at point
      exact .unplaced point unplaced

theorem LateThrown.of_probed {n : ℕ} (h : Probed s s1) (h' : LateThrown n s1 s') :
    LateThrown (n + 1) s s' := by
  rcases h' with hrefused | ⟨hne, hthrown⟩
  · exact Or.inl (h.refused hrefused)
  · refine Or.inr ⟨fun m hm => ?_, hthrown.of_probed h⟩
    cases m with
    | zero => exact h.fault_ne
    | succ m => exact fun heq => hne m (by omega) ((h.fault_hash m).mpr heq)

/-- An insertion that has constructed its element first throws in the probe, and the
element stays behind. -/
def EmplaceThrown (s s' : Store τ) : Prop :=
  InsertThrown s s' ∨
    (faultPoint s.heap.fault = some .hash ∨ faultPoint s.heap.fault = some .equal) ∧
      Unlisted s'.table

theorem EmplaceThrown.fault (h : EmplaceThrown s s') : s.heap.fault ≠ none := by
  rcases h with h | ⟨hpoint | hpoint, -⟩
  · exact h.fault
  · exact fault_ne_none hpoint
  · exact fault_ne_none hpoint

theorem emplaceImpl_spec (v : τ.Value) (hc : Consistent s.table) (hroom : Room s.table) :
    Action.Post U (emplaceImpl v) s
      (fun r s' => Consistent s'.table ∧ Entered s.table (τ.keyOf v) v r.1 r.2 s'.table ∧
        faultPoint s'.heap.fault = faultPoint s.heap.fault)
      (EmplaceThrown s) := by
  unfold emplaceImpl
  refine Action.Post.bind (buildNode_spec v hc.slots hroom.le_maxSize)
    (fun s' h' => Or.inl (insertThrown_of_restored h'.1 hc h'.2)) fun i s1 hb => ?_
  have hin := hb.inHand hc
  have hroom1 : Room s1.table := by
    unfold Room Table.size at hroom ⊢
    rwa [hb.iteration]
  obtain ⟨serial, hel⟩ := hb.element
  refine post_keyAt (fun e he => ?_) fun hnone => ?_
  swap
  · rw [hel] at hnone
    cases hnone
  rw [hel] at he
  cases he
  -- the keys of the listed elements are what they were
  have hstorage : ∀ x ∈ s.table.iteration,
      (s1.table.nodeAt x).storage = (s.table.nodeAt x).storage :=
    fun x hx => hb.storage_listed hc hx
  have hequal : s1.table.keyEqual = s.table.keyEqual := hb.policy.keyEqual
  refine post_probe (hin.searchable hroom1) ?_ ?_ ?_
  · -- the probe has thrown
    rintro s' ⟨htable, hcause⟩
    refine Or.inr ⟨?_, i, ?_, ?_⟩
    · rw [← hb.fault.point]
      rcases hcause with hequal' | ⟨m, -, hm⟩
      · exact Or.inr hequal'
      · exact Or.inl (by rw [hm]; rfl)
    · rw [htable]
      exact hin.live
    · rw [htable]
      exact hin.slots.not_mem
  · intro b x s2 hprobed hx hmatch hbucket hne
    rw [hb.iteration] at hx
    rw [post_getTable, hprobed.table, if_pos hne]
    rw [← hprobed.table] at hbucket
    refine post_bucketOf hbucket fun bucket hnode => ?_
    refine post_destroyValue (fun e he => ?_) fun hnone => ?_
    swap
    · rw [hprobed.table, hel] at hnone
      cases hnone
    rw [post_releaseNode, post_pure]
    have hd : Dropped s1.table i ((s2.table.setStorage i none).release i) := by
      rw [hprobed.table]
      exact Dropped.of_slots hin.slots
    have hindex : SameIndex s1.table ((s2.table.setStorage i none).release i) := by
      rw [hprobed.table]
      exact ⟨rfl, rfl, rfl, rfl⟩
    refine ⟨hd.consistent hb hc hindex, ?_, hprobed.point.trans hb.fault.point⟩
    rw [hnode]
    refine Entered.found rfl hx ?_ (hd.sameElements hb hc) (hb.index.trans hindex)
    obtain ⟨e', he', hsame⟩ := hmatch
    exact ⟨e', by rw [← hstorage x hx]; exact he', by rw [← hequal]; exact hsame⟩
  · intro s2 hprobed habs
    rw [post_getTable, hprobed.table, if_neg (not_not.mpr rfl)]
    refine Action.Post.bind (attachNode_of_built hc hroom hb hprobed.table hprobed.point)
      (fun _ h' => Or.inl h') ?_
    rintro ⟨⟩ s' ⟨hins, hc', hpoint⟩
    refine ⟨hc', Entered.inserted rfl (fun x hx hhash e he => ?_) hins, hpoint⟩
    rw [← hequal]
    refine habs x (by rwa [hb.iteration]) ?_ e (by rw [hstorage x hx]; exact he)
    rw [ownHash_congr (hstorage x hx) hb.policy, hb.policy.mixedHash]
    exact hhash

theorem tryEmplaceImpl_spec (key : τ.Key) (mapped : τ.Mapped) (hc : Consistent s.table)
    (hroom : Room s.table) :
    Action.Post U (tryEmplaceImpl key mapped) s
      (fun r s' => Consistent s'.table ∧
        Entered s.table key (τ.makeValue key mapped) r.1 r.2 s'.table)
      (LateThrown 1 s) := by
  unfold tryEmplaceImpl
  refine post_probe (hc.searchable hroom) (fun _ h' => Or.inl h') ?_ ?_
  · intro b x s1 hprobed hx hmatch hbucket hne
    rw [post_getTable, hprobed.table, if_pos hne]
    rw [← hprobed.table] at hbucket
    refine post_bucketOf hbucket fun bucket hnode => ?_
    rw [post_pure, hprobed.table, hnode]
    exact ⟨hc, Entered.found rfl hx hmatch (SameElements.refl _) (SameIndex.refl _)⟩
  · intro s1 hprobed habs
    rw [post_getTable, hprobed.table, if_neg (not_not.mpr rfl)]
    refine post_insertAbsent _ (by rw [hprobed.table]; exact hc)
      (by rw [hprobed.table]; exact hroom) (fun s' h' => Or.inr ⟨?_, h'.of_probed hprobed⟩) ?_
    · intro m hm
      rw [Nat.lt_one_iff.mp hm]
      exact hprobed.fault_ne
    · intro i s' hins hc'
      rw [hprobed.table] at hins
      exact ⟨hc', Entered.inserted rfl habs hins⟩

/-- What `insert(node_type&&)` does with the handle: its element goes into the table, or the
handle is returned as it came. -/
def Passed (handle : Handle τ) (t : Table τ) (r : InsertReturnType τ × Handle τ)
    (t' : Table τ) : Prop :=
  r.2 = ⟨none, handle.allocator⟩ ∧
    if r.1.inserted then r.1.node = Handle.default else r.1.node = handle ∧ t' = t

/-- `insert(node_type&&)` of a node that is not empty. -/
theorem insertNode_spec {handle : Handle τ} {cell : Cell τ} (hcell : handle.value = some cell)
    (hc : Consistent s.table) (hroom : Room s.table) :
    Action.Post U (insertNode handle) s
      (fun r s' => Consistent s'.table ∧ Entered s.table (τ.keyOf cell.element.value)
        cell.element.value r.1.position r.1.inserted s'.table ∧
          Passed handle s.table r s'.table)
      (LateThrown 1 s) := by
  unfold insertNode
  rw [hcell]
  simp only
  refine post_probe (hc.searchable hroom) (fun _ h' => Or.inl h') ?_ ?_
  · intro b x s1 hprobed hx hmatch hbucket hne
    rw [post_getTable, hprobed.table, if_pos hne]
    rw [← hprobed.table] at hbucket
    refine post_bucketOf hbucket fun bucket hnode => ?_
    rw [post_pure, hprobed.table, hnode]
    exact ⟨hc, Entered.found rfl hx hmatch (SameElements.refl _) (SameIndex.refl _), rfl, rfl, rfl⟩
  · intro s1 hprobed habs
    rw [post_getTable, hprobed.table, if_neg (not_not.mpr rfl)]
    refine post_insertAbsent _ (by rw [hprobed.table]; exact hc)
      (by rw [hprobed.table]; exact hroom) (fun s' h' => Or.inr ⟨?_, h'.of_probed hprobed⟩) ?_
    · intro m hm
      rw [Nat.lt_one_iff.mp hm]
      exact hprobed.fault_ne
    · intro i s' hins hc'
      rw [hprobed.table] at hins
      rw [post_modifyHeap, post_pure]
      exact ⟨hc', Entered.inserted rfl habs hins, rfl, rfl⟩

/-! ## Assignment to an element -/

/-- One element has been given a new value. -/
structure Assigned (t : Table τ) (x : ℕ) (g : τ.Value → τ.Value) (t' : Table τ) : Prop where
  element : ∃ e, (t.nodeAt x).storage = some e ∧
    (t'.nodeAt x).storage = some { e with value := g e.value }
  iteration : t'.iteration = t.iteration
  others : ∀ y, y ≠ x → (t'.nodeAt y).storage = (t.nodeAt y).storage
  policy : SamePolicy t t'
  chunks : chunkIds t' = chunkIds t
  index : SameIndex t t'

theorem assignValue_spec (x : ℕ) (g : τ.Value → τ.Value)
    (hU : (s.table.nodeAt x).storage = none → U .undefined) :
    Action.Post U (assignValue x g) s
      (fun _ s' => Assigned s.table x g s'.table ∧ s'.heap = s.heap ∧
        ∀ pending, Slots s.table pending → Slots s'.table pending) (fun _ => False) := by
  refine Action.Post.of_bind_pure (post_assignValue (fun e he => ?_) hU)
  refine Action.Post.pure ⟨?_, rfl, fun pending h => h.setStorage x _⟩
  exact {
    element := ⟨e, he, storage_setStorage_self (lt_arenaSize_of_isSome (by rw [he]; rfl)) _⟩
    iteration := rfl
    others := fun y hy => storage_setStorage_of_ne hy _
    policy := ⟨rfl, rfl, rfl, rfl⟩
    chunks := chunkIds_setNode ..
    index := ⟨rfl, rfl, rfl, rfl⟩ }

theorem Assigned.isSome {g : τ.Value → τ.Value} (h : Assigned t x g t') (y : ℕ) :
    (t'.nodeAt y).storage.isSome = (t.nodeAt y).storage.isSome := by
  by_cases hy : y = x
  · subst hy
    obtain ⟨e, he, he'⟩ := h.element
    rw [he, he']
    rfl
  · rw [h.others y hy]

theorem Assigned.ownHash {g : τ.Value → τ.Value} (h : Assigned t x g t')
    (hg : ∀ v, τ.keyOf (g v) = τ.keyOf v) (y : ℕ) : ownHash t' y = ownHash t y := by
  by_cases hy : y = x
  · subst hy
    obtain ⟨e, he, he'⟩ := h.element
    rw [ownHash_of_storage he, ownHash_of_storage he', hg]
    exact h.policy.mixedHash _
  · exact ownHash_congr (h.others y hy) h.policy

/-- An assignment that keeps the key keeps the table consistent. -/
theorem Assigned.consistent {g : τ.Value → τ.Value} (h : Assigned t x g t')
    (hg : ∀ v, τ.keyOf (g v) = τ.keyOf v) (hc : Consistent t) (hslots : Slots t' []) :
    Consistent t' where
  slots := hslots
  filled := by
    rw [h.iteration]
    exact hc.filled.congr h.isSome
  index := by
    rw [h.iteration]
    exact (hc.index.sameIndex h.index).congr fun y _ => h.ownHash hg y

/-- What `insert_or_assign` answers. -/
inductive EnteredOrAssigned (t : Table τ) (key : τ.Key) (mapped : τ.Mapped) (it : ℕ)
    (flag : Bool) (t' : Table τ) : Prop where
  | entered (absent : Absent t key) (entered : Entered t key (τ.makeValue key mapped) it flag t')
  | assigned (flag_eq : flag = false) (listed : it ∈ t.iteration) (same_key : Matches t key it)
      (assigned : Assigned t it (fun v => τ.assignMapped v mapped) t')

theorem insertOrAssignImpl_spec (key : τ.Key) (mapped : τ.Mapped) (hc : Consistent s.table)
    (hroom : Room s.table) :
    Action.Post U (insertOrAssignImpl key mapped) s
      (fun r s' => Consistent s'.table ∧
        EnteredOrAssigned s.table key mapped r.1 r.2 s'.table)
      (LateThrown 2 s) := by
  unfold insertOrAssignImpl
  refine post_probe (hc.searchable hroom) (fun _ h' => Or.inl (h'.mono (by decide))) ?_ ?_
  · intro b x s1 hprobed hx hmatch hbucket hne
    rw [post_getTable, hprobed.table, if_pos hne]
    rw [← hprobed.table] at hbucket
    refine post_bucketOf hbucket fun bucket hnode => ?_
    rw [hnode]
    refine Action.Post.bind (assignValue_spec x _ fun hnone => ?_) (fun _ h' => h'.elim) ?_
    · rw [hprobed.table] at hnone
      exact absurd hnone (hc.storage_ne_none hx)
    · rintro ⟨⟩ s' ⟨ha, -, hslots⟩
      rw [hprobed.table] at ha hslots
      rw [post_pure]
      exact ⟨ha.consistent (fun v => τ.keyOf_assignMapped v mapped) hc (hslots [] hc.slots),
        .assigned rfl hx hmatch ha⟩
  · intro s1 hprobed habs
    rw [post_getTable, hprobed.table, if_neg (not_not.mpr rfl)]
    refine (tryEmplaceImpl_spec key mapped (by rw [hprobed.table]; exact hc)
      (by rw [hprobed.table]; exact hroom)).mono ?_ ?_ fun _ h' => h'
    · rintro r s' ⟨hc', hent⟩
      rw [hprobed.table] at hent
      exact ⟨hc', .entered habs hent⟩
    · exact fun s' h' => h'.of_probed hprobed

end Fum.Analysis
