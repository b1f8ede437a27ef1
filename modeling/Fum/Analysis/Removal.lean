import Fum.Analysis.Disposal
import Fum.Analysis.Emplacement

/-!
# Removal and rebuild

What erasure, extraction, `clear`, `rehash` and the setter of the load factor do to a
consistent table. The bucket of an element is found under the hash it was placed with, so
erasure is stated for an index under any hashes: an extracted element has been moved from
by the time its bucket goes.
-/

set_option autoImplicit false

namespace Fum.Analysis

open Fum.Model Effects RobinHood SwapRemove

variable {τ : Traits} {β : Type} {U : Stuck → Prop} {s s' s1 : Store τ} {t t' t'' : Table τ}
  {H : ℕ → UInt64} {l : List ℕ} {i x b : ℕ} {key : τ.Key} {Q : β → Store τ → Prop}
  {E : Store τ → Prop}

/-! ## Erasure -/

/-- The elements of the nodes in `l` and their entries in the iteration vector are gone. -/
structure Erased (t : Table τ) (l : List ℕ) (t' : Table τ) : Prop where
  iteration : (t'.iteration ++ l).Perm t.iteration
  /-- Each time the back of the vector takes the freed place. -/
  order : t'.iteration = l.foldl swapErase t.iteration
  gone : ∀ x ∈ l, (t'.nodeAt x).storage = none
  others : ∀ y, y ∉ l → (t'.nodeAt y).storage = (t.nodeAt y).storage
  policy : SamePolicy t t'
  chunks : chunkIds t' = chunkIds t
  bucketCount : t'.bucketCount = t.bucketCount
  capacity : t'.maxLoadCapacity = t.maxLoadCapacity

theorem Erased.refl (t : Table τ) : Erased t [] t :=
  ⟨by rw [List.append_nil], rfl, fun _ hx => absurd hx List.not_mem_nil, fun _ _ => rfl,
    SamePolicy.refl t, rfl, rfl, rfl⟩

theorem Erased.mem_iff (h : Erased t l t') (hnodup : t.iteration.Nodup) (y : ℕ) :
    y ∈ t'.iteration ↔ y ∈ t.iteration ∧ y ∉ l := by
  have hnodup' := h.iteration.nodup_iff.mpr hnodup
  have hdisj := (List.nodup_append.mp hnodup').2.2
  rw [← h.iteration.mem_iff, List.mem_append]
  constructor
  · intro hy
    exact ⟨Or.inl hy, fun hl => hdisj y hy y hl rfl⟩
  · rintro ⟨hy | hy, hne⟩
    · exact hy
    · exact absurd hy hne

theorem Erased.trans {l' : List ℕ} (h : Erased t l t') (h' : Erased t' l' t'') :
    Erased t (l ++ l') t'' where
  iteration := by
    have hswap : (t''.iteration ++ (l ++ l')).Perm (t''.iteration ++ l' ++ l) := by
      rw [List.append_assoc]
      exact List.perm_append_comm.append_left _
    exact hswap.trans ((h'.iteration.append_right l).trans h.iteration)
  order := by rw [List.foldl_append, ← h.order, h'.order]
  gone x hx := by
    by_cases hx' : x ∈ l'
    · exact h'.gone x hx'
    · rw [h'.others x hx']
      exact h.gone x ((List.mem_append.mp hx).resolve_right hx')
  others y hy := by
    rw [List.mem_append, not_or] at hy
    rw [h'.others y hy.2, h.others y hy.1]
  policy := h.policy.trans h'.policy
  chunks := h'.chunks.trans h.chunks
  bucketCount := h'.bucketCount.trans h.bucketCount
  capacity := h'.capacity.trans h.capacity

theorem Erased.size (h : Erased t l t') : t'.size + l.length = t.size := by
  have hlen := h.iteration.length_eq
  rwa [List.length_append] at hlen

theorem Erased.room (h : Erased t l t') (hroom : Room t) : Room t' := by
  have hsize := h.size
  unfold Room at hroom ⊢
  omega

/-- A table whose index goes by the hashes `H`. -/
structure ConsistentUnder (H : ℕ → UInt64) (t : Table τ) : Prop where
  slots : Slots t []
  filled : Filled t t.iteration
  index : IndexInOrder H t.iteration t

theorem Consistent.under (h : Consistent t) : ConsistentUnder (ownHash t) t :=
  ⟨h.slots, h.filled, h.index⟩

theorem ConsistentUnder.consistent (h : ConsistentUnder H t)
    (hH : ∀ x ∈ t.iteration, ownHash t x = H x) : Consistent t :=
  ⟨h.slots, h.filled, h.index.congr hH⟩

/-- The nodes left after an erasure keep their hashes. -/
theorem Erased.ownHash (h : Erased t l t') (hnodup : t.iteration.Nodup) {y : ℕ}
    (hy : y ∈ t'.iteration) : ownHash t' y = ownHash t y :=
  ownHash_congr (h.others y ((h.mem_iff hnodup y).mp hy).2) h.policy

theorem erased_removed (hslots : Slots t []) (hx : x ∈ t.iteration) :
    Erased t [x] (removed t x) where
  iteration := hslots.removed_perm hx
  order := (hslots.setStorage x none).unlinked_order hx
  gone y hy := by
    rw [List.mem_singleton.mp hy]
    exact storage_removed_self (hslots.lt_arenaSize (Or.inl hx))
  others _ hy := storage_removed_of_ne (List.mem_singleton.not.mp hy)
  policy := SamePolicy.removed t x
  chunks := chunkIds_removed t x
  bucketCount := (SameIndex.removed t x).bucketCount
  capacity := (SameIndex.removed t x).maxLoadCapacity

/-- `erase_located` of the bucket of an element. -/
theorem eraseLocated_spec (h : ConsistentUnder H s.table) (hb : BucketOf s.table b x) :
    Action.Post U (eraseLocated b) s
      (fun _ s' => Erased s.table [x] s'.table ∧ ConsistentUnder H s'.table ∧
        s'.heap.fault = s.heap.fault) (fun _ => False) := by
  have hindex := h.index
  rcases hindex with ⟨hnone, -, -⟩ | ⟨k, cells, I, hlt, hcap⟩
  · obtain ⟨array, harray, -⟩ := hb
    rw [hnone] at harray
    cases harray
  have hx : x ∈ s.table.iteration := I.mem_of_bucketOf hb
  have hnodup := h.slots.iteration_nodup
  obtain ⟨e, he⟩ := Option.isSome_iff_exists.mp ((h.filled x).mpr hx)
  unfold eraseLocated
  refine post_bucketOf hb fun bucket hnode => ?_
  rw [hnode]
  refine post_eraseBucket I hnodup hlt hb fun cells' I' => ?_
  have hset : SameArena s.table (s.table.setCells cells') := ⟨rfl, rfl, rfl, rfl⟩
  have hslots := hset.slots h.slots
  have hfilled := hset.filled h.filled
  have hremoved := erased_removed hslots hx
  refine post_dropNode (s := ⟨s.table.setCells cells', s.heap⟩) hslots (e := e) he hx ?_
  have hpolicy : SamePolicy s.table (s.table.setCells cells') := ⟨rfl, rfl, rfl, rfl⟩
  have herased : Erased s.table [x] (removed (s.table.setCells cells') x) :=
    ⟨hremoved.iteration, hremoved.order, hremoved.gone,
      fun y hy => (hremoved.others y hy).trans (by rw [hset.nodeAt]),
      hpolicy.trans hremoved.policy, hremoved.chunks.trans hset.chunkIds, hremoved.bucketCount,
      hremoved.capacity⟩
  refine ⟨herased, ⟨hslots.remove hx, hslots.filled_removed hfilled hx, Or.inr ⟨k, cells', ?_⟩⟩,
    rfl⟩
  have I'' := I'.sameIndex (SameIndex.removed (s.table.setCells cells') x)
  refine ⟨I''.perm fun y => ?_, ?_, ?_⟩
  · rw [herased.mem_iff hnodup, hnodup.mem_erase_iff, and_comm, List.mem_singleton]
  · have hsize : (removed (s.table.setCells cells') x).iteration.length + 1 =
        s.table.iteration.length := herased.size
    show (removed (s.table.setCells cells') x).iteration.length < 2 ^ k
    omega
  · rw [(SameIndex.removed (s.table.setCells cells') x).maxLoadCapacity]
    exact hcap

/-- `erase_located` in a table that goes by its own hashes. -/
theorem eraseLocated_consistent (hc : Consistent s.table) (hb : BucketOf s.table b x) :
    Action.Post U (eraseLocated b) s
      (fun _ s' => Erased s.table [x] s'.table ∧ Consistent s'.table ∧
        s'.heap.fault = s.heap.fault) (fun _ => False) := by
  refine (eraseLocated_spec hc.under hb).mono ?_ (fun _ h => h) fun _ h => h
  rintro ⟨⟩ s' ⟨he, hc', hfault⟩
  exact ⟨he, hc'.consistent fun y hy => he.ownHash hc.slots.iteration_nodup hy, hfault⟩

/-- What `erase(key)` answers. -/
inductive ErasedKey (t : Table τ) (key : τ.Key) (n : ℕ) (t' : Table τ) : Prop where
  | absent (count : n = 0) (absent : Absent t key) (same : t' = t)
  | erased (count : n = 1) (x : ℕ) (listed : x ∈ t.iteration) (same_key : Matches t key x)
      (erased : Erased t [x] t')

theorem eraseKey_spec (key : τ.Key) (hc : Consistent s.table) (hroom : Room s.table) :
    Action.Post U (eraseKey key) s
      (fun n s' => Consistent s'.table ∧ ErasedKey s.table key n s'.table) (Refused 1 s) := by
  unfold eraseKey
  refine post_probe (hc.searchable hroom) (fun _ h' => h') ?_ ?_
  · intro b x s1 hprobed hx hmatch hbucket hne
    rw [post_getTable, hprobed.table, if_neg hne]
    rw [← hprobed.table] at hbucket
    refine Action.Post.bind (eraseLocated_consistent (by rw [hprobed.table]; exact hc) hbucket)
      (fun _ h' => h'.elim) ?_
    rintro ⟨⟩ s2 ⟨he, hc2, -⟩
    rw [hprobed.table] at he
    exact ⟨hc2, .erased rfl x hx hmatch he⟩
  · intro s1 hprobed habs
    rw [post_getTable, hprobed.table, if_pos rfl, post_pure, hprobed.table]
    exact ⟨hc, .absent rfl habs rfl⟩

/-- There is no bucket past the end of the array. -/
theorem post_bucketAt_bucketCount {k : Bucket → Exec τ β}
    (hindex : IndexInOrder H s.table.iteration s.table) (hU : U .undefined) :
    Action.Post U (bucketAt s.table.bucketCount >>= k) s Q E := by
  refine post_bucketAt (fun array harray hlt => ?_) fun _ => hU
  rw [hindex.size_eq harray] at hlt
  exact absurd hlt (lt_irrefl _)

/-- The element of a node is equal to its own key and has its own hash. -/
theorem not_absent_self {e : Element τ} (hx : x ∈ t.iteration)
    (he : (t.nodeAt x).storage = some e) (hrefl : ∀ k, t.keyEqual k k = true) :
    ¬ Absent t (τ.keyOf e.value) := by
  intro habs
  have hdiff := habs x hx (ownHash_of_storage he) e he
  rw [hrefl] at hdiff
  cases hdiff

/-- Where no element matches the key of an element, not even this one, the search ends past the
last bucket. -/
theorem post_ownMissing {k : Bucket → Exec τ β} {e : Element τ} (hc : Consistent s.table)
    (he : (s.table.nodeAt i).storage = some e) (habs : Absent s.table (τ.keyOf e.value))
    (hU : U .undefined ∨ ∀ k, s.table.keyEqual k k = true) :
    Action.Post U (bucketAt s.table.bucketCount >>= k) s Q E := by
  rcases hU with hU | hrefl
  · exact post_bucketAt_bucketCount hc.index hU
  · exact absurd habs (not_absent_self ((hc.filled i).mp (by rw [he]; rfl)) he hrefl)

/-- The removal of a node by its key: some element with an equal key goes. -/
def ErasedAt (t : Table τ) (i : ℕ) (t' : Table τ) : Prop :=
  ∃ e x, (t.nodeAt i).storage = some e ∧ x ∈ t.iteration ∧ Matches t (τ.keyOf e.value) x ∧
    Erased t [x] t'

theorem eraseNode_spec (i : ℕ) (hc : Consistent s.table) (hroom : Room s.table)
    (hlive : (s.table.nodeAt i).storage = none → U .undefined)
    (hU : U .undefined ∨ ∀ k, s.table.keyEqual k k = true) :
    Action.Post U (eraseNode i) s
      (fun _ s' => Consistent s'.table ∧ faultPoint s'.heap.fault = faultPoint s.heap.fault ∧
        ErasedAt s.table i s'.table)
      (Refused 1 s) := by
  unfold eraseNode
  refine post_keyAt (fun e he => ?_) hlive
  refine post_probe (hc.searchable hroom) (fun _ h' => h') ?_ ?_
  · intro b x s1 hprobed hx hmatch hbucket hne
    rw [← hprobed.table] at hbucket
    refine (eraseLocated_consistent (by rw [hprobed.table]; exact hc) hbucket).mono ?_
      (fun _ h' => h'.elim) fun _ h' => h'
    rintro ⟨⟩ s2 ⟨herased, hc2, hfault⟩
    rw [hprobed.table] at herased
    exact ⟨hc2, by rw [hfault, hprobed.point], e, x, he, hx, hmatch, herased⟩
  · intro s1 hprobed habs
    rw [← hprobed.table] at hc he habs hU ⊢
    exact post_ownMissing hc he habs hU

/-! ## Extraction -/

theorem constructElement_spec (v : τ.Value) :
    Action.Post U (constructElement v) s
      (fun e s' => s'.table = s.table ∧ e.value = v ∧
        faultPoint s'.heap.fault = faultPoint s.heap.fault)
      (fun s' => s'.table = s.table ∧ faultPoint s.heap.fault = some .construct) :=
  Action.Post.of_bind_pure
    (post_constructElement (fun _ hf => Action.Post.pure ⟨rfl, rfl, hf.faultPoint_eq⟩)
      fun hpoint => ⟨rfl, hpoint⟩)

/-- The handle owns the value that the node held. -/
def Owns (t : Table τ) (x : ℕ) (handle : Handle τ) : Prop :=
  ∃ e cell, (t.nodeAt x).storage = some e ∧ handle.value = some cell ∧
    cell.element.value = e.value

/-- The element in `x` may have been moved from; its bucket still goes by the old hash. -/
structure Vacating (t : Table τ) (x : ℕ) (t' : Table τ) : Prop where
  under : ConsistentUnder (ownHash t) t'
  iteration : t'.iteration = t.iteration
  others : ∀ y, y ≠ x → (t'.nodeAt y).storage = (t.nodeAt y).storage
  policy : SamePolicy t t'
  chunks : chunkIds t' = chunkIds t
  index : SameIndex t t'

theorem Vacating.refl (hc : Consistent t) (x : ℕ) : Vacating t x t :=
  ⟨hc.under, rfl, fun _ _ => rfl, SamePolicy.refl t, rfl, SameIndex.refl t⟩

theorem ConsistentUnder.assign {g : τ.Value → τ.Value} (h : ConsistentUnder H t)
    (ha : Assigned t x g t') (hslots : Slots t' []) : ConsistentUnder H t' :=
  ⟨hslots, fun y => by rw [ha.isSome, ha.iteration]; exact h.filled y, by
    rw [ha.iteration]
    exact h.index.sameIndex ha.index⟩

theorem Vacating.assign {g : τ.Value → τ.Value} (h : Vacating t x t') (ha : Assigned t' x g t'')
    (hslots : Slots t'' []) : Vacating t x t'' where
  under := h.under.assign ha hslots
  iteration := ha.iteration.trans h.iteration
  others y hy := (ha.others y hy).trans (h.others y hy)
  policy := h.policy.trans ha.policy
  chunks := ha.chunks.trans h.chunks
  index := h.index.trans ha.index

theorem BucketOf.sameIndex (hb : BucketOf t b x) (h : SameIndex t t') : BucketOf t' b x := by
  obtain ⟨array, harray, hrest⟩ := hb
  exact ⟨array, by rw [h.buckets, harray], hrest⟩

/-- `erase_located` of an element that may have been moved from. -/
theorem eraseLocated_vacating (hc : Consistent t) (h : Vacating t x s.table)
    (hb : BucketOf t b x) :
    Action.Post U (eraseLocated b) s
      (fun _ s' => Erased t [x] s'.table ∧ Consistent s'.table ∧ s'.heap.fault = s.heap.fault)
      (fun _ => False) := by
  refine (eraseLocated_spec h.under (hb.sameIndex h.index)).mono ?_ (fun _ h' => h') fun _ h' => h'
  rintro ⟨⟩ s' ⟨herased, hunder, hfault⟩
  have herased' : Erased t [x] s'.table :=
    ⟨by rw [← h.iteration]; exact herased.iteration, by rw [← h.iteration]; exact herased.order,
      herased.gone,
      fun y hy => (herased.others y hy).trans (h.others y (List.mem_singleton.not.mp hy)),
      h.policy.trans herased.policy, herased.chunks.trans h.chunks,
      herased.bucketCount.trans h.index.bucketCount,
      herased.capacity.trans h.index.maxLoadCapacity⟩
  exact ⟨herased', hunder.consistent fun y hy => herased'.ownHash hc.slots.iteration_nodup hy,
    hfault⟩

/-- `extract_located` moves the element into a cell of its own and erases its bucket. An
exception leaves the table as it was. -/
theorem extractLocated_spec (hc : Consistent s.table) (hb : BucketOf s.table b x)
    (hx : x ∈ s.table.iteration) :
    Action.Post U (extractLocated b) s
      (fun handle s' => Consistent s'.table ∧ Erased s.table [x] s'.table ∧
        Owns s.table x handle ∧ faultPoint s'.heap.fault = faultPoint s.heap.fault)
      (fun s' => s'.table = s.table ∧
        ∃ p ∈ [Point.handleCell, .construct], faultPoint s.heap.fault = some p) := by
  have hlive := hc.live hx
  unfold extractLocated allocateCell
  refine post_bucketOf hb fun bucket hnode => ?_
  rw [hnode]
  simp only [Action.bind_assoc]
  refine post_mayThrow_bind (fun f hf => ?_) fun hpoint _ => ⟨rfl, _, by simp, hpoint⟩
  rw [post_freshId, post_modifyHeap, Action.pure_bind]
  refine post_elementAt (fun source hsource => ?_) fun hnone => ?_
  swap
  · have hnone' : (s.table.nodeAt x).storage = none := hnone
    rw [hnone'] at hlive
    cases hlive
  refine Action.Post.bind (Q := fun e s1 => s1.table = s.table ∧ e.value = source.value ∧
      faultPoint s1.heap.fault = faultPoint s.heap.fault)
    (E := fun s1 => s1.table = s.table ∧ faultPoint s.heap.fault = some .construct) ?_ ?_ ?_
  · refine Action.Post.cleanup ((constructElement_spec source.value).mono ?_ (fun _ h' => h')
      fun _ h' => h') ?_
    · rintro e s1 ⟨htable, hvalue, hpoint⟩
      exact ⟨htable, hvalue, hpoint.trans hf.faultPoint_eq⟩
    · rintro s1 ⟨htable, hpoint⟩
      exact ⟨htable, hf.faultPoint_eq.symm.trans hpoint⟩
  · rintro s1 ⟨htable, hpoint⟩
    exact ⟨htable, _, by simp, hpoint⟩
  rintro element s1 ⟨htable, hvalue, hpoint⟩
  -- the element is moved from, but its bucket goes by the old hash
  refine Action.Post.bind (assignValue_spec x τ.movedFrom fun hnone => ?_) (fun _ h' => h'.elim) ?_
  · rw [htable] at hnone
    rw [hnone] at hlive
    cases hlive
  rintro ⟨⟩ s2 ⟨ha, hheap, hslots⟩
  rw [htable] at ha hslots
  have hvacating := (Vacating.refl hc x).assign ha (hslots [] hc.slots)
  refine Action.Post.bind (eraseLocated_vacating hc hvacating hb) (fun _ h' => h'.elim) ?_
  rintro ⟨⟩ s3 ⟨herased, hc3, hfault⟩
  rw [post_getTable, post_pure]
  refine ⟨hc3, herased, ⟨source, _, hsource, rfl, hvalue⟩, ?_⟩
  rw [hfault, hheap, hpoint]

/-- An extraction throws in the probe, or when the cell or the element in it is made. -/
def ExtractThrown (s s' : Store τ) : Prop :=
  Refused 1 s s' ∨ s'.table = s.table ∧
    ∃ p ∈ [Point.handleCell, .construct], faultPoint s.heap.fault = some p

/-- `extract_located` after the search. -/
theorem extractLocated_probed (hc : Consistent s.table) (hprobed : Probed s s1)
    (hb : BucketOf s.table b x) (hx : x ∈ s.table.iteration) :
    Action.Post U (extractLocated b) s1
      (fun handle s' => Consistent s'.table ∧ Erased s.table [x] s'.table ∧ Owns s.table x handle)
      (ExtractThrown s) := by
  have hc1 : Consistent s1.table := by rwa [hprobed.table]
  have hb1 : BucketOf s1.table b x := by rwa [hprobed.table]
  have hx1 : x ∈ s1.table.iteration := by rwa [hprobed.table]
  refine (extractLocated_spec hc1 hb1 hx1).mono ?_ ?_ fun _ h' => h'
  · rintro handle s2 ⟨hc2, herased, howns, -⟩
    rw [hprobed.table] at herased howns
    exact ⟨hc2, herased, howns⟩
  · rintro s2 ⟨htable, hpoint⟩
    rw [hprobed.point] at hpoint
    exact Or.inr ⟨htable.trans hprobed.table, hpoint⟩

/-- What `extract(key)` answers. -/
inductive ExtractedKey (t : Table τ) (key : τ.Key) (handle : Handle τ) (t' : Table τ) : Prop where
  | absent (empty : handle.value = none) (absent : Absent t key) (same : t' = t)
  | extracted (x : ℕ) (listed : x ∈ t.iteration) (same_key : Matches t key x)
      (erased : Erased t [x] t') (owns : Owns t x handle)

theorem extractKey_spec (key : τ.Key) (hc : Consistent s.table) (hroom : Room s.table) :
    Action.Post U (extractKey key) s
      (fun handle s' => Consistent s'.table ∧ ExtractedKey s.table key handle s'.table)
      (ExtractThrown s) := by
  unfold extractKey
  refine post_probe (hc.searchable hroom) (fun _ h' => Or.inl h') ?_ ?_
  · intro b x s1 hprobed hx hmatch hbucket hne
    rw [post_getTable, hprobed.table, if_neg hne]
    refine (extractLocated_probed hc hprobed hbucket hx).mono ?_ (fun _ h' => h') fun _ h' => h'
    rintro handle s2 ⟨hc2, herased, howns⟩
    exact ⟨hc2, .extracted x hx hmatch herased howns⟩
  · intro s1 hprobed habs
    rw [post_getTable, hprobed.table, if_pos rfl, post_pure, hprobed.table]
    exact ⟨hc, .absent rfl habs rfl⟩

theorem extractAt_spec (i : ℕ) (hc : Consistent s.table) (hroom : Room s.table)
    (hlive : (s.table.nodeAt i).storage = none → U .undefined)
    (hU : U .undefined ∨ ∀ k, s.table.keyEqual k k = true) :
    Action.Post U (extractAt i) s
      (fun handle s' => Consistent s'.table ∧ ∃ e x, (s.table.nodeAt i).storage = some e ∧
        x ∈ s.table.iteration ∧ Matches s.table (τ.keyOf e.value) x ∧
        Erased s.table [x] s'.table ∧ Owns s.table x handle) (ExtractThrown s) := by
  unfold extractAt
  refine post_keyAt (fun e he => ?_) hlive
  refine post_probe (hc.searchable hroom) (fun _ h' => Or.inl h') ?_ ?_
  · intro b x s1 hprobed hx hmatch hbucket hne
    refine (extractLocated_probed hc hprobed hbucket hx).mono ?_ (fun _ h' => h') fun _ h' => h'
    rintro handle s2 ⟨hc2, herased, howns⟩
    exact ⟨hc2, e, x, he, hx, hmatch, herased, howns⟩
  · intro s1 hprobed habs
    rw [← hprobed.table] at hc he habs hU ⊢
    exact post_ownMissing hc he habs hU

/-! ## Removal of everything -/

/-- The loop of `destroy_all_values`. -/
theorem destroyAllValues_spec (hslots : Slots s.table []) (hf : Filled s.table s.table.iteration) :
    Action.Post U destroyAllValues s (fun _ s' => (∀ x, (s'.table.nodeAt x).storage = none) ∧
      SameIndex s.table s'.table ∧ SamePolicy s.table s'.table ∧
      chunkIds s'.table = chunkIds s.table ∧ s'.heap.fault = s.heap.fault) (fun _ => False) := by
  unfold destroyAllValues
  rw [post_getTable]
  refine (Action.Post.forEach_rest (fun rest s' => Filled s'.table rest ∧
      SameIndex s.table s'.table ∧ SamePolicy s.table s'.table ∧
      chunkIds s'.table = chunkIds s.table ∧ s'.heap.fault = s.heap.fault)
    ⟨hf, SameIndex.refl _, SamePolicy.refl _, rfl, rfl⟩ ?_).mono ?_ (fun _ h => h) fun _ h => h
  · rintro a rest s1 hsuffix ⟨h1, hindex, hpolicy, hids, hfault⟩
    have hnodup : (a :: rest).Nodup := hslots.iteration_nodup.sublist hsuffix.sublist
    obtain ⟨e, he, hfilled⟩ := h1.destroy hnodup
    exact Action.Post.of_run_ok (run_destroyValue he) ⟨hfilled,
      hindex.trans ⟨rfl, rfl, rfl, rfl⟩, hpolicy.trans ⟨rfl, rfl, rfl, rfl⟩,
      (chunkIds_setNode _ _ _).trans hids, hfault⟩
  · rintro ⟨⟩ s' ⟨hfilled, hindex, hpolicy, hids, hfault⟩
    refine ⟨fun x => ?_, hindex, hpolicy, hids, hfault⟩
    exact Option.not_isSome_iff_eq_none.mp fun h => by cases (hfilled x).mp h

/-- No element is left; the buckets stay. -/
structure Cleared (t t' : Table τ) : Prop where
  iteration : t'.iteration = []
  policy : SamePolicy t t'
  chunks : chunkIds t' = chunkIds t
  bucketCount : t'.bucketCount = t.bucketCount
  capacity : t'.maxLoadCapacity = t.maxLoadCapacity

theorem clear_spec (h : ConsistentUnder H s.table) :
    Action.Post U clear s (fun _ s' => Cleared s.table s'.table ∧ Consistent s'.table)
      (fun _ => False) := by
  unfold clear
  rw [post_getTable]
  by_cases hempty : s.table.iteration = [] ∧ s.table.freeListHead = kNullIndex ∧
      s.table.arenaHighWater = 0
  · rw [if_pos hempty, post_pure]
    refine ⟨⟨hempty.1, SamePolicy.refl _, rfl, rfl, rfl⟩, h.consistent fun x hx => ?_⟩
    rw [hempty.1] at hx
    cases hx
  rw [if_neg hempty]
  refine Action.Post.bind (destroyAllValues_spec h.slots h.filled) (fun _ h' => h') ?_
  rintro ⟨⟩ s1 ⟨hnone, hindex, hpolicy, hids, -⟩
  rw [post_modifyTable_last]
  refine ⟨⟨rfl, hpolicy.trans ⟨rfl, rfl, rfl, rfl⟩, hids, hindex.bucketCount,
    hindex.maxLoadCapacity⟩, ?_⟩
  refine ⟨⟨⟨[], rfl, List.Perm.refl _⟩, Nat.zero_le _, Nat.zero_le _, fun p j hj => by cases hj⟩,
    fun x => ?_, ?_⟩
  · show ((s1.table.nodeAt x).storage).isSome ↔ x ∈ []
    rw [hnone]
    simp
  · rcases h.index with ⟨hb, hcount, -⟩ | ⟨k, cells, I, hlt, hcap⟩
    · refine Or.inl ⟨?_, hindex.bucketCount.trans hcount, rfl⟩
      show s1.table.buckets.map _ = none
      rw [hindex.buckets, hb]
      rfl
    · have I1 : Indexed H [] (s1.table.setCells emptyCells) k emptyCells :=
        (I.sameIndex hindex).setCells (emptyCells_layout k H).1 fun x => by
          simpa using (emptyCells_layout k H).2 x
      refine Or.inr ⟨k, emptyCells, ?_, Nat.two_pow_pos k, ?_⟩
      · exact (I1.congr fun x hx => by cases hx).sameIndex ⟨rfl, rfl, rfl, rfl⟩
      · show s1.table.maxLoadCapacity < 2 ^ k
        rw [hindex.maxLoadCapacity]
        exact hcap

/-- The throwing points of the local vector of `erase(first, last)`. -/
theorem scratch_spec (l : List ℕ) :
    Action.Post U (Action.forEach l fun _ => (mayThrow .scratch : Exec τ Unit)) s
      (fun _ s' => Passes [.scratch] s s') (Throws [.scratch] s) := by
  refine Action.Post.forEach (fun _ => Passes [.scratch] s) (Passes.refl _ _) ?_
  rintro done a rest s1 - h1
  exact post_mayThrow (fun f hf => h1.trans hf.passes_self) fun hpoint _ =>
    h1.throws (Throws.here hpoint)

end Fum.Analysis
