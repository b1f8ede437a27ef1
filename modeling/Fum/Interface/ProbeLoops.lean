import Fum.Analysis.Traces
import Fum.Interface.Copying
import Fum.Interface.EmptyBucket
import Fum.Interface.IndexInvariant

/-!
# Every probe ends

None of the four loops over the bucket array counts its steps. Each of them meets an empty
bucket before it comes round to where it began, so it examines no bucket twice; and the two
that search walk over occupied buckets until then, of which there are as many as elements.
-/

set_option autoImplicit false

namespace Fum.Interface

open Fum.Model Fum.Analysis Effects RobinHood

variable {τ : Traits} {U : Stuck → Prop} {s s' : Store τ} {t : Table τ} {array : BucketArray τ}
  {n k : ℕ}

/-- No bucket is examined twice. -/
def Once (t : Table τ) (examined : List ℕ) : Prop :=
  examined.Nodup ∧ ∀ b ∈ examined, b < t.bucketCount

/-- No bucket is examined twice, and at most one more than there are elements. -/
def Brief (t : Table τ) (examined : List ℕ) : Prop :=
  Once t examined ∧ examined.length ≤ t.size + 1

/-- `rehash_to` up to the nodes in `done`. -/
def rebuildUpTo (newBucketCount : ℕ) (done : List ℕ) : Exec τ Unit := do
  deallocateBuckets
  allocateBuckets newBucketCount
  Action.forEach done replaceNode

/-- The bucket counts with which a table builds its index anew: when it has to grow for one more
element, and when buckets are asked for and there are enough of them. -/
inductive RebuildCount (t : Table τ) : ℕ → Prop where
  | growth : NeedsGrowth t → RebuildCount t (countForOneMore t)
  | request {n c : ℕ} : rehashCount t n = some c → c ≠ 0 → t.size < c → RebuildCount t c

/-- Every loop over the buckets of the table ends and is no longer than it has to be. -/
structure ProbesEnd (U : Stuck → Prop) (t : Table τ) : Prop where
  findBucket : ∀ (key : τ.Key) (hash : UInt64) (heap : Heap),
    Brief t (findBucketExamined key hash ⟨t, heap⟩) ∧
      Action.Post U (Model.findBucket key hash) ⟨t, heap⟩ (fun _ _ => True) (fun _ => True)
  /-- `place_and_shift_up` goes on from where `probe_start` has stopped. -/
  probeStart : ∀ (hash : UInt64) (heap : Heap), ∃ word index,
    (Model.probeStart hash).run ⟨t, heap⟩ = (.ok (word, index), ⟨t, heap⟩) ∧
      Brief t (probeStartExamined t hash) ∧
      ∀ node, Once t (placeExamined t word index node) ∧
        ((placeAndShiftUp word index node).run ⟨t, heap⟩).1 = .ok ()
  /-- During a rebuild it starts from a home bucket. -/
  rebuild : ∀ c, RebuildCount t c → ∀ done node rest, t.iteration = done ++ node :: rest →
    ∀ (heap : Heap) (s : Store τ), (rebuildUpTo c done).run ⟨t, heap⟩ = (.ok (), s) →
      ∀ hash : UInt64,
        Once s.table (placeExamined s.table (distAndFingerprintFromHash hash)
          (s.table.homeFromHash hash) node) ∧
        ((placeAndShiftUp (distAndFingerprintFromHash hash) (s.table.homeFromHash hash)
          node).run s).1 = .ok ()
  eraseBucket : ∀ b, Occupied t b → ∀ heap : Heap,
    Once t (b :: eraseExamined t b) ∧ ((Model.eraseBucket b).run ⟨t, heap⟩).1 = .ok ()

/-! ## Indices in order -/

theorem rehashTo_eq (newBucketCount : ℕ) :
    (rehashTo newBucketCount : Exec τ Unit) = getTable >>= fun t =>
      modifyHeap (fun h => { h with rehashes := h.rehashes ++ [(newBucketCount, t.size)] }) >>=
        fun _ => rebuildUpTo newBucketCount t.iteration := rfl

theorem cellsOf_eq (hbuckets : t.buckets = some array) : cellsOf t = array.cells := by
  simp [cellsOf, hbuckets]

section

variable (hbuckets : s.table.buckets = some array)

include hbuckets

theorem run_getCells_bind {β : Type} (f : (ℕ → Bucket) → Exec τ β) {x : Exec τ β}
    (hx : f array.cells = x) : (getCells >>= f).run s = x.run s := by
  have h : (getCells : Exec τ (ℕ → Bucket)).run s = (.ok array.cells, s) := by
    unfold getCells
    rw [run_getTable, hbuckets]
    rfl
  rw [← hx]
  exact Action.run_bind_ok f h

theorem run_probeStart (hash : UInt64) : (probeStart hash).run s =
    (ended (probeStartLoop s.table.bucketCount array.cells (loopFuel s.table.bucketCount)
      (distAndFingerprintFromHash hash) (s.table.homeFromHash hash))).run s :=
  run_getCells_bind hbuckets _ rfl

theorem run_placeAndShiftUp (word index node : ℕ) : (placeAndShiftUp word index node).run s =
    (ended (placeLoop s.table.bucketCount (loopFuel s.table.bucketCount) array.cells word index
      node) >>= fun cells => modifyTable fun t => t.setCells cells).run s :=
  run_getCells_bind hbuckets _ rfl

theorem run_eraseBucket (index : ℕ) : (eraseBucket index).run s =
    (ended (eraseLoop s.table.bucketCount (loopFuel s.table.bucketCount) array.cells index
      (nextBucket s.table.bucketCount index)) >>= fun cells =>
        modifyTable fun t => t.setCells cells).run s :=
  run_getCells_bind hbuckets _ rfl

end

/-- A walk of fewer steps than there are buckets. -/
theorem once_around (hcount : t.bucketCount = 2 ^ k) {p m : ℕ} (hm : m ≤ 2 ^ k) :
    Once t (around (2 ^ k) p m) := by
  refine ⟨nodup_around hm, fun b hb => ?_⟩
  rw [hcount]
  exact lt_of_mem_around (Nat.two_pow_pos k) hb

/-- A walk over occupied buckets, and one step more. -/
theorem brief_around (h : Ordered n k t array) (hn : n ≤ t.size) {p m : ℕ} (hm : m + 1 ≤ 2 ^ k)
    (hocc : ∀ q ∈ around (2 ^ k) p m, words array.cells q ≠ 0) :
    Brief t (around (2 ^ k) p (m + 1)) := by
  refine ⟨once_around h.bucketCount hm, ?_⟩
  rw [length_around]
  have hcard := around_le_card (by omega) hocc
  have hfew := h.few
  unfold occupancy at hfew
  omega

section

variable (hbuckets : s.table.buckets = some array) (h : Ordered n k s.table array)
  (hlt : n < 2 ^ k)

include hbuckets h hlt

theorem probeStart_brief (hn : n ≤ s.table.size) (hash : UInt64) : ∃ word index,
    (probeStart hash).run s = (.ok (word, index), s) ∧ index < 2 ^ k ∧
      Brief s.table (probeStartExamined s.table hash) := by
  obtain ⟨e, he, hempty⟩ := h.exists_empty hlt
  obtain ⟨j, hj, hje⟩ := exists_steps (s.table.homeFromHash hash) he
  obtain ⟨m, hm, hocc, word, index, hindex, htrace⟩ := probeStartTrace_around he hempty j
    (loopFuel (2 ^ k)) _ (distAndFingerprintFromHash hash) (h.homeFromHash_lt hash) hje
    (lt_loopFuel hj)
  refine ⟨word, index, ?_, hindex, ?_⟩
  · rw [run_probeStart hbuckets, h.bucketCount, ← probeStartTrace_result, htrace]
    rfl
  · unfold probeStartExamined
    rw [cellsOf_eq hbuckets, h.bucketCount, htrace, examined_some]
    exact brief_around h hn (by omega) hocc

theorem placeAndShiftUp_once {p : ℕ} (hp : p < 2 ^ k) (c x : ℕ) :
    Once s.table (placeExamined s.table c p x) ∧ ((placeAndShiftUp c p x).run s).1 = .ok () := by
  obtain ⟨e, he, hempty⟩ := h.exists_empty hlt
  obtain ⟨j, hj, hje⟩ := exists_steps p he
  obtain ⟨m, hm, cells', htrace⟩ := placeTrace_around j (loopFuel (2 ^ k)) array.cells p c x
    hempty hp hje (lt_loopFuel hj)
  constructor
  · unfold placeExamined
    rw [cellsOf_eq hbuckets, h.bucketCount, htrace, examined_some]
    exact once_around h.bucketCount (by omega)
  · rw [run_placeAndShiftUp hbuckets, h.bucketCount, ← placeTrace_result, htrace]
    rfl

theorem eraseBucket_once {b : ℕ} (hb : b < 2 ^ k) (hocc : words array.cells b ≠ 0) :
    Once s.table (b :: eraseExamined s.table b) ∧ ((eraseBucket b).run s).1 = .ok () := by
  obtain ⟨e, he, hempty⟩ := h.exists_empty hlt
  have hbe : b ≠ e := by
    rintro rfl
    exact hocc hempty
  obtain ⟨j, hj, hje⟩ := exists_steps_succ hb he hbe
  obtain ⟨m, hm, cells', htrace⟩ := eraseTrace_around j (loopFuel (2 ^ k)) array.cells b
    hempty hb hbe hje (lt_loopFuel (Nat.lt_of_succ_lt hj))
  constructor
  · unfold eraseExamined
    rw [cellsOf_eq hbuckets, h.bucketCount, nextBucket_eq, htrace, examined_some,
      ← around_succ hb]
    exact once_around h.bucketCount (by omega)
  · rw [run_eraseBucket hbuckets, h.bucketCount, nextBucket_eq, ← eraseTrace_result, htrace]
    rfl

theorem findBucket_brief (hn : n ≤ s.table.size) (hroom : n + 2 ≤ 2 ^ 24) (key : τ.Key)
    (hash : UInt64) : Brief s.table (findBucketExamined key hash s) := by
  obtain ⟨e, he, hempty⟩ := h.exists_empty hlt
  obtain ⟨j, hj, hje⟩ := exists_steps (s.table.homeFromHash hash) he
  obtain ⟨m, hm, hocc, htrace⟩ := findBucketTrace_around key hbuckets h hroom he hempty j
    (loopFuel (2 ^ k)) _ _ s rfl (h.homeFromHash_lt hash) hje (lt_loopFuel hj)
    (ranged_distAndFingerprintFromHash k hash) (home_fits _ _ _)
  have hne := h.bucketCount_ne_zero
  unfold findBucketExamined
  rw [if_neg hne, h.bucketCount, htrace]
  exact brief_around h hn (by omega) hocc

end

/-! ## Rebuilds -/

theorem placeAndShiftUp_keeps_buckets (c p x : ℕ) (s : Store τ) :
    Action.Post Stuck.anyhow (placeAndShiftUp c p x) s
      (fun _ s' => s'.table.buckets.isSome = s.table.buckets.isSome) (fun _ => True) := by
  unfold placeAndShiftUp
  rw [post_getTable]
  refine post_getCells (fun array _ => ?_) fun _ => trivial
  refine post_ended (fun cells _ => ?_) fun _ => trivial
  rw [post_modifyTable_last]
  exact Option.isSome_map

/-- A rebuild that has placed some of the nodes has as many buckets occupied at most. -/
theorem rebuildUpTo_ordered (hk : 3 ≤ k) {done : List ℕ} (hlt : done.length < 2 ^ k)
    (hroom : done.length + 2 ≤ 2 ^ 24) :
    Action.Post Stuck.undefinedOnly (rebuildUpTo (2 ^ k) done) s
      (fun _ s' => ∃ array, s'.table.buckets = some array ∧ Ordered done.length k s'.table array)
      (fun _ => True) := by
  unfold rebuildUpTo
  refine Action.Post.bind (Q := fun _ _ => True) (E := fun _ => True) ?_ (fun _ h' => h')
    fun _ s1 _ => ?_
  · unfold deallocateBuckets
    rw [post_getTable]
    cases s.table.buckets with
    | none => trivial
    | some array => trivial
  refine Action.Post.bind (Q := fun _ s' => ∃ array, s'.table.buckets = some array ∧
    Ordered 0 k s'.table array) (E := fun _ => True) ?_ (fun _ h' => h') fun _ s2 h2 => ?_
  · unfold allocateBuckets
    refine post_mayThrow_bind (fun f _ => ?_) fun _ _ => trivial
    rw [post_freshId, post_modifyHeap, post_modifyTable_last]
    exact ⟨_, rfl, hk, rfl, rfl, rfl, words_empty _ _, (card_emptyCells k).le⟩
  refine Action.Post.forEach (fun done (s' : Store τ) => ∃ array, s'.table.buckets = some array ∧
    Ordered done.length k s'.table array) h2 fun front node rest s3 hsplit h3 => ?_
  obtain ⟨array, harray, h⟩ := h3
  have hfront : front.length + 1 ≤ done.length := by
    rw [hsplit, List.length_append, List.length_cons]
    omega
  have hU : Stuck.undefinedOnly .undefined := rfl
  unfold replaceNode
  refine post_idles hU (Idles.keyAt node) (fun _ _ => trivial) fun key s4 h4 =>
    post_idles hU (Idles.callMixedHash key) (fun _ _ => trivial) fun hash s5 h5 => ?_
  have h45 := h4.trans h5
  have harray5 : s5.table.buckets = some array := h45.index.buckets.trans harray
  have hordered : Ordered front.length k s5.table array :=
    ⟨h.three_le, h45.index.bucketCount.trans h.bucketCount,
      h45.index.bucketShift.trans h.bucketShift, h.size, h.words, h.few⟩
  rw [post_getTable]
  refine ((placeAndShiftUp_ends node harray5 hordered (by omega) (by omega)
    (hordered.homeFromHash_lt hash) (ranged_distAndFingerprintFromHash k hash)
    (home_fits _ _ _)).and (placeAndShiftUp_keeps_buckets _ _ node s5)).mono ?_
    (fun _ _ => trivial) fun _ h' => h'
  rintro ⟨⟩ s6 ⟨h6, hsome⟩
  rw [harray5] at hsome
  obtain ⟨array6, harray6⟩ := Option.isSome_iff_exists.mp hsome
  refine ⟨array6, harray6, ?_⟩
  rw [List.length_append, List.length_singleton]
  exact h6 array6 harray6

/-! ## Every state -/

/-- A table with its index in order is built anew with a power of two above its size. -/
theorem RebuildCount.exists_pow {c : ℕ} (hc : RebuildCount t c) (h : Ordered t.size k t array)
    (hlt : t.size < 2 ^ k) : ∃ k', 3 ≤ k' ∧ c = 2 ^ k' ∧ t.size < 2 ^ k' := by
  cases hc with
  | growth =>
      unfold countForOneMore
      rw [if_neg h.bucketCount_ne_zero, h.bucketCount]
      split
      · refine ⟨k + 1, Nat.le_succ_of_le h.three_le, (pow_succ 2 k).symm, ?_⟩
        exact hlt.trans (Nat.pow_lt_pow_right (by decide) (Nat.lt_succ_self k))
      · exact ⟨k, h.three_le, rfl, hlt⟩
  | request hcount hne hsize =>
      obtain ⟨k', hk', rfl⟩ := rehashCount_ne_zero hcount hne
      exact ⟨k', hk', rfl, hsize⟩

/-- With its index in order and a bucket to spare every probe of a table ends. -/
theorem probesEnd_of_ordered (hbuckets : t.buckets = some array) (h : Ordered t.size k t array)
    (hlt : t.size < 2 ^ k) (hroom : Room t)
    (hfind : ∀ key hash heap, Action.Post U (findBucket key hash) ⟨t, heap⟩
      (fun _ _ => True) (fun _ => True)) : ProbesEnd U t where
  findBucket key hash heap :=
    ⟨findBucket_brief (s := ⟨t, heap⟩) hbuckets h hlt le_rfl hroom key hash, hfind key hash heap⟩
  probeStart hash heap := by
    obtain ⟨word, index, hrun, hindex, hbrief⟩ :=
      probeStart_brief (s := ⟨t, heap⟩) hbuckets h hlt le_rfl hash
    exact ⟨word, index, hrun, hbrief,
      placeAndShiftUp_once (s := ⟨t, heap⟩) hbuckets h hlt hindex word⟩
  rebuild c hc done node rest hsplit heap s hrun hash := by
    obtain ⟨k', hk, rfl, hsize⟩ := hc.exists_pow h hlt
    have hdone : done.length + 1 ≤ t.size := by
      unfold Table.size
      rw [hsplit, List.length_append, List.length_cons]
      omega
    have hroom' : t.size + 2 ≤ 2 ^ 24 := hroom
    obtain ⟨array', harray', h'⟩ :=
      (rebuildUpTo_ordered hk (by omega) (by omega)).ok_of_run hrun
    exact placeAndShiftUp_once harray' h' (by omega) (h'.homeFromHash_lt hash) _ node
  eraseBucket b hb heap := by
    obtain ⟨hlt', hocc⟩ := hb
    refine eraseBucket_once (s := ⟨t, heap⟩) hbuckets h hlt (by rwa [← h.bucketCount]) ?_
    unfold wordAt at hocc
    rwa [hbuckets] at hocc

/-- What requests of any kind leave of a table that starts empty: whatever the functors do and
wherever a request throws. -/
def Requested (t : Table τ) : Prop :=
  ∃ factor hash equal alloc requests,
    Served (fun t r => r.Fits t ∧ Room t) (fresh factor hash equal alloc : Store τ) requests ∧
      (after (fresh factor hash equal alloc) requests).table = t ∧ Room t ∧ t.buckets ≠ none

/-- With a load factor of at most one, whatever buckets are asked for are enough. -/
theorem rebuildCount_of_moderate (hz : Moderate t) {c : ℕ} (hcount : rehashCount t n = some c)
    (hne : c ≠ 0) : RebuildCount t c := by
  have hsome : rehashCount t n ≠ none := by
    rw [hcount]
    exact Option.some_ne_none c
  obtain ⟨c', hc', hlt⟩ := rehashFits_of_atMostOne hz hsome
  obtain rfl : c = c' := Option.some.inj (hcount.symm.trans hc')
  exact .request hcount hne (hlt hne)

/-- With a load factor of at most one, a call returns if and only if `std::size_t` counts the
buckets that it asks for. -/
theorem returns_iff_sizableIn (h : Reachable t) (hz : Moderate t) {op : Op τ}
    (hvalid : ValidIn t op) {heap : Heap} (hquiet : heap.fault = none) :
    (∃ reply s', op.exec.run ⟨t, heap⟩ = (.ok reply, s')) ↔ SizableIn t op := by
  constructor
  · rintro ⟨reply, s', hrun⟩
    exact (Op.exec_sizableIn (s := ⟨t, heap⟩) op).ok_of_run hrun
  · intro hsized
    obtain ⟨hwell, hroom⟩ := h.sturdy
    have hpost : Action.Post Stuck.never op.exec ⟨t, heap⟩ (fun _ _ => True) (fun _ => False) :=
      (Op.exec_spec (s := ⟨t, heap⟩) op hwell.consistent hroom (hsized.fitsIn hz)
        (Or.inr ⟨hvalid, h.lawful, hwell.distinct h.lawful⟩)).mono (fun _ _ _ => trivial)
        (fun _ h' => h'.fault hquiet) fun _ h' => h'
    obtain ⟨reply, s', hrun, -⟩ := hpost.returns
    exact ⟨reply, s', hrun⟩

/-- Every probe ends in every state that requests for buckets enough lead to: of a program with
lawful functors, where none of them is undefined either, and after requests with any functors and
any exceptions. With a load factor of at most one, the buckets asked for are enough if there can
be as many, and only then the call returns. -/
theorem probe_loops_end (h : Reachable t ∧ t.bucketCount ≠ 0 ∨ Requested t) :
    ProbesEnd Stuck.undefinedOnly t ∧
      (Reachable t → t.bucketCount ≠ 0 → ProbesEnd Stuck.never t) ∧
      (Moderate t → (∀ n c, rehashCount t n = some c → c ≠ 0 → RebuildCount t c) ∧
        (Reachable t → ∀ op, ValidIn t op → ∀ heap : Heap, heap.fault = none →
          ((∃ reply s', op.exec.run ⟨t, heap⟩ = (.ok reply, s')) ↔ SizableIn t op))) := by
  have hreachable : ∀ U : Stuck → Prop, Reachable t → t.bucketCount ≠ 0 → ProbesEnd U t := by
    intro U hreach hcount
    obtain ⟨hwell, hroom⟩ := hreach.sturdy
    have hc := hwell.consistent
    rcases hc.index with ⟨-, hzero, -⟩ | ⟨k, cells, I, hlt, -⟩
    · exact absurd hzero hcount
    · obtain ⟨array, harray, hordered⟩ := I.ordered hc.slots.iteration_nodup
      refine probesEnd_of_ordered harray hordered hlt hroom fun key hash heap => ?_
      exact (findBucket_spec (s := ⟨t, heap⟩) hc.index hc.slots.iteration_nodup
        (fun _ hx => hc.live hx) hroom).mono (fun _ _ _ => trivial) (fun _ _ => trivial)
        fun _ h' => h'
  refine ⟨?_, hreachable Stuck.never, fun hz => ⟨fun _ _ => rebuildCount_of_moderate hz,
    fun hreach _ hvalid _ hquiet => returns_iff_sizableIn hreach hz hvalid hquiet⟩⟩
  rcases h with ⟨hreach, hcount⟩ | ⟨factor, hash, equal, alloc, requests, hserved, rfl, hroom, hb⟩
  · exact hreachable _ hreach hcount
  · have hd : ¬ Stuck.undefinedOnly .diverged := fun h => by cases h
    have hs := Served.spare (U := Stuck.undefinedOnly) rfl _
      (hserved.mono _ fun t r hr => ⟨hr.1, fun _ => hr.2⟩) (fresh_spare _ factor hash equal alloc)
    obtain ⟨array, harray⟩ := Option.ne_none_iff_exists'.mp hb
    obtain ⟨k, hordered⟩ := hs.cells hd array harray
    have hlt := hs.sizes.size_lt hordered.bucketCount
    refine probesEnd_of_ordered harray hordered hlt hroom fun key hash' heap => ?_
    exact (findBucket_ends (s := ⟨_, heap⟩) key hash' harray hordered hlt hroom).mono
      (fun _ _ _ => trivial) (fun _ _ => trivial) fun _ h' => h'

theorem probe_loops_end_five : ProbesEnd Stuck.never
    (((finish World.empty fiveSteps).table? 0).get five_made) :=
  (probe_loops_end (Or.inl ⟨five_reachable, by decide +kernel⟩)).2.1 five_reachable
    (by decide +kernel)

/-- Eight elements of one home, which `rehash` puts into eight buckets under a load factor of four,
and a load factor of one afterwards. -/
def crammedSteps : List (Step NatMap) :=
  ⟨.construct 0 (fun _ => UInt64.ofNat 0) (fun a b => a == b) (), none⟩ ::
    (List.range 8).map (fun k => ⟨.table 0 (.insert (k, k)), none⟩) ++
    [⟨.table 0 (.maxLoadFactor (.finite 4 rfl)), none⟩, ⟨.table 0 (.rehash 0), none⟩,
      ⟨.table 0 (.maxLoadFactor (.finite 1 rfl)), none⟩]

theorem crammed_made : ((finish World.empty crammedSteps).table? 0).isSome := by decide +kernel

/-- With eight elements in eight buckets, the search for a key that is not there comes round to
where it began; and with nine and a load factor of `2 ^ -60`, `rehash(0)` asks for more buckets
than `std::size_t` counts. -/
theorem probe_comes_round :
    (EachStep Step.Completes World.empty crammedSteps ∧
      EachStep Calm World.empty crammedSteps ∧
      Moderate (((finish World.empty crammedSteps).table? 0).get crammed_made) ∧
      (((finish World.empty crammedSteps).table? 0).get crammed_made).bucketCount = 8 ∧
      findBucketExamined (8 : ℕ) 0
        ⟨((finish World.empty crammedSteps).table? 0).get crammed_made, Heap.empty⟩ =
          [0, 1, 2, 3, 4, 5, 6, 7, 0]) ∧
    (EachStep Step.Completes World.empty tinySteps ∧ EachStep Calm World.empty tinySteps ∧
      (∀ step ∈ tinySteps, FactorAtMostOne step.op) ∧
      (((finish World.empty tinySteps).table? 0).get tiny_made).bucketCount = 16 ∧
      ((Model.rehash 0).run ⟨((finish World.empty tinySteps).table? 0).get tiny_made,
        Heap.empty⟩).1 = .undefined) := by
  decide +kernel

end Fum.Interface
