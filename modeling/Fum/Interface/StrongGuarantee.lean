import Fum.Interface.BasicGuarantee
import Fum.Interface.HistoryIndependence

/-!
# Failing allocations and constructors

An insertion or a rebuild that fails for want of memory, or because a constructor throws,
leaves the table as it was, unless it is the new bucket array that fails: the old one has
gone by then, and `bucket_count_` still counts it.
-/

set_option autoImplicit false

namespace Fum.Interface

open Fum.Model Fum.Analysis Effects

variable {τ : Traits} {t t' : Table τ} {s s' : Store τ} {heap : Heap} {n : ℕ}

/-- The table is usable and observably what it was. -/
structure Unaffected (t t' : Table τ) : Prop where
  /-- There are as many buckets as the table counts. -/
  buckets : t'.bucketCount ≠ 0 →
    ∃ array, t'.buckets = some array ∧ array.size = t'.bucketCount
  intact : Intact t'
  /-- Every element is where it was, with its value. -/
  elements : ∀ slot, (t'.nodeAt slot).storage = (t.nodeAt slot).storage
  order : t'.iteration = t.iteration
  size : t'.size = t.size
  /-- The keys are the same, so a key that was absent is absent. -/
  keys : ∀ key, Present t' key ↔ Present t key

/-- An allocation, or the constructor of the element, throws. -/
def AllocationFault (fault : Option (Point × ℕ)) : Prop :=
  ∃ p ∈ [Point.chunk, .chunksGrowth, .iterationGrowth, .bucketArray, .construct],
    faultPoint fault = some p

/-- The new bucket array of a table that has one cannot be allocated. -/
def LosesBuckets (t : Table τ) (fault : Option (Point × ℕ)) : Prop :=
  faultPoint fault = some .bucketArray ∧ t.bucketCount ≠ 0

/-- The call inserts one element or asks for buckets. -/
def Grows : Op τ → Prop
  | .insert _ | .tryEmplace _ _ | .insertOrAssign _ _ | .rehash _ | .reserve _ => True
  | _ => False

theorem AllocationFault.ne_functor (h : AllocationFault heap.fault) :
    ¬ FunctorFault heap.fault := by
  obtain ⟨p, hp, hpoint⟩ := h
  rintro (hf | hf) <;> rw [hpoint] at hf <;> cases hf <;> simp at hp

/-- The same elements with an index in order. -/
theorem unaffected_of_sameElements (hs : Sturdy t) (hlaw : LawfulTable t)
    (hsame : SameElements t t') (hc' : Consistent t') : Unaffected t t' where
  buckets hne := by
    rcases hc'.index with ⟨-, hzero, -⟩ | ⟨k, cells, I, -, -⟩
    · exact absurd hzero hne
    · obtain ⟨array, harray, hsize, -⟩ := I.buckets
      exact ⟨array, harray, hsize.trans I.bucketCount.symm⟩
  intact := by
    refine intact_of_wellFormed (hs.1.of_sameElements hsame hc') ?_
      (hsame.policy.lawfulTable.mpr hlaw)
    have hroom := hs.2
    unfold Room Table.size at hroom ⊢
    rwa [hsame.iteration]
  elements := hsame.storage
  order := hsame.iteration
  size := congrArg List.length hsame.iteration
  keys key := by
    refine exists_congr fun x => exists_congr fun e => ?_
    rw [hsame.storage x, hsame.policy.keyEqual]

theorem not_unaffected_of_lost (h : LostBuckets t t') (hne : t.bucketCount ≠ 0) :
    ¬ Unaffected t t' := by
  intro hu
  obtain ⟨array, harray, -⟩ := hu.buckets (by rwa [h.bucketCount])
  rw [h.buckets] at harray
  cases harray

/-- Without buckets before, a failing bucket array does no harm either. -/
theorem unaffected_iff_of_lost (hs : Sturdy t) (hlaw : LawfulTable t) (h : LostBuckets t t')
    (hpoint : faultPoint heap.fault = some .bucketArray) :
    Unaffected t t' ↔ ¬ LosesBuckets t heap.fault := by
  by_cases hzero : t.bucketCount = 0
  · exact iff_of_true (unaffected_of_sameElements hs hlaw h.same
      (h.consistent hs.1.consistent hzero)) fun hl => hl.2 hzero
  · exact iff_of_false (not_unaffected_of_lost h hzero) (not_not.mpr ⟨hpoint, hzero⟩)

/-! ## Where a rebuild throws -/

theorem replaceNode_point (node : ℕ) :
    Action.Post Stuck.anyhow (replaceNode node) s
      (fun _ s' => faultPoint s'.heap.fault = faultPoint s.heap.fault)
      (fun _ => faultPoint s.heap.fault = some .hash) := by
  unfold replaceNode
  refine post_keyAt (fun e _ => post_callMixedHash (fun f hf => ?_) fun hpoint _ => hpoint)
    fun _ => trivial
  have hended : ∀ o : Option (ℕ → Bucket), Action.Post Stuck.anyhow
      (ended o >>= fun cells => modifyTable fun t : Table τ => t.setCells cells)
      ⟨s.table, withFault s.heap f⟩
      (fun _ s' => faultPoint s'.heap.fault = faultPoint s.heap.fault)
      (fun _ => faultPoint s.heap.fault = some .hash) := by
    intro o
    cases o with
    | none => trivial
    | some cells => exact hf.faultPoint_eq
  rw [post_getTable]
  unfold placeAndShiftUp
  rw [post_getTable]
  exact post_getCells (fun array _ => hended _) fun _ => trivial

/-- A rebuild throws where the new array is allocated, when the old one has gone, or where a
key is hashed. -/
theorem rehashTo_point (n : ℕ) (hc : Consistent s.table) :
    Action.Post Stuck.anyhow (rehashTo n) s (fun _ _ => True)
      (fun s' => faultPoint s.heap.fault = some .bucketArray ∧ LostBuckets s.table s'.table ∨
        faultPoint s.heap.fault = some .hash) := by
  unfold rehashTo
  rw [post_getTable, post_modifyHeap]
  refine Action.Post.bind deallocateBuckets_spec (fun _ h' => h'.elim) ?_
  rintro ⟨⟩ s1 ⟨htable1, hfault1⟩
  have hpoint1 : faultPoint s1.heap.fault = faultPoint s.heap.fault := by rw [hfault1]
  refine Action.Post.bind (Q := fun _ s2 => faultPoint s2.heap.fault = faultPoint s.heap.fault)
    ?_ (fun _ h' => h') fun _ s2 h2 => ?_
  · unfold allocateBuckets
    refine post_mayThrow_bind (fun f hf => ?_) fun hp _ => Or.inl ⟨hpoint1.symm.trans hp, ?_⟩
    · rw [post_freshId, post_modifyHeap, post_modifyTable_last]
      exact hf.faultPoint_eq.trans hpoint1
    · have harena : SameArena s.table s1.table := by
        rw [htable1]
        exact ⟨rfl, rfl, rfl, rfl⟩
      have hpolicy : SamePolicy s.table s1.table := by
        rw [htable1]
        exact ⟨rfl, rfl, rfl, rfl⟩
      exact ⟨harena.sameElements hpolicy, harena.slots hc.slots, by rw [htable1],
        by rw [htable1]⟩
  · refine (Action.Post.forEach (fun _ s3 => faultPoint s3.heap.fault =
      faultPoint s.heap.fault) h2 ?_).mono (fun _ _ _ => trivial) (fun _ h' => h') fun _ h' => h'
    rintro done node rest s3 - h3
    exact (replaceNode_point node).mono (fun _ _ h' => h'.trans h3)
      (fun _ h' => Or.inr (h3.symm.trans h')) fun _ h' => h'

theorem rehash_point (n : ℕ) (hc : Consistent s.table) :
    Action.Post Stuck.anyhow (rehash n) s (fun _ _ => True)
      (fun s' => faultPoint s.heap.fault = some .bucketArray ∧ LostBuckets s.table s'.table ∨
        faultPoint s.heap.fault = some .hash) := by
  refine post_rehash (fun _ => trivial) ?_ (fun _ => trivial) fun k _ _ => rehashTo_point _ hc
  intro _ _
  refine Action.Post.bind deallocateBuckets_spec (fun _ h' => h'.elim) fun _ s1 _ => ?_
  rw [post_modifyTable_last]
  trivial

theorem reserve_point (n : ℕ) (hc : Consistent s.table) :
    Action.Post Stuck.anyhow (reserve n) s (fun _ _ => True)
      (fun s' => faultPoint s.heap.fault = some .bucketArray ∧ LostBuckets s.table s'.table ∨
        faultPoint s.heap.fault = some .hash) := by
  exact post_reserve (fun _ => trivial) fun m _ => rehash_point m hc

/-! ## Calls that throw -/

theorem insertThrown_iff (hs : Sturdy s.table) (hlaw : LawfulTable s.table)
    (h : InsertThrown s s') (hfault : AllocationFault s.heap.fault) :
    Unaffected s.table s'.table ↔ ¬ LosesBuckets s.table s.heap.fault := by
  cases h with
  | undone point same consistent =>
      refine iff_of_true (unaffected_of_sameElements hs hlaw same consistent) ?_
      rintro ⟨harray, -⟩
      obtain ⟨p, hp, hpoint⟩ := point
      rw [harray] at hpoint
      cases hpoint
      simp at hp
  | lostBuckets point lost => exact unaffected_iff_of_lost hs hlaw lost point
  | unplaced point unplaced => exact absurd (Or.inl point) hfault.ne_functor

/-- On every reachable table, a call that inserts an element or asks for buckets and throws
because an allocation or a constructor does leaves the table unaffected if and only if it does
not lose its buckets. -/
theorem strong_guarantee_iff (hreach : Reachable t) (hfault : AllocationFault heap.fault)
    {op : Op τ} (hop : Grows op) (hrun : op.exec.run ⟨t, heap⟩ = (.thrown, s')) :
    Unaffected t s'.table ↔ ¬ LosesBuckets t heap.fault := by
  have hs := hreach.sturdy
  have hlaw := hreach.lawful
  have hc := hs.1.consistent
  have hinsert : InsertThrown ⟨t, heap⟩ s' →
      (Unaffected t s'.table ↔ ¬ LosesBuckets t heap.fault) := fun h =>
    insertThrown_iff (s := ⟨t, heap⟩) hs hlaw h hfault
  have hlate : ∀ {m : ℕ}, LateThrown m ⟨t, heap⟩ s' →
      (Unaffected t s'.table ↔ ¬ LosesBuckets t heap.fault) := by
    rintro m (hrefused | ⟨-, h⟩)
    · refine absurd ?_ hfault.ne_functor
      rcases hrefused.cause with hequal | ⟨j, -, heq⟩
      · exact Or.inr hequal
      · have heq' : heap.fault = some (.hash, j) := heq
        exact Or.inl (by rw [heq']; rfl)
    · exact hinsert h
  have hresize : (faultPoint heap.fault = some .bucketArray ∧ LostBuckets t s'.table ∨
      faultPoint heap.fault = some .hash) →
      (Unaffected t s'.table ↔ ¬ LosesBuckets t heap.fault) := by
    rintro (⟨hpoint, hlost⟩ | hhash)
    · exact unaffected_iff_of_lost hs hlaw hlost hpoint
    · exact absurd (Or.inl hhash) hfault.ne_functor
  have hspec : FitsIn t op → ThrownBy ⟨t, heap⟩ s' op := fun hfits =>
    (Op.exec_spec (s := ⟨t, heap⟩) (U := Stuck.undefinedOnly) op hc hs.2 hfits
      (Or.inl rfl)).thrown_of_run hrun
  cases op with
  | insert value =>
      rcases hspec trivial with h | ⟨hfunctor, -⟩
      · exact hinsert h
      · exact absurd hfunctor hfault.ne_functor
  | tryEmplace key mapped =>
      have h : LateThrown 1 ⟨t, heap⟩ s' := hspec trivial
      exact hlate h
  | insertOrAssign key mapped =>
      have h : LateThrown 2 ⟨t, heap⟩ s' := hspec trivial
      exact hlate h
  | rehash requested =>
      refine hresize ?_
      exact (Action.Post.bind (rehash_point (s := ⟨t, heap⟩) requested hc) (fun _ h' => h')
        fun _ _ _ => Action.Post.pure trivial :
        Action.Post Stuck.anyhow (Op.rehash requested : Op τ).exec ⟨t, heap⟩ (fun _ _ => True)
          _).thrown_of_run hrun
  | reserve elementCount =>
      refine hresize ?_
      exact (Action.Post.bind (reserve_point (s := ⟨t, heap⟩) elementCount hc) (fun _ h' => h')
        fun _ _ _ => Action.Post.pure trivial :
        Action.Post Stuck.anyhow (Op.reserve elementCount : Op τ).exec ⟨t, heap⟩
          (fun _ _ => True) _).thrown_of_run hrun
  | assign | eraseKey | eraseAt | eraseRange | extractKey | extractAt | clear | maxLoadFactor
  | find => exact hop.elim

theorem strong_guarantee_iff_five :
    Unaffected (((finish World.empty fiveSteps).table? 0).get five_made)
      ((Op.insert (6, 60) : Op NatMap).exec.run
        ⟨((finish World.empty fiveSteps).table? 0).get five_made,
          { Heap.empty with fault := some (.construct, 0) }⟩).2.table :=
  (strong_guarantee_iff five_reachable ⟨.construct, by simp, rfl⟩
    (show Grows (Op.insert (6, 60) : Op NatMap) from trivial)
    (eq_thrown_of_threw (by decide +kernel))).mpr fun h => by cases h.1

/-- A map whose next element doubles its buckets. -/
def sixSteps : List (Step NatMap) :=
  [⟨.construct 0 (fun k => UInt64.ofNat k) (fun a b => a == b) (), none⟩,
    ⟨.table 0 (.insert (1, 10)), none⟩, ⟨.table 0 (.insert (2, 20)), none⟩,
    ⟨.table 0 (.insert (3, 30)), none⟩, ⟨.table 0 (.insert (4, 40)), none⟩,
    ⟨.table 0 (.insert (5, 50)), none⟩, ⟨.table 0 (.insert (6, 60)), none⟩]

theorem six_reachable : Reachable
    (((finish World.empty sixSteps).table? 0).get (by decide +kernel)) := by
  refine reachable_of_completes (by decide +kernel) (by decide +kernel) ?_ _
  simp only [sixSteps, List.forall_mem_cons, List.not_mem_nil, LawfulFunctors]
  exact ⟨lawful_beq _, trivial, trivial, trivial, trivial, trivial, trivial, fun _ h => h.elim⟩

/-- The larger bucket array cannot be allocated: the insertion throws, the table counts eight
buckets and has none, and the next lookup dereferences a null pointer. -/
theorem insert_loses_buckets :
    Reachable (((finish World.empty sixSteps).table? 0).get (by decide +kernel)) ∧
      ∃ s', (Op.insert (7, 70) : Op NatMap).exec.run
          ⟨((finish World.empty sixSteps).table? 0).get (by decide +kernel),
            { Heap.empty with fault := some (.bucketArray, 0) }⟩ = (.thrown, s') ∧
        s'.table.bucketCount = 8 ∧ s'.table.buckets.isNone ∧
        ((Model.find 1 : Exec NatMap ℕ).run ⟨s'.table, Heap.empty⟩).1 = .undefined ∧
        ¬ Unaffected (((finish World.empty sixSteps).table? 0).get (by decide +kernel))
          s'.table := by
  have hthrown := eq_thrown_of_threw (r := (Op.insert (7, 70) : Op NatMap).exec.run
    ⟨((finish World.empty sixSteps).table? 0).get (by decide +kernel),
      { Heap.empty with fault := some (.bucketArray, 0) }⟩) (by decide +kernel)
  refine ⟨six_reachable, _, hthrown, by decide +kernel, by decide +kernel, by decide +kernel,
    fun h => ?_⟩
  have hnone : ((Op.insert (7, 70) : Op NatMap).exec.run
    ⟨((finish World.empty sixSteps).table? 0).get (by decide +kernel),
      { Heap.empty with fault := some (.bucketArray, 0) }⟩).2.table.buckets.isNone = true := by
    decide +kernel
  obtain ⟨array, harray, -⟩ := h.buckets (by decide +kernel)
  rw [harray] at hnone
  cases hnone

end Fum.Interface
