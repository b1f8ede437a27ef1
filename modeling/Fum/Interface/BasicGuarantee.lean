import Fum.Analysis.Reachability
import Fum.Interface.EraseIf

/-!
# Exceptions of the hasher and of key_equal

After an exception of a functor a table is in order if the functor was called before the
table was touched, or for an element that is being erased. An insertion that constructs its
element first leaves it unlisted, and a rebuild leaves elements without a bucket.
-/

set_option autoImplicit false

namespace Fum.Interface

open Fum.Model Fum.Analysis Effects

variable {τ : Traits} {t t' : Table τ} {s s' : Store τ} {heap : Heap} {n : ℕ}

/-- The invariants of the representation. -/
structure Intact (t : Table τ) : Prop where
  /-- The iteration vector lists exactly the slots that hold an element. -/
  listed : ∀ slot, (t.nodeAt slot).storage.isSome ↔ slot ∈ t.iteration
  once : t.iteration.Nodup
  placed : ∀ slot ∈ t.iteration, ∃! b, BucketOf t b slot
  findable : Findable t
  /-- Every slot below the high-water mark is live or on the free list. -/
  slots : ∃ free, FreeList (link t) t.freeListHead free ∧
    ∀ slot < t.arenaHighWater, slot ∈ t.iteration ∨ slot ∈ free

theorem bucketOf_unique (hc : Consistent t) {x b b' : ℕ} (hb : BucketOf t b x)
    (hb' : BucketOf t b' x) : b = b' := by
  obtain ⟨array, harray, hlt, hocc, hnode⟩ := hb
  obtain ⟨array', harray', hlt', hocc', hnode'⟩ := hb'
  rw [harray] at harray'
  cases harray'
  rcases hc.index with ⟨hnone, -, -⟩ | ⟨k, cells, I, -, -⟩
  · rw [hnone] at harray
    cases harray
  · obtain ⟨array', harray', hsize, hcells⟩ := I.buckets
    rw [harray] at harray'
    cases harray'
    subst hcells
    rw [hsize] at hlt hlt'
    exact I.layout.inj b hlt b' hlt' hocc hocc' (hnode.trans hnode'.symm)

theorem intact_of_wellFormed (hw : WellFormed t) (hroom : Room t) (hlaw : LawfulTable t) :
    Intact t where
  listed := hw.consistent.filled
  once := hw.consistent.slots.iteration_nodup
  placed slot hslot := by
    obtain ⟨b, hb⟩ := hw.consistent.index.placed hslot
    exact ⟨b, hb, fun b' hb' => bucketOf_unique hw.consistent hb' hb⟩
  findable := findable_of_wellFormed hw hroom hlaw
  slots := by
    obtain ⟨free, hfree, hperm⟩ := hw.consistent.slots.split
    rw [List.append_nil] at hperm
    refine ⟨free, hfree, fun slot hslot => ?_⟩
    rwa [← List.mem_append, hperm.mem_iff, List.mem_range]

theorem not_intact_of_unplaced (h : Unplaced t) : ¬ Intact t := by
  rintro hintact
  obtain ⟨x, hx, hno⟩ := h
  obtain ⟨b, hb, -⟩ := hintact.placed x hx
  exact hno b hb

theorem not_intact_of_unlisted (h : Unlisted t) : ¬ Intact t := by
  rintro hintact
  obtain ⟨x, hlive, hnot⟩ := h
  exact hnot ((hintact.listed x).mp hlive)

/-! ## A rebuild with too few buckets -/

/-- The array has `n` buckets, and the vector lists the nodes in `l`. -/
def Cramped (n : ℕ) (l : List ℕ) (t : Table τ) : Prop :=
  (∃ array, t.buckets = some array ∧ array.size = n) ∧ t.iteration = l

/-- More elements than buckets: one has none. -/
theorem Cramped.unplaced {l : List ℕ} (h : Cramped n l t) (hnodup : l.Nodup)
    (hlt : n < l.length) : Unplaced t := by
  obtain ⟨⟨array, harray, hsize⟩, hiter⟩ := h
  by_contra hall
  have hplaced : ∀ x ∈ l, ∃ b, BucketOf t b x := by
    intro x hx
    by_contra hno
    exact hall ⟨x, hiter ▸ hx, fun b hb => hno ⟨b, hb⟩⟩
  choose! bucket hbucket using hplaced
  have hcard : l.toFinset.card ≤ (Finset.range n).card := by
    refine Finset.card_le_card_of_injOn bucket (fun x hx => ?_) fun x hx y hy heq => ?_
    · obtain ⟨array', harray', hb, -⟩ := hbucket x (List.mem_toFinset.mp hx)
      rw [harray] at harray'
      cases harray'
      exact Finset.mem_coe.mpr (Finset.mem_range.mpr (hsize ▸ hb))
    · obtain ⟨array₁, harray₁, -, -, hx'⟩ := hbucket x (List.mem_toFinset.mp hx)
      obtain ⟨array₂, harray₂, -, -, hy'⟩ := hbucket y (List.mem_toFinset.mp hy)
      rw [harray₁] at harray₂
      cases harray₂
      rw [← hx', ← hy', heq]
  rw [List.toFinset_card_of_nodup hnodup, Finset.card_range] at hcard
  omega

theorem keeps_cramped_replaceNode {l : List ℕ} (node : ℕ) :
    Action.Keeps (fun s : Store τ => Cramped n l s.table) (replaceNode node) := by
  have hforgetful := forgetful_table (Cramped n l : Table τ → Prop)
  refine Action.Keeps.bind (keeps_keyAt node) fun _ =>
    Action.Keeps.bind (keeps_callMixedHash hforgetful _) fun _ =>
      Action.Keeps.bind keeps_getTable fun _ => Action.Keeps.bind keeps_getTable fun _ =>
        Action.Keeps.bind keeps_getCells fun _ => Action.Keeps.bind (keeps_ended _) fun cells => ?_
  refine keeps_modifyTable (I := Cramped n l) fun t h => ?_
  obtain ⟨⟨array, harray, hsize⟩, hiter⟩ := h
  refine ⟨⟨{ array with cells := cells }, ?_, hsize⟩, hiter⟩
  show t.buckets.map _ = _
  rw [harray]
  rfl

/-- A rebuild that throws, other than for want of an array, leaves an element without a
bucket, even if it was asked for too few. -/
theorem rehashTo_thrown {k : ℕ} (hk : 3 ≤ k) (hc : Consistent s.table) (hroom : Room s.table)
    (hpoint : faultPoint s.heap.fault ≠ some .bucketArray) :
    Action.Post Stuck.anyhow (rehashTo (2 ^ k)) s (fun _ _ => True)
      (fun s' => Unplaced s'.table) := by
  have hthrown : ∀ s', RehashThrown s s' → Unplaced s'.table := by
    intro s' h'
    rcases h'.index with ⟨hp, -⟩ | ⟨-, hu⟩
    · exact absurd hp hpoint
    · exact hu
  by_cases hle : s.table.size ≤ 2 ^ k
  · exact (rehashTo_spec hk hc.slots.iteration_nodup (fun _ hx => hc.live hx) hle hroom).mono
      (fun _ _ _ => trivial) hthrown fun _ h' => h'
  · have hunplaced : ∀ s' : Store τ, Cramped (2 ^ k) s.table.iteration s'.table →
        Unplaced s'.table :=
      fun s' h' => h'.unplaced hc.slots.iteration_nodup (not_le.mp hle)
    refine post_rehashTo hk hthrown fun s1 h1 => ?_
    obtain ⟨cells, I⟩ := h1.indexed
    obtain ⟨array, harray, hsize, -⟩ := I.buckets
    have hcramped : Cramped (2 ^ k) s.table.iteration s1.table :=
      ⟨⟨array, harray, hsize⟩, h1.arena.iteration⟩
    exact ((Action.Keeps.forEach fun node _ => keeps_cramped_replaceNode node).post hcramped).mono
      (fun _ _ _ => trivial) hunplaced fun _ h' => h'

theorem rehash_thrown (n : ℕ) (hc : Consistent s.table) (hroom : Room s.table)
    (hpoint : faultPoint s.heap.fault ≠ some .bucketArray) :
    Action.Post Stuck.anyhow (rehash n) s (fun _ _ => True) (fun s' => Unplaced s'.table) := by
  refine post_rehash (fun _ => trivial) ?_ (fun _ => trivial) fun k hk _ =>
    rehashTo_thrown hk hc hroom hpoint
  intro _ _
  refine Action.Post.bind deallocateBuckets_spec (fun _ h' => h'.elim) fun _ s1 _ => ?_
  rw [post_modifyTable_last]
  trivial

theorem reserve_thrown (n : ℕ) (hc : Consistent s.table) (hroom : Room s.table)
    (hpoint : faultPoint s.heap.fault ≠ some .bucketArray) :
    Action.Post Stuck.anyhow (reserve n) s (fun _ _ => True) (fun s' => Unplaced s'.table) := by
  exact post_reserve (fun _ => trivial) fun m _ => rehash_thrown m hc hroom hpoint

/-! ## Erasures that throw -/

/-- The table holds no more than `n` elements. -/
def AtMostSize (n : ℕ) (t : Table τ) : Prop := t.size ≤ n

theorem steady_atMostSize (n : ℕ) : Steady fun s : Store τ => AtMostSize n s.table :=
  Insensitive.steady ⟨fun _ _ _ _ h => h, fun _ _ h => h⟩

theorem atMostSize_unlinkFromIteration (i : ℕ) :
    Action.Keeps (fun s : Store τ => AtMostSize n s.table) (unlinkFromIteration i) := by
  refine Action.Keeps.bind keeps_getTable fun t => ?_
  simp only
  cases t.iteration.getLast? with
  | none => exact Action.Keeps.undefined
  | some last =>
      refine Action.Keeps.ite (Action.Keeps.bind (keeps_modifyTable fun t ht => ?_) fun _ =>
        Action.Keeps.bind (fun s hs => (steady_atMostSize n).node s last _ hs) fun _ =>
          keeps_modifyTable fun t ht => ?_) Action.Keeps.undefined
      · unfold AtMostSize Table.size at ht ⊢
        simpa using ht
      · unfold AtMostSize Table.size at ht ⊢
        simp only [List.length_dropLast]
        omega

theorem atMostSize_eraseRange (first last : ℕ) :
    Action.Keeps (fun s : Store τ => AtMostSize n s.table) (eraseRange first last) := by
  have h : Steady fun s : Store τ => AtMostSize n s.table := steady_atMostSize n
  have hnode : ∀ node, Action.Keeps (fun s : Store τ => AtMostSize n s.table) (eraseNode node) :=
    fun node => Action.Keeps.bind (keeps_keyAt node) fun _ => keeps_locate h.toForgetful fun _ =>
      Action.Keeps.bind (keeps_bucketAt _) fun _ => Action.Keeps.bind (keeps_eraseBucket h _)
        fun _ => Action.Keeps.bind (keeps_destroyValue h _) fun _ =>
          Action.Keeps.bind (atMostSize_unlinkFromIteration _) fun _ => keeps_releaseNode h _
  refine Action.Keeps.bind keeps_getTable fun t => ?_
  cases t.range (kNullIndex + 1) first last with
  | none => exact Action.Keeps.undefined
  | some doomed =>
      exact Action.Keeps.bind (Action.Keeps.forEach fun _ _ => keeps_mayThrow h.toForgetful _)
        fun _ => Action.Keeps.bind (Action.Keeps.forEach fun node _ => hnode node)
          fun _ => Action.Keeps.pure _

/-! ## Exceptions of a functor -/

theorem unplaced_of_insertThrown (h : InsertThrown s s') (hfunctor : FunctorFault s.heap.fault) :
    Unplaced s'.table := by
  have hne : ∀ p, p ≠ .hash → p ≠ .equal → faultPoint s.heap.fault ≠ some p := by
    rintro p hhash hequal hp
    rcases hfunctor with hf | hf <;> rw [hp] at hf <;> cases hf
    · exact hhash rfl
    · exact hequal rfl
  cases h with
  | undone point same consistent =>
      obtain ⟨p, hp, hpoint⟩ := point
      refine absurd hpoint (hne p ?_ ?_) <;> rintro rfl <;> simp at hp
  | lostBuckets point lost => exact absurd point (hne _ (by decide) (by decide))
  | unplaced point unplaced => exact unplaced

theorem lateThrown_iff (hs : Sturdy s.table) (hlaw : LawfulTable s.table) {m : ℕ}
    (h : LateThrown m s s') (hfunctor : FunctorFault s.heap.fault) :
    Intact s'.table ↔ EarlyFault m s.heap.fault := by
  rcases h with hrefused | ⟨hlate, hthrown⟩
  · refine iff_of_true ?_ hrefused.cause
    rw [hrefused.table]
    exact intact_of_wellFormed hs.1 hs.2 hlaw
  · refine iff_of_false (not_intact_of_unplaced (unplaced_of_insertThrown hthrown hfunctor)) ?_
    rintro (hequal | ⟨j, hj, heq⟩)
    · cases hthrown with
      | undone point same consistent =>
          obtain ⟨p, hp, hpoint⟩ := point
          rw [hequal] at hpoint
          cases hpoint
          simp at hp
      | lostBuckets point lost =>
          rw [hequal] at point
          cases point
      | unplaced point unplaced =>
          rw [hequal] at point
          cases point
    · exact hlate j hj heq

/-- A call that throws because the hasher or `key_equal` does leaves the table intact if and
only if it is a safe call for this exception. -/
theorem call_thrown_iff (op : Op τ) (hs : Sturdy t) (hlaw : LawfulTable t)
    (hfunctor : FunctorFault heap.fault) (hrun : op.exec.run ⟨t, heap⟩ = (.thrown, s')) :
    Intact s'.table ↔ SafeCall op heap.fault := by
  obtain ⟨hw, hroom⟩ := hs
  have hc := hw.consistent
  have harray : faultPoint heap.fault ≠ some .bucketArray := by
    rcases hfunctor with hf | hf <;> rw [hf] <;> decide
  have hsame : s'.table = t → Intact s'.table := fun heq =>
    heq ▸ intact_of_wellFormed hw hroom hlaw
  have hspec : FitsIn t op → ThrownBy ⟨t, heap⟩ s' op := fun hfits =>
    (Op.exec_spec (s := ⟨t, heap⟩) (U := Stuck.undefinedOnly) op hc hroom hfits
      (Or.inl rfl)).thrown_of_run hrun
  cases op with
  | insert value =>
      refine iff_of_false ?_ id
      rcases hspec trivial with hthrown | ⟨-, hunlisted⟩
      · exact not_intact_of_unplaced (unplaced_of_insertThrown hthrown hfunctor)
      · exact not_intact_of_unlisted hunlisted
  | tryEmplace key mapped =>
      exact lateThrown_iff (s := ⟨t, heap⟩) ⟨hw, hroom⟩ hlaw (hspec trivial) hfunctor
  | insertOrAssign key mapped =>
      exact lateThrown_iff (s := ⟨t, heap⟩) ⟨hw, hroom⟩ hlaw (hspec trivial) hfunctor
  | rehash requested =>
      have hpost : Action.Post Stuck.anyhow (Op.rehash requested : Op τ).exec ⟨t, heap⟩
          (fun _ _ => True) (fun s' => Unplaced s'.table) :=
        Action.Post.bind (rehash_thrown requested hc hroom harray) (fun _ h' => h')
          fun _ _ _ => Action.Post.pure trivial
      exact iff_of_false (not_intact_of_unplaced (hpost.thrown_of_run hrun)) id
  | reserve elementCount =>
      have hpost : Action.Post Stuck.anyhow (Op.reserve elementCount : Op τ).exec ⟨t, heap⟩
          (fun _ _ => True) (fun s' => Unplaced s'.table) :=
        Action.Post.bind (reserve_thrown elementCount hc hroom harray) (fun _ h' => h')
          fun _ _ _ => Action.Post.pure trivial
      exact iff_of_false (not_intact_of_unplaced (hpost.thrown_of_run hrun)) id
  | eraseRange first last =>
      have hthrown : RangeThrown ⟨t, heap⟩ s' := hspec trivial
      have hkeeps : Action.Keeps (fun s : Store τ => AtMostSize t.size s.table)
          (Op.eraseRange first last : Op τ).exec :=
        Action.Keeps.bind (atMostSize_eraseRange first last) fun _ => Action.Keeps.pure _
      have hstart : AtMostSize t.size t := le_refl t.size
      have hsize : AtMostSize t.size s'.table :=
        (hkeeps.post (s := ⟨t, heap⟩) hstart).thrown_of_run hrun
      refine iff_of_true (intact_of_wellFormed (hthrown.wellFormed hw) ?_
        (hthrown.policy.lawfulTable.mpr hlaw)) trivial
      unfold Room at hroom ⊢
      unfold AtMostSize at hsize
      omega
  | eraseKey key =>
      have hthrown : Refused 1 ⟨t, heap⟩ s' := hspec trivial
      exact iff_of_true (hsame hthrown.table) trivial
  | eraseAt node =>
      have hthrown : Refused 1 ⟨t, heap⟩ s' := hspec trivial
      exact iff_of_true (hsame hthrown.table) trivial
  | find key =>
      have hthrown : Refused 1 ⟨t, heap⟩ s' := hspec trivial
      exact iff_of_true (hsame hthrown.table) trivial
  | extractKey key =>
      have hthrown : ExtractThrown ⟨t, heap⟩ s' := hspec trivial
      exact iff_of_true (hsame (hthrown.elim Refused.table And.left)) trivial
  | extractAt node =>
      have hthrown : ExtractThrown ⟨t, heap⟩ s' := hspec trivial
      exact iff_of_true (hsame (hthrown.elim Refused.table And.left)) trivial
  | assign | clear | maxLoadFactor => exact (hspec trivial).elim

/-- On every reachable table, a call that throws because the hasher or `key_equal` does leaves
the invariants in place if and only if it is a safe call for this exception, and so does an
insertion of a node if and only if the exception comes from its probe. -/
theorem basic_guarantee_iff (hreach : Reachable t) (hfunctor : FunctorFault heap.fault) :
    (∀ (op : Op τ) s', op.exec.run ⟨t, heap⟩ = (.thrown, s') →
      (Intact s'.table ↔ SafeCall op heap.fault)) ∧
    ∀ (handle : Handle τ) s', (insertNode handle).run ⟨t, heap⟩ = (.thrown, s') →
      (Intact s'.table ↔ EarlyFault 1 heap.fault) := by
  have hs := hreach.sturdy
  refine ⟨fun op s' hrun => call_thrown_iff op hs hreach.lawful hfunctor hrun,
    fun handle s' hrun => ?_⟩
  obtain ⟨value, alloc⟩ := handle
  cases value with
  | none =>
      have hpure : (insertNode (⟨none, alloc⟩ : Handle τ)).run ⟨t, heap⟩ =
        (.ok (⟨kNullIndex, false, Handle.default⟩, ⟨none, alloc⟩), ⟨t, heap⟩) := rfl
      rw [hpure] at hrun
      cases hrun
  | some cell =>
      have hcell : (⟨some cell, alloc⟩ : Handle τ).value = some cell := rfl
      have hthrown := (insertNode_spec (U := Stuck.never) (s := ⟨t, heap⟩) hcell
        hs.1.consistent hs.2).thrown_of_run hrun
      exact lateThrown_iff (s := ⟨t, heap⟩) hs hreach.lawful hthrown hfunctor

/-! ## An insertion that leaks its element -/

/-- The next call of the hasher throws. -/
def throwingHasher : Heap := { Heap.empty with fault := some (.hash, 0) }

/-- The call throws. -/
def threw {α : Type} (r : Result α × Store τ) : Bool :=
  match r.1 with
  | .thrown => true
  | _ => false

theorem eq_thrown_of_threw {α : Type} {r : Result α × Store τ} (h : threw r = true) :
    r = (.thrown, r.2) := by
  obtain ⟨o, s⟩ := r
  cases o with
  | thrown => rfl
  | ok | diverged | undefined => cases h

theorem basic_guarantee_iff_five : Intact
    ((Op.tryEmplace 6 60 : Op NatMap).exec.run
      ⟨((finish World.empty fiveSteps).table? 0).get five_made, throwingHasher⟩).2.table :=
  ((basic_guarantee_iff five_reachable (Or.inl rfl)).1 (.tryEmplace 6 60) _
    (eq_thrown_of_threw (by decide +kernel))).mpr (Or.inr ⟨0, by decide, rfl⟩)

/-- `insert` constructs the element before it hashes the key: when the hasher throws, the
element stays in its slot and is not listed. -/
theorem insert_leaks_element :
    Reachable (((finish World.empty fiveSteps).table? 0).get five_made) ∧
      ∃ s', (Op.insert (6, 60) : Op NatMap).exec.run
          ⟨((finish World.empty fiveSteps).table? 0).get five_made, throwingHasher⟩ =
            (.thrown, s') ∧
        (s'.table.nodeAt 5).storage.isSome ∧ 5 ∉ s'.table.iteration ∧ ¬ Intact s'.table := by
  have hlive : (((Op.insert (6, 60) : Op NatMap).exec.run
      ⟨((finish World.empty fiveSteps).table? 0).get five_made,
        throwingHasher⟩).2.table.nodeAt 5).storage.isSome = true := by decide +kernel
  have hnot : 5 ∉ ((Op.insert (6, 60) : Op NatMap).exec.run
      ⟨((finish World.empty fiveSteps).table? 0).get five_made,
        throwingHasher⟩).2.table.iteration := by decide +kernel
  exact ⟨five_reachable, _, eq_thrown_of_threw (by decide +kernel), hlive, hnot,
    not_intact_of_unlisted ⟨5, hlive, hnot⟩⟩

end Fum.Interface
