import Fum.Analysis.Emplacement
import Fum.Analysis.FieldInvariants

/-!
# Elements in transit

An insertion that is given an rvalue has moved from it once its own element is constructed.
What is left of the argument when an allocation throws depends on which one it is: the
chunk and the growth of `chunks_` come before the construction, the bucket array and the
growth of `iteration_` after it.
-/

set_option autoImplicit false

namespace Fum.Analysis

open Fum.Model Effects

variable {τ : Traits} {α : Type} {s s' s1 s2 : Store τ} {i m : ℕ} {v : τ.Value} {b : Bool}

/-! ## The flag -/

/-- The call keeps the flag that says whether the argument has been moved from. -/
abbrev KeepsMoved (b : Bool) (x : Exec τ α) : Prop :=
  Action.Keeps (fun s : Store τ => s.heap.moved = b) x

theorem keepsMoved_mayThrow (p : Point) : KeepsMoved b (mayThrow p : Exec τ Unit) := by
  intro s hs
  rcases hf : s.heap.fault with _ | ⟨q, n⟩
  · simpa only [mayThrow, hf] using hs
  · by_cases hq : q = p
    · cases n <;> simpa only [mayThrow, hf, hq, if_true] using hs
    · simpa only [mayThrow, hf, hq, if_false] using hs

theorem keepsMoved_callMixedHash (key : τ.Key) : KeepsMoved b (callMixedHash key) :=
  Action.Keeps.bind (keepsMoved_mayThrow _) fun _ =>
    Action.Keeps.bind keeps_getTable fun _ => Action.Keeps.pure _

theorem keepsMoved_placeAndShiftUp (word index node : ℕ) :
    KeepsMoved b (placeAndShiftUp word index node : Exec τ Unit) :=
  Action.Keeps.bind keeps_getTable fun _ => Action.Keeps.bind keeps_getCells fun _ =>
    Action.Keeps.bind (keeps_ended _) fun _ => fun _ hs => hs

theorem keepsMoved_rehashTo (n : ℕ) : KeepsMoved b (rehashTo n : Exec τ Unit) := by
  refine Action.Keeps.bind keeps_getTable fun t => Action.Keeps.bind (fun _ hs => hs) fun _ =>
    Action.Keeps.bind ?_ fun _ => Action.Keeps.bind ?_ fun _ => Action.Keeps.forEach fun _ _ => ?_
  · refine Action.Keeps.bind keeps_getTable fun t => ?_
    cases t.buckets with
    | none => exact Action.Keeps.pure _
    | some array => exact Action.Keeps.bind (fun _ hs => hs) fun _ _ hs => hs
  · exact Action.Keeps.bind (keepsMoved_mayThrow _) fun _ =>
      Action.Keeps.bind (fun _ hs => hs) fun _ =>
        Action.Keeps.bind (fun _ hs => hs) fun _ _ hs => hs
  · exact Action.Keeps.bind (keeps_keyAt _) fun _ =>
      Action.Keeps.bind (keepsMoved_callMixedHash _) fun _ =>
        Action.Keeps.bind keeps_getTable fun _ => keepsMoved_placeAndShiftUp _ _ _

theorem keepsMoved_attachNode (i : ℕ) : KeepsMoved b (attachNode i : Exec τ Unit) := by
  refine Action.Keeps.bind (Action.Keeps.cleanup ?_ ?_) fun _ => ?_
  · refine Action.Keeps.bind (Action.Keeps.bind keeps_getTable fun _ =>
      Action.Keeps.ite (keepsMoved_rehashTo _)
        (Action.Keeps.ite (keepsMoved_rehashTo _) (Action.Keeps.pure _))) fun _ => ?_
    exact Action.Keeps.bind (fun _ hs => hs) fun _ =>
      Action.Keeps.bind (keepsMoved_mayThrow _) fun _ _ hs => hs
  · exact Action.Keeps.bind (Action.Keeps.bind (keeps_elementAt _) fun _ =>
      Action.Keeps.bind (fun _ hs => hs) fun _ _ hs => hs) fun _ _ hs => hs
  · refine Action.Keeps.bind (keeps_keyAt _) fun _ =>
      Action.Keeps.bind (keepsMoved_callMixedHash _) fun _ => Action.Keeps.bind ?_ fun _ =>
        keepsMoved_placeAndShiftUp _ _ _
    exact Action.Keeps.bind keeps_getTable fun _ => Action.Keeps.bind keeps_getCells fun _ =>
      keeps_ended _

/-- The constructor sets the flag, and no exception comes after it. -/
theorem buildNode_moved (v : τ.Value) (h : Slots s.table []) (hmax : s.table.size ≤ maxSize) :
    Action.Post Stuck.anyhow (buildNode v) s (fun _ s' => s'.heap.moved = true)
      (fun s' => s'.heap.moved = s.heap.moved) := by
  unfold buildNode
  refine Action.Post.bind (acquireNode_spec h hmax) ?_ fun i s1 h1 => ?_
  · rintro s' ⟨-, ⟨-, hheap⟩ | ⟨-, hheap⟩⟩
    · rw [hheap]
      rfl
    · rw [hheap]
      rfl
  · have hmoved : s1.heap.moved = s.heap.moved := by
      rcases h1.heap with ⟨hheap, -⟩ | ⟨hheap, -⟩
      · rw [hheap]
        rfl
      · rw [hheap]
        rfl
    refine Action.Post.bind (Action.Post.cleanup (constructValue_spec i v) ?_) (fun _ h' => h') ?_
    · rintro s' ⟨-, rfl⟩
      exact hmoved
    · rintro _ _ ⟨f, -, rfl⟩
      rfl

/-! ## The countdown of an allocation -/

/-- A node is linked once: the growth of `iteration_` throws at its first passage or is counted
down by one. -/
theorem attachNode_linking (h : InHand s.table i) (hroom : Room s.table)
    (hf : s.heap.fault = some (.iterationGrowth, m)) :
    Action.Post Stuck.anyhow (attachNode i) s
      (fun _ s' => ∃ n, m = n + 1 ∧ s'.heap.fault = some (.iterationGrowth, n))
      (fun _ => m = 0) := by
  have hpoint : faultPoint s.heap.fault = some .iterationGrowth := by rw [hf]; rfl
  unfold attachNode
  refine Action.Post.bind (Q := fun _ s' => ∃ n, m = n + 1 ∧
    s'.heap.fault = some (.iterationGrowth, n)) (E := fun _ => m = 0)
    (Action.Post.cleanup (E := fun _ => m = 0) ?_ fun s' hm => (Action.Post.any _ _).mono
      (fun _ _ _ => hm) (fun _ _ => hm) fun _ h' => h') (fun _ h' => h') ?_
  · refine Action.Post.bind (reserveForOneMore_spec h.index h.slots.iteration_nodup
      (fun x hx => h.others hx) hroom) (fun s1 h1 => ?_) fun _ s1 h1 => ?_
    · rcases h1.index with ⟨hp, -⟩ | ⟨hp, -⟩ <;> rw [hpoint] at hp <;> cases hp
    · have hf1 : s1.heap.fault = some (.iterationGrowth, m) := by
        rw [h1.fault.same, hf]
        simp [hpoint]
      unfold linkIntoIteration
      rw [post_modifyTable]
      refine post_mayThrow_bind (fun f hticks => ?_) fun _ hzero => ?_
      · rcases hticks with ⟨-, hne⟩ | ⟨n, hn, rfl⟩
        · exact absurd (by rw [hf1]; rfl) hne
        · have hn' : s1.heap.fault = some (.iterationGrowth, n + 1) := hn
          rw [hf1] at hn'
          cases hn'
          exact ⟨n, rfl, rfl⟩
      · have hzero' : s1.heap.fault = some (.iterationGrowth, 0) := hzero
        rw [hf1] at hzero'
        cases hzero'
        rfl
  · rintro ⟨⟩ s2 ⟨n, hm, hf2⟩
    have hpoint2 : faultPoint s2.heap.fault = some .iterationGrowth := by rw [hf2]; rfl
    refine post_keyAt (fun e _ => post_callMixedHash (fun f hticks => ?_) fun hp _ => ?_)
      fun _ => trivial
    · refine (insertKnownAbsent_frame [] i _).mono ?_ (fun _ h' => h'.elim) fun _ h' => h'
      intro _ s3 h3
      refine ⟨n, hm, (h3.fault.same (by simp)).trans ?_⟩
      rw [withFault_fault, hticks.eq_of_ne (by simp [hpoint2]), hf2]
    · rw [hpoint2] at hp
      cases hp

/-- A table without buckets gets its first array: the allocation throws at its first passage. -/
theorem attachNode_first (hzero : s.table.bucketCount = 0)
    (hf : s.heap.fault = some (.bucketArray, m)) :
    Action.Post Stuck.anyhow (attachNode i) s (fun _ _ => 0 < m) (fun _ => m = 0) := by
  have hcleanup : ∀ x : Exec τ Unit, Action.Post Stuck.anyhow x s
      (fun _ s' => 0 < m ∧ faultPoint s'.heap.fault = some .bucketArray) (fun _ => m = 0) →
      ∀ handler : Exec τ Unit, Action.Post Stuck.anyhow (x.cleanup handler) s
        (fun _ s' => 0 < m ∧ faultPoint s'.heap.fault = some .bucketArray) fun _ => m = 0 :=
    fun x hx handler => Action.Post.cleanup hx fun s' hm => (Action.Post.any _ _).mono
      (fun _ _ _ => hm) (fun _ _ => hm) fun _ h' => h'
  unfold attachNode
  refine Action.Post.bind (hcleanup _ ?_ _) (fun _ h' => h') ?_
  · refine Action.Post.bind (Q := fun _ s' => 0 < m ∧
      faultPoint s'.heap.fault = some .bucketArray) (E := fun _ => m = 0) ?_ (fun _ h' => h') ?_
    · unfold reserveForOneMore rehashTo
      rw [post_getTable, if_pos hzero, post_getTable, post_modifyHeap]
      refine Action.Post.bind deallocateBuckets_spec (fun _ h' => h'.elim) ?_
      rintro ⟨⟩ s1 ⟨-, hfault1⟩
      have hf1 : s1.heap.fault = some (.bucketArray, m) := hfault1.trans hf
      unfold allocateBuckets
      rw [Action.bind_assoc]
      refine post_mayThrow_bind (fun f hticks => ?_) fun _ h0 => ?_
      · rcases hticks with ⟨-, hne⟩ | ⟨n, hn, rfl⟩
        · exact absurd (by rw [hf1]; rfl) hne
        · rw [hf1] at hn
          cases hn
          rw [Action.bind_assoc, post_freshId, Action.bind_assoc, post_modifyHeap, post_modifyTable]
          refine (replaceAll_frame s.table.iteration).mono ?_ ?_ fun _ h' => h'
          · exact fun _ s2 h2 => ⟨Nat.succ_pos n, h2.fault.point⟩
          · intro s2 h2
            obtain ⟨p, hp, hpoint⟩ := h2.point
            rw [List.mem_singleton.mp hp] at hpoint
            cases hpoint
      · rw [hf1] at h0
        cases h0
        rfl
    · rintro ⟨⟩ s1 ⟨hm, hpoint1⟩
      refine (linkIntoIteration_spec i).mono ?_ ?_ fun _ h' => h'
      · rintro ⟨⟩ s2 ⟨f, hticks, rfl⟩
        exact ⟨hm, hticks.faultPoint_eq.trans hpoint1⟩
      · rintro s2 ⟨hp, -⟩
        rw [hpoint1] at hp
        cases hp
  · rintro ⟨⟩ s2 ⟨hm, hpoint2⟩
    refine post_keyAt (fun e _ => post_callMixedHash (fun f _ => ?_) fun hp _ => ?_)
      fun _ => trivial
    · exact (insertKnownAbsent_frame [] i _).mono (fun _ _ _ => hm) (fun _ h' => h'.elim)
        fun _ h' => h'
    · rw [hpoint2] at hp
      cases hp

/-! ## Insertions -/

/-- The fault throws before an element is constructed. -/
def Early (fault : Option (Point × ℕ)) : Prop :=
  faultPoint fault = some .chunk ∨ faultPoint fault = some .chunksGrowth

/-- The fault throws while an element is being entered. -/
def Late (fault : Option (Point × ℕ)) : Prop :=
  faultPoint fault = some .iterationGrowth ∨ faultPoint fault = some .bucketArray

/-- An insertion that returns has passed the allocations on its way. -/
structure CountedDown (s s' : Store τ) : Prop where
  linking : ∀ m, s.heap.fault = some (.iterationGrowth, m) →
    ∃ n, m = n + 1 ∧ s'.heap.fault = some (.iterationGrowth, n)
  first : ∀ m, s.heap.fault = some (.bucketArray, m) → s.table.bucketCount = 0 → 0 < m

/-- What the allocation that throws says about the argument of an insertion and about the
passages before it. -/
structure Transit (s s' : Store τ) : Prop where
  early : Early s.heap.fault → s'.heap.moved = s.heap.moved
  late : Late s.heap.fault → s'.heap.moved = true
  linking : ∀ m, s.heap.fault = some (.iterationGrowth, m) → m = 0
  first : ∀ m, s.heap.fault = some (.bucketArray, m) → s.table.bucketCount = 0 → m = 0

/-- The points that an insertion passes before it enters its element. -/
def preliminary : List Point := [.chunk, .chunksGrowth, .construct, .hash, .equal]

theorem not_early_of_functor {p : Point} {fault : Option (Point × ℕ)}
    (hp : p ∈ [Point.hash, .equal]) (hpoint : faultPoint fault = some p) : ¬ Early fault := by
  rintro (h | h) <;> rw [hpoint] at h <;> cases h <;> exact absurd hp (by decide)

theorem not_preliminary_of_late {fault : Option (Point × ℕ)} (h : Late fault) :
    ∀ p ∈ preliminary, faultPoint fault ≠ some p := by
  rintro p hp heq
  rcases h with h | h <;> rw [heq] at h <;> cases h
  · exact absurd hp (by decide)
  · exact absurd hp (by decide)

theorem functors_subset {p : Point} (hp : p ∈ [Point.hash, .equal]) : p ∈ preliminary := by
  revert p
  decide

/-- An exception before the element is entered: the argument is as it was. -/
theorem Transit.of_preliminary {p : Point} (hp : p ∈ preliminary)
    (hpoint : faultPoint s.heap.fault = some p)
    (hmoved : Early s.heap.fault → s'.heap.moved = s.heap.moved) : Transit s s' := by
  have hnot : ¬ Late s.heap.fault := fun h => not_preliminary_of_late h p hp hpoint
  refine ⟨hmoved, fun h => absurd h hnot, fun m hm => ?_, fun m hm => ?_⟩
  · exact absurd (Or.inl (by rw [hm]; rfl)) hnot
  · exact absurd (Or.inr (by rw [hm]; rfl)) hnot

section

variable (hf : Through preliminary s.heap.fault s1.heap.fault)
  (hcount : s1.table.bucketCount = s.table.bucketCount)

include hf in
theorem fault_eq_of_late (h : Late s.heap.fault) : s1.heap.fault = s.heap.fault :=
  hf.same (not_preliminary_of_late h)

include hf hcount

theorem CountedDown.of_through (h : CountedDown s1 s') : CountedDown s s' where
  linking m hm := h.linking m ((fault_eq_of_late hf (Or.inl (by rw [hm]; rfl))).trans hm)
  first m hm hzero :=
    h.first m ((fault_eq_of_late hf (Or.inr (by rw [hm]; rfl))).trans hm) (hcount.trans hzero)

theorem Transit.of_through (h : Transit s1 s')
    (hmoved : Early s1.heap.fault → s1.heap.moved = s.heap.moved) : Transit s s' where
  early hearly := by
    have hearly1 : Early s1.heap.fault := by
      unfold Early at hearly ⊢
      rwa [hf.point]
    exact (h.early hearly1).trans (hmoved hearly1)
  late hlate := h.late (by rwa [fault_eq_of_late hf hlate])
  linking m hm := h.linking m ((fault_eq_of_late hf (Or.inl (by rw [hm]; rfl))).trans hm)
  first m hm hzero :=
    h.first m ((fault_eq_of_late hf (Or.inr (by rw [hm]; rfl))).trans hm) (hcount.trans hzero)

end

theorem buildNode_transit (v : τ.Value) (hc : Consistent s.table) (hroom : Room s.table) :
    Action.Post Stuck.anyhow (buildNode v) s
      (fun i s' => Built s v i s' ∧ s'.heap.moved = true) (Transit s) := by
  refine ((buildNode_spec v hc.slots hroom.le_maxSize).and
    (buildNode_moved v hc.slots hroom.le_maxSize)).mono (fun _ _ h' => h') ?_ fun _ h' => h'
  rintro s' ⟨⟨-, p, hp, hpoint⟩, hmoved⟩
  refine Transit.of_preliminary ?_ hpoint fun _ => hmoved
  simp only [List.mem_cons, List.not_mem_nil, or_false] at hp
  rcases hp with rfl | rfl | rfl <;> decide

/-- Entering a node that has been built since `s`. -/
theorem attachNode_transit (hc : Consistent s.table) (hroom : Room s.table)
    (hb : Built s v i s1) (hmoved : s1.heap.moved = true)
    (hpass : Passes [.hash, .equal] s1 s2) :
    Action.Post Stuck.anyhow (attachNode i) s2 (fun _ => CountedDown s) (Transit s) := by
  have hin : InHand s2.table i := hpass.table ▸ hb.inHand hc
  have hroom2 : Room s2.table := by
    rw [hpass.table]
    unfold Room Table.size at hroom ⊢
    rwa [hb.iteration]
  have hmoved2 : s2.heap.moved = true := by
    rw [hpass.heap]
    exact hmoved
  have hf : Through preliminary s.heap.fault s2.heap.fault :=
    (hb.fault.mono (by decide)).trans (hpass.fault.mono (by decide))
  have hcount : s2.table.bucketCount = s.table.bucketCount := by
    rw [hpass.table, hb.index.bucketCount]
  have hlinking := Action.Post.forall fun m => attachNode_linking (m := m) hin hroom2
  have hfirst := Action.Post.forall fun m (h : s2.table.bucketCount = 0 ∧
    s2.heap.fault = some (.bucketArray, m)) => attachNode_first (i := i) h.1 h.2
  have hspec := attachNode_spec (U := Stuck.anyhow) hin hroom2
  refine ((hlinking.and hfirst).and (hspec.and ((keepsMoved_attachNode i).post hmoved2))).mono
    ?_ ?_ fun _ h' => h'
  · rintro ⟨⟩ s' ⟨⟨hlink, hfirst⟩, -⟩
    exact CountedDown.of_through hf hcount ⟨hlink, fun m hm hzero => hfirst m ⟨hzero, hm⟩⟩
  · rintro s' ⟨⟨hlink, hfirst⟩, hthrown, hmoved'⟩
    have hnot : ¬ Early s2.heap.fault := by
      rintro (h | h) <;> rcases hthrown with ⟨hp, -⟩ | ⟨hp, -⟩ | ⟨hp, -⟩ <;> rw [h] at hp <;>
        cases hp
    exact Transit.of_through hf hcount ⟨fun h => absurd h hnot, fun _ => hmoved', hlink,
      fun m hm hzero => hfirst m ⟨hzero, hm⟩⟩ fun h => absurd h hnot

theorem emplaceImpl_transit (v : τ.Value) (hc : Consistent s.table) (hroom : Room s.table) :
    Action.Post Stuck.anyhow (emplaceImpl v) s
      (fun r s' => r.2 = true → CountedDown s s') (Transit s) := by
  unfold emplaceImpl
  refine Action.Post.bind (buildNode_transit v hc hroom) (fun _ h' => h') ?_
  rintro i s1 ⟨hb, hmoved⟩
  refine post_keyAt (fun e _ => locate_frame (fun s2 hthrow => ?_) fun existing s2 hpass => ?_)
    fun _ => trivial
  · obtain ⟨p, hp, hpoint⟩ := hthrow.point
    rw [hb.fault.point] at hpoint
    exact Transit.of_preliminary (functors_subset hp) hpoint fun h =>
      absurd h (not_early_of_functor hp hpoint)
  · rw [post_getTable]
    split
    · refine post_bucketAt (fun _ _ _ => post_destroyValue (fun e _ => ?_) fun _ => trivial)
        fun _ => trivial
      rw [post_releaseNode, post_pure]
      intro h
      cases h
    · refine Action.Post.bind (attachNode_transit hc hroom hb hmoved hpass) (fun _ h' => h') ?_
      exact fun _ s3 h3 _ => h3

theorem insertNode_transit {handle : Handle τ} (hc : Consistent s.table) (hroom : Room s.table) :
    Action.Post Stuck.anyhow (insertNode handle) s (fun _ _ => True) (Transit s) := by
  unfold insertNode
  cases handle.value with
  | none => trivial
  | some cell =>
      refine locate_frame (fun s1 hthrow => ?_) fun existing s1 hpass => ?_
      · obtain ⟨p, hp, hpoint⟩ := hthrow.point
        exact Transit.of_preliminary (functors_subset hp) hpoint fun _ => by rw [hthrow.heap]; rfl
      · rw [post_getTable]
        split
        · exact post_bucketAt (fun _ _ _ => trivial) fun _ => trivial
        · have hstart : ∀ s', Transit s1 s' → Transit s s' := fun s' h' =>
            h'.of_through (hpass.fault.mono (by decide)) (by rw [hpass.table])
              fun _ => by rw [hpass.heap]; rfl
          have hc1 : Consistent s1.table := by rwa [hpass.table]
          have hroom1 : Room s1.table := by rwa [hpass.table]
          refine Action.Post.bind (buildNode_transit _ hc1 hroom1) hstart ?_
          rintro i s2 ⟨hb, hmoved⟩
          exact Action.Post.bind (attachNode_transit hc1 hroom1 hb hmoved (Passes.refl _ _)) hstart
            fun _ _ _ => trivial

end Fum.Analysis
