import Fum.Analysis.Consistency

/-!
# Insertion

What an insertion does to a consistent table, and what each of its throwing points leaves
behind. Up to the entry in the iteration vector an exception is undone; the old bucket
array is already gone when the allocation of a larger one fails, and the hasher is called
once more after the node has been linked.
-/

set_option autoImplicit false

namespace Fum.Analysis

open Fum.Model Effects RobinHood

variable {τ : Traits} {U : Stuck → Prop} {s s' : Store τ} {t t' t'' : Table τ} {i : ℕ}
  {v : τ.Value} {key : τ.Key}

/-! ## A node in hand -/

/-- A node in hand holds an element that is not yet listed; the rest is consistent. -/
structure InHand (t : Table τ) (i : ℕ) : Prop where
  slots : Slots t [i]
  filled : Filled t (t.iteration ++ [i])
  index : IndexInOrder (ownHash t) t.iteration t

theorem InHand.live (h : InHand t i) : (t.nodeAt i).storage.isSome :=
  (h.filled i).mpr (by simp)

theorem InHand.others (h : InHand t i) {x : ℕ} (hx : x ∈ t.iteration) :
    (t.nodeAt x).storage.isSome := (h.filled x).mpr (by simp [hx])

theorem Built.filled (h : Built s v i s') (hf : Filled s.table s.table.iteration) :
    Filled s'.table (s'.table.iteration ++ [i]) := by
  obtain ⟨serial, hel⟩ := h.element
  rw [h.iteration]
  exact hf.occupy (by simp [hel]) h.others

/-- A node that has been built is in hand. -/
theorem Built.inHand (h : Built s v i s') (hc : Consistent s.table) : InHand s'.table i where
  slots := h.slots
  filled := h.filled hc.filled
  index := by
    rw [h.iteration]
    refine (hc.index.sameIndex h.index).congr fun x hx => ownHash_congr (h.others x ?_) h.policy
    rintro rfl
    have hnot := h.slots.not_mem
    rw [h.iteration] at hnot
    exact hnot hx

/-- The node in hand has been given up again. -/
structure Dropped (t : Table τ) (i : ℕ) (t' : Table τ) : Prop where
  slots : Slots t' []
  iteration : t'.iteration = t.iteration
  others : ∀ x, x ≠ i → (t'.nodeAt x).storage = (t.nodeAt x).storage
  gone : (t'.nodeAt i).storage = none
  policy : SamePolicy t t'
  chunks : chunkIds t' = chunkIds t

/-- What `destroy_value` and `release_node` do to a node in hand. -/
theorem Dropped.of_slots (h : Slots t [i]) : Dropped t i ((t.setStorage i none).release i) where
  slots := (h.setStorage i none).release
  iteration := rfl
  others x hx := (storage_release _ i x).trans (storage_setStorage_of_ne hx none)
  gone := (storage_release _ i i).trans
    (storage_setStorage_self (h.lt_arenaSize (Or.inr (by simp))) none)
  policy := ⟨rfl, rfl, rfl, rfl⟩
  chunks := (chunkIds_setNode ..).trans (chunkIds_setNode ..)

/-- Giving up the node in hand restores the elements from before it was built. -/
theorem Dropped.sameElements {s1 : Store τ} (h : Dropped s1.table i t')
    (hb : Built s v i s1) (hc : Consistent s.table) : SameElements s.table t' where
  iteration := h.iteration.trans hb.iteration
  storage x := by
    by_cases hx : x = i
    · subst hx
      rw [h.gone]
      have hnot := hb.slots.not_mem
      rw [hb.iteration, ← hc.filled] at hnot
      exact (Option.not_isSome_iff_eq_none.mp hnot).symm
    · rw [h.others x hx, hb.others x hx]
  policy := hb.policy.trans h.policy
  chunks := by
    rw [h.chunks]
    exact hb.chunks

/-- The node in hand has been listed. -/
structure Attached (t : Table τ) (i : ℕ) (t' : Table τ) : Prop where
  iteration : t'.iteration = t.iteration ++ [i]
  storage : ∀ x, (t'.nodeAt x).storage = (t.nodeAt x).storage
  policy : SamePolicy t t'
  chunks : chunkIds t' = chunkIds t
  growth : Sized t t'

/-- How the second half of an insertion throws. -/
def AttachThrown (s : Store τ) (i : ℕ) (s' : Store τ) : Prop :=
  (faultPoint s.heap.fault = some .iterationGrowth ∧ Dropped s.table i s'.table ∧
      IndexInOrder (ownHash s.table) s.table.iteration s'.table) ∨
    (faultPoint s.heap.fault = some .bucketArray ∧ Dropped s.table i s'.table ∧
      s'.table.buckets = none ∧ s'.table.bucketCount = s.table.bucketCount) ∨
    (faultPoint s.heap.fault = some .hash ∧ Unplaced s'.table)

/-- The part of `attach_node` that an exception undoes. -/
theorem reserveAndLink_spec (h : InHand s.table i) (hroom : Room s.table) :
    Action.Post U ((do
        reserveForOneMore
        linkIntoIteration i).cleanup (do
        destroyValue i
        releaseNode i) : Exec τ Unit) s
      (fun _ s' => ∃ s1 f, Reserved s s1 ∧ Ticks .iterationGrowth s1.heap.fault f ∧
        s' = ⟨linked s1.table i, withFault s1.heap f⟩)
      (AttachThrown s i) := by
  -- what the handler finds: the same arena, but for the link field of the node
  have hdrop : ∀ s1 : Store τ, Slots s1.table [i] → (s1.table.nodeAt i).storage.isSome →
      Action.Post U (destroyValue i >>= fun _ => releaseNode i) s1
        (fun _ s' => ∃ e : Element τ,
          s' = ⟨(s1.table.setStorage i none).release i, withoutElement s1.heap e⟩)
        (fun _ => False) := by
    intro s1 _ hlive
    refine post_destroyValue (fun e _ => ⟨e, rfl⟩) fun hnone => ?_
    rw [hnone] at hlive
    cases hlive
  refine Action.Post.cleanup (E := fun s' => RehashThrown s s' ∨
    faultPoint s.heap.fault = some .iterationGrowth ∧ ∃ s1, Reserved s s1 ∧
      s' = ⟨s1.table.setAux i (wrap32 s1.table.size), withFault s1.heap none⟩) ?_ ?_
  · refine Action.Post.bind (reserveForOneMore_spec h.index (h.slots.iteration_nodup)
      (fun x hx => h.others hx) hroom) (fun _ h' => Or.inl h') fun _ s1 h1 => ?_
    refine (linkIntoIteration_spec i).mono ?_ ?_ fun _ h' => h'
    · rintro ⟨⟩ s2 ⟨f, hf, rfl⟩
      exact ⟨s1, f, h1, hf, rfl⟩
    · rintro s2 ⟨hpoint, rfl⟩
      exact Or.inr ⟨by rw [← h1.fault.point]; exact hpoint, s1, h1, rfl⟩
  · rintro s2 (h2 | ⟨hpoint, s1, h1, rfl⟩)
    · -- the rebuild of the index has thrown
      have hslots := h2.arena.slots h.slots
      refine (hdrop s2 hslots (by rw [h2.arena.nodeAt]; exact h.live)).mono ?_
        (fun _ h' => h'.elim) fun _ h' => h'
      rintro ⟨⟩ s3 ⟨e, rfl⟩
      have hd := Dropped.of_slots hslots
      have hdropped : Dropped s.table i ((s2.table.setStorage i none).release i) :=
        ⟨hd.slots, hd.iteration.trans h2.arena.iteration,
          fun x hx => (hd.others x hx).trans (by rw [h2.arena.nodeAt]), hd.gone,
          h2.policy.trans hd.policy, hd.chunks.trans h2.arena.chunkIds⟩
      rcases h2.index with ⟨hp, hb, hcount⟩ | ⟨hp, x, hx, hunplaced⟩
      · exact Or.inr (Or.inl ⟨hp, hdropped, hb, hcount⟩)
      · exact Or.inr (Or.inr ⟨hp, x, hx, hunplaced⟩)
    · -- the iteration vector did not grow
      have hslots := (h1.arena.slots h.slots).setAux (wrap32 s1.table.size)
      have hlive : (((s1.table.setAux i (wrap32 s1.table.size)).nodeAt i).storage).isSome := by
        rw [storage_setAux, h1.arena.nodeAt]
        exact h.live
      refine (hdrop _ hslots hlive).mono ?_ (fun _ h' => h'.elim) fun _ h' => h'
      rintro ⟨⟩ s3 ⟨e, rfl⟩
      have hd := Dropped.of_slots hslots
      refine Or.inl ⟨hpoint, ⟨hd.slots, hd.iteration.trans h1.arena.iteration, fun x hx => ?_,
        hd.gone, ?_, ?_⟩, ?_⟩
      · exact (hd.others x hx).trans ((storage_setAux ..).trans (by rw [h1.arena.nodeAt]))
      · exact h1.policy.trans ⟨rfl, rfl, rfl, rfl⟩
      · exact hd.chunks.trans ((chunkIds_setNode ..).trans h1.arena.chunkIds)
      · obtain ⟨k, cells, I, hlt, hcap⟩ := h1.indexed
        have hlt' : s.table.iteration.length + 1 < 2 ^ k := hlt
        exact Or.inr ⟨k, cells, I.sameIndex ⟨rfl, rfl, rfl, rfl⟩, by omega, hcap⟩

theorem attachNode_spec (h : InHand s.table i) (hroom : Room s.table) :
    Action.Post U (attachNode i) s
      (fun _ s' => Attached s.table i s'.table ∧ Consistent s'.table ∧
        faultPoint s'.heap.fault = faultPoint s.heap.fault) (AttachThrown s i) := by
  unfold attachNode
  refine Action.Post.bind (reserveAndLink_spec h hroom) (fun _ h' => h') ?_
  rintro ⟨⟩ s2 ⟨s1, f, h1, hf, rfl⟩
  obtain ⟨e, he⟩ := Option.isSome_iff_exists.mp h.live
  obtain ⟨k, cells, I, hlt, hcap⟩ := h1.indexed
  have hstorage : ∀ x, ((linked s1.table i).nodeAt x).storage = (s.table.nodeAt x).storage :=
    fun x => (storage_linked s1.table i x).trans (by rw [h1.arena.nodeAt])
  have hsize : s1.table.size = s.table.size := by
    unfold Table.size
    rw [h1.arena.iteration]
  have hslots : Slots (linked s1.table i) [] :=
    (h1.arena.slots h.slots).linked (by rw [hsize]; exact hroom.le_maxSize)
  have hiter : (linked s1.table i).iteration = s.table.iteration ++ [i] := by
    show s1.table.iteration ++ [i] = _
    rw [h1.arena.iteration]
  have hnot : i ∉ s.table.iteration := h.slots.not_mem
  have hpolicy : SamePolicy s.table (linked s1.table i) := h1.policy.trans ⟨rfl, rfl, rfl, rfl⟩
  have hhash : ∀ x, ownHash (linked s1.table i) x = ownHash s.table x :=
    fun x => ownHash_congr (hstorage x) hpolicy
  have I' : Indexed (ownHash s.table) s.table.iteration (linked s1.table i) k cells :=
    I.sameIndex ⟨rfl, rfl, rfl, rfl⟩
  refine post_keyAt (fun e' he' => ?_) fun hnone => ?_
  swap
  · rw [hstorage, he] at hnone
    cases hnone
  rw [hstorage, he] at he'
  cases he'
  refine post_callMixedHash (fun f' hf' => ?_) fun hpoint _ => ?_
  · have hH : (linked s1.table i).mixedHash (τ.keyOf e.value) = ownHash s.table i := by
      rw [ownHash_of_storage he]
      exact hpolicy.mixedHash _
    rw [hH]
    unfold Room Table.size at hroom
    have hlt' : s.table.iteration.length + 1 < 2 ^ k := hlt
    refine Action.Post.of_bind_pure (post_insertKnownAbsent
      (s := ⟨linked s1.table i, withFault (withFault s1.heap f) f'⟩) I'
      h.slots.iteration_nodup (by omega) hroom hnot fun cells' I'' => ?_)
    have hsetArena : SameArena (linked s1.table i) ((linked s1.table i).setCells cells') :=
      ⟨rfl, rfl, rfl, rfl⟩
    refine Action.Post.pure ⟨⟨hiter, fun x => ?_, hpolicy.trans ⟨rfl, rfl, rfl, rfl⟩, ?_, ?_⟩,
      ⟨hsetArena.slots hslots, ?_, ?_⟩,
      hf'.faultPoint_eq.trans (hf.faultPoint_eq.trans h1.fault.point)⟩
    · rw [hsetArena.nodeAt]
      exact hstorage x
    · rw [hsetArena.chunkIds, chunkIds_linked, h1.arena.chunkIds]
    · exact ⟨h1.growth.bucketCount, h1.growth.capacity⟩
    · intro x
      rw [hsetArena.nodeAt, hstorage]
      show _ ↔ x ∈ (linked s1.table i).iteration
      rw [hiter]
      exact h.filled x
    · refine Or.inr ⟨k, cells', ?_, ?_, hcap⟩
      · rw [show ((linked s1.table i).setCells cells').iteration = s.table.iteration ++ [i] from
          hiter]
        exact I''.congr fun x _ => hhash x
      · show (linked s1.table i).iteration.length < 2 ^ k
        rw [hiter, List.length_append, List.length_singleton]
        exact hlt'
  · -- the node is listed, but has no bucket yet
    refine Or.inr (Or.inr ⟨?_, i, ?_, fun b hb => ?_⟩)
    · rw [← h1.fault.point, ← hf.faultPoint_eq]
      exact hpoint
    · show i ∈ (linked s1.table i).iteration
      rw [hiter]
      simp
    · exact hnot (I'.mem_of_bucketOf hb)

end Fum.Analysis
