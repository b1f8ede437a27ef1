import Fum.Analysis.Lifetime

/-!
# Frames of the index functions

What lookup, placement and the rebuild of the index leave alone, whatever the bucket
array holds and however the functors behave: lookup changes nothing but the countdown of
a fault, the other two change the bucket array alone.
-/

set_option autoImplicit false

namespace Fum.Analysis

open Fum.Model Effects

variable {τ : Traits} {β : Type} {U : Stuck → Prop} {s : Store τ}
  {Q : β → Store τ → Prop} {E : Store τ → Prop}

/-! ## Lookup -/

/-- Nothing happens but passages of the points `ps`. -/
structure Passes (ps : List Point) (s s' : Store τ) : Prop where
  table : s'.table = s.table
  heap : s'.heap = withFault s.heap s'.heap.fault
  fault : Through ps s.heap.fault s'.heap.fault

/-- Nothing happens but a throw at one of the points `ps`. -/
structure Throws (ps : List Point) (s s' : Store τ) : Prop where
  table : s'.table = s.table
  heap : s'.heap = withFault s.heap none
  point : ∃ p ∈ ps, faultPoint s.heap.fault = some p

variable {ps : List Point} {s' s'' : Store τ}

theorem Passes.refl (ps : List Point) (s : Store τ) : Passes ps s s :=
  ⟨rfl, rfl, Through.refl _ _⟩

theorem Passes.trans (h : Passes ps s s') (h' : Passes ps s' s'') : Passes ps s s'' where
  table := h'.table.trans h.table
  heap := withFault_trans h.heap h'.heap
  fault := h.fault.trans h'.fault

theorem Passes.throws (h : Passes ps s s') (h' : Throws ps s' s'') : Throws ps s s'' where
  table := h'.table.trans h.table
  heap := withFault_trans h.heap h'.heap
  point := by
    obtain ⟨p, hp, hpoint⟩ := h'.point
    exact ⟨p, hp, h.fault.point ▸ hpoint⟩

theorem Passes.mono {qs : List Point} (h : Passes ps s s') (hsub : ∀ p ∈ ps, p ∈ qs) :
    Passes qs s s' := ⟨h.table, h.heap, h.fault.mono hsub⟩

theorem Throws.mono {qs : List Point} (h : Throws ps s s') (hsub : ∀ p ∈ ps, p ∈ qs) :
    Throws qs s s' := ⟨h.table, h.heap, by
      obtain ⟨p, hp, hpoint⟩ := h.point
      exact ⟨p, hsub p hp, hpoint⟩⟩

theorem Ticks.passes {p : Point} {f : Option (Point × ℕ)} (h : Ticks p s.heap.fault f)
    (hp : p ∈ ps) : Passes ps s ⟨s.table, withFault s.heap f⟩ :=
  ⟨rfl, rfl, h.through hp⟩

theorem Ticks.passes_self {p : Point} {f : Option (Point × ℕ)} (h : Ticks p s.heap.fault f) :
    Passes [p] s ⟨s.table, withFault s.heap f⟩ := h.passes (by simp)

/-- A throw at the first passage. -/
theorem Throws.here {p : Point} (h : faultPoint s.heap.fault = some p) :
    Throws [p] s ⟨s.table, withFault s.heap none⟩ := ⟨rfl, rfl, p, by simp, h⟩

/-- Lookup changes nothing, whatever it finds. -/
theorem findBucketLoop_frame (key : τ.Key) (fuel : ℕ) :
    ∀ (s : Store τ) (word index : ℕ), Action.Post Stuck.anyhow
      (findBucketLoop key fuel word index) s (fun _ => Passes [.equal] s)
      (Throws [.equal] s) := by
  induction fuel with
  | zero => exact fun s _ _ => Action.Post.diverge trivial
  | succ fuel ih =>
      intro s word index
      unfold findBucketLoop
      rw [post_getTable]
      refine post_bucketAt (fun array harray hlt => ?_) fun _ => trivial
      by_cases heq : word = (array.cells index).distAndFingerprint
      · rw [if_pos heq]
        refine post_keyAt (fun e he => ?_) fun _ => trivial
        refine post_callKeyEqual (fun f hf => ?_) fun hpoint _ =>
          ⟨rfl, rfl, _, by simp, hpoint⟩
        have hpass : Passes [.equal] s ⟨s.table, withFault s.heap f⟩ := hf.passes (by simp)
        split
        · exact hpass
        · exact (ih _ _ _).mono (fun _ _ h => hpass.trans h) (fun _ h => hpass.throws h)
            fun _ h => h
      · rw [if_neg heq]
        by_cases hgt : word > (array.cells index).distAndFingerprint
        · rw [if_pos hgt]
          exact Passes.refl _ _
        · rw [if_neg hgt]
          exact ih s _ _

theorem findBucket_frame (key : τ.Key) (hash : UInt64) :
    Action.Post Stuck.anyhow (findBucket key hash) s (fun _ => Passes [.equal] s)
      (Throws [.equal] s) := by
  unfold findBucket
  rw [post_getTable]
  by_cases h0 : s.table.bucketCount = 0
  · rw [if_pos h0]
    exact Passes.refl _ _
  · rw [if_neg h0]
    exact findBucketLoop_frame key _ _ _ _

/-- A hash and a lookup, then the rest. -/
theorem locate_frame {key : τ.Key} {k : ℕ → Exec τ β}
    (hE : ∀ s', Throws [.hash, .equal] s s' → E s')
    (hk : ∀ existing s', Passes [.hash, .equal] s s' →
      Action.Post Stuck.anyhow (k existing) s' Q E) :
    Action.Post Stuck.anyhow
      (callMixedHash key >>= fun hash => findBucket key hash >>= k) s Q E := by
  refine post_callMixedHash (fun f hf => ?_) fun hpoint _ =>
    hE _ ⟨rfl, rfl, _, by simp, hpoint⟩
  have hpass : Passes [.hash, .equal] s ⟨s.table, withFault s.heap f⟩ := hf.passes (by simp)
  refine Action.Post.bind (findBucket_frame _ _) ?_ fun existing s' h' => ?_
  · exact fun s' ht => hE s' (hpass.throws (ht.mono (by simp)))
  · exact hk existing s' (hpass.trans (h'.mono (by simp)))

/-- `find` changes nothing. -/
theorem find_frame (key : τ.Key) :
    Action.Post Stuck.anyhow (find key) s (fun _ => Passes [.hash, .equal] s)
      (Throws [.hash, .equal] s) := by
  unfold find
  refine locate_frame (fun _ h => h) fun existing s' h' => ?_
  rw [post_getTable]
  split
  · exact h'
  · exact post_bucketAt (fun _ _ _ => h') fun _ => trivial

/-- `contains` changes nothing. -/
theorem contains_frame (key : τ.Key) :
    Action.Post Stuck.anyhow (contains key) s (fun _ => Passes [.hash, .equal] s)
      (Throws [.hash, .equal] s) := by
  unfold contains
  exact locate_frame (fun _ h => h) fun existing s' h' => h'

/-! ## Writes to the bucket array -/

/-- Only the contents of the bucket array and the countdown change. -/
structure Reindexes (ps : List Point) (s s' : Store τ) : Prop where
  arena : SameArena s.table s'.table
  policy : SamePolicy s.table s'.table
  cells : ∃ cells, s'.table.buckets = s.table.buckets.map fun a => { a with cells := cells }
  bucketCount : s'.table.bucketCount = s.table.bucketCount
  bucketShift : s'.table.bucketShift = s.table.bucketShift
  maxLoadCapacity : s'.table.maxLoadCapacity = s.table.maxLoadCapacity
  heap : s'.heap = withFault s.heap s'.heap.fault
  fault : Through ps s.heap.fault s'.heap.fault

theorem Reindexes.setCells (s : Store τ) (cells : ℕ → Bucket) :
    Reindexes ps s ⟨s.table.setCells cells, s.heap⟩ :=
  ⟨⟨rfl, rfl, rfl, rfl⟩, ⟨rfl, rfl, rfl, rfl⟩, ⟨cells, rfl⟩, rfl, rfl, rfl, rfl,
    Through.refl _ _⟩

theorem Passes.reindexes (h : Passes ps s s') : Reindexes ps s s' where
  arena := by
    rw [h.table]
    exact SameArena.refl _
  policy := by
    rw [h.table]
    exact SamePolicy.refl _
  cells := by
    cases hb : s.table.buckets with
    | none => exact ⟨emptyCells, by rw [h.table, hb]; rfl⟩
    | some a => exact ⟨a.cells, by rw [h.table, hb]; rfl⟩
  bucketCount := by rw [h.table]
  bucketShift := by rw [h.table]
  maxLoadCapacity := by rw [h.table]
  heap := h.heap
  fault := h.fault

theorem Reindexes.refl (ps : List Point) (s : Store τ) : Reindexes ps s s :=
  (Passes.refl ps s).reindexes

theorem Reindexes.trans (h : Reindexes ps s s') (h' : Reindexes ps s' s'') :
    Reindexes ps s s'' where
  arena := h.arena.trans h'.arena
  policy := h.policy.trans h'.policy
  cells := by
    obtain ⟨c, hc⟩ := h.cells
    obtain ⟨c', hc'⟩ := h'.cells
    refine ⟨c', ?_⟩
    rw [hc', hc, Option.map_map]
    rfl
  bucketCount := h'.bucketCount.trans h.bucketCount
  bucketShift := h'.bucketShift.trans h.bucketShift
  maxLoadCapacity := h'.maxLoadCapacity.trans h.maxLoadCapacity
  heap := withFault_trans h.heap h'.heap
  fault := h.fault.trans h'.fault

/-- The same in a call that throws in the middle. -/
structure ReindexThrows (ps : List Point) (s s' : Store τ) : Prop where
  arena : SameArena s.table s'.table
  policy : SamePolicy s.table s'.table
  cells : ∃ cells, s'.table.buckets = s.table.buckets.map fun a => { a with cells := cells }
  bucketCount : s'.table.bucketCount = s.table.bucketCount
  heap : s'.heap = withFault s.heap none
  point : ∃ p ∈ ps, faultPoint s.heap.fault = some p

theorem Reindexes.throws (h : Reindexes ps s s') (h' : Throws ps s' s'') :
    ReindexThrows ps s s'' where
  arena := by
    rw [h'.table]
    exact h.arena
  policy := by
    rw [h'.table]
    exact h.policy
  cells := by
    rw [h'.table]
    exact h.cells
  bucketCount := by
    rw [h'.table]
    exact h.bucketCount
  heap := withFault_trans h.heap h'.heap
  point := by
    obtain ⟨p, hp, hpoint⟩ := h'.point
    exact ⟨p, hp, h.fault.point ▸ hpoint⟩

theorem placeAndShiftUp_frame (ps : List Point) (word index node : ℕ) :
    Action.Post Stuck.anyhow (placeAndShiftUp word index node) s
      (fun _ => Reindexes ps s) (fun _ => False) := by
  unfold placeAndShiftUp
  rw [post_getTable]
  refine post_getCells (fun array _ => ?_) fun _ => trivial
  refine post_ended (fun cells _ => ?_) fun _ => trivial
  exact Reindexes.setCells s cells

theorem probeStart_frame (hash : UInt64) :
    Action.Post Stuck.anyhow (probeStart hash) s (fun _ s' => s' = s) (fun _ => False) := by
  unfold probeStart
  rw [post_getTable]
  refine post_getCells (fun array _ => ?_) fun _ => trivial
  cases probeStartLoop s.table.bucketCount array.cells (loopFuel s.table.bucketCount)
    (distAndFingerprintFromHash hash) (s.table.homeFromHash hash) with
  | none => exact Action.Post.diverge trivial
  | some state => exact Action.Post.pure rfl

theorem insertKnownAbsent_frame (ps : List Point) (node : ℕ) (hash : UInt64) :
    Action.Post Stuck.anyhow (insertKnownAbsent node hash) s
      (fun _ => Reindexes ps s) (fun _ => False) := by
  unfold insertKnownAbsent
  refine Action.Post.bind (probeStart_frame hash) (fun _ h => h) fun state s' h => ?_
  subst h
  exact placeAndShiftUp_frame _ _ _ _

theorem eraseBucket_frame (ps : List Point) (index : ℕ) :
    Action.Post Stuck.anyhow (eraseBucket index) s (fun _ => Reindexes ps s)
      (fun _ => False) := by
  unfold eraseBucket
  rw [post_getTable]
  refine post_getCells (fun array _ => ?_) fun _ => trivial
  refine post_ended (fun cells _ => ?_) fun _ => trivial
  exact Reindexes.setCells s cells

theorem replaceNode_frame (node : ℕ) :
    Action.Post Stuck.anyhow (replaceNode node) s (fun _ => Reindexes [.hash] s)
      (Throws [.hash] s) := by
  unfold replaceNode
  refine post_keyAt (fun e _ => ?_) fun _ => trivial
  refine post_callMixedHash (fun f hf => ?_) fun hpoint _ => ⟨rfl, rfl, _, by simp, hpoint⟩
  rw [post_getTable]
  have hpass : Reindexes [.hash] s ⟨s.table, withFault s.heap f⟩ :=
    (hf.passes (by simp)).reindexes
  exact (placeAndShiftUp_frame _ _ _ _).mono (fun _ _ h => hpass.trans h) (fun _ h => h.elim)
    fun _ h => h

/-- The loop of `rehash_to` writes the bucket array alone. -/
theorem replaceAll_frame (l : List ℕ) :
    Action.Post Stuck.anyhow (Action.forEach l replaceNode) s
      (fun _ => Reindexes [.hash] s) (ReindexThrows [.hash] s) := by
  refine Action.Post.forEach (fun _ => Reindexes [.hash] s) (Reindexes.refl _ _) ?_
  intro done node rest s' _ h
  exact (replaceNode_frame node).mono (fun _ _ h' => h.trans h') (fun _ h' => h.throws h')
    fun _ h' => h'

end Fum.Analysis
