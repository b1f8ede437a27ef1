import Fum.Analysis.Reachability
import Fum.Interface.EraseIf

/-!
# The representation invariant of the index

What the bucket array of a reachable table looks like, in the terms of the code: the packed
words, the homes by shifting, the order of neighbours; and that a lookup finds every key there
is.
-/

set_option autoImplicit false

namespace Fum.Interface

open Fum.Model Fum.Analysis Effects RobinHood

variable {τ : Traits} {t : Table τ} {heap : Heap} {H : ℕ → UInt64} {L : List ℕ} {k : ℕ}
  {cells : ℕ → Bucket}

/-- The packed word in a bucket of the table. -/
def wordAt (t : Table τ) (p : ℕ) : ℕ :=
  match t.buckets with
  | none => 0
  | some array => (array.cells p).distAndFingerprint

/-- The node in a bucket of the table. -/
def nodeIn (t : Table τ) (p : ℕ) : ℕ :=
  match t.buckets with
  | none => kNullIndex
  | some array => (array.cells p).nodeIndex

/-- The bucket is occupied. -/
def Occupied (t : Table τ) (p : ℕ) : Prop := p < t.bucketCount ∧ wordAt t p ≠ 0

/-- The Robin Hood invariant of the bucket array. -/
structure RobinHoodIndex (t : Table τ) : Prop where
  count : t.bucketCount = 0 ∨ ∃ k, 3 ≤ k ∧ t.bucketCount = 2 ^ k ∧
    t.bucketShift = 64 - Nat.log 2 t.bucketCount
  /-- Every live node is in exactly one bucket. -/
  placed : ∀ x, (t.nodeAt x).storage.isSome → ∃! p, Occupied t p ∧ nodeIn t p = x
  live : ∀ p, Occupied t p → (t.nodeAt (nodeIn t p)).storage.isSome
  /-- The word tells how far the bucket is from the home of the key, and its fingerprint. -/
  word : ∀ p, Occupied t p → ∀ e, (t.nodeAt (nodeIn t p)).storage = some e →
    wordAt t p = (((p + t.bucketCount - t.homeFromHash (t.mixedHash (τ.keyOf e.value))) %
      t.bucketCount + 1) <<< 8) ||| ((t.mixedHash (τ.keyOf e.value)).toNat &&& 0xFF)
  /-- A node that is not at home follows one that is as far from its home, less one. -/
  ordered : ∀ p, Occupied t p → 2 ≤ wordAt t p >>> 8 →
    wordAt t (pred t.bucketCount p) ≠ 0 ∧
      wordAt t p - kDistInc ≤ wordAt t (pred t.bucketCount p)

theorem wordAt_eq (I : Indexed H L t k cells) : wordAt t = words cells := by
  obtain ⟨array, harray, -, rfl⟩ := I.buckets
  funext p
  unfold wordAt
  rw [harray]
  rfl

theorem nodeIn_eq (I : Indexed H L t k cells) : nodeIn t = nodes cells := by
  obtain ⟨array, harray, -, rfl⟩ := I.buckets
  funext p
  unfold nodeIn
  rw [harray]
  rfl

theorem occupied_iff (I : Indexed H L t k cells) {p : ℕ} :
    Occupied t p ↔ p < 2 ^ k ∧ words cells p ≠ 0 := by
  unfold Occupied
  rw [I.bucketCount, wordAt_eq I]

theorem sub_home_mod {N h d : ℕ} (hh : h < N) (hd : d < N) :
    ((h + d) % N + N - h) % N = d := by
  rw [Nat.add_sub_assoc hh.le, Nat.mod_add_mod, show h + d + (N - h) = d + N by omega,
    Nat.add_mod_right, Nat.mod_eq_of_lt hd]

/-- A word of the layout, as the code packs it. -/
theorem packed_eq (d : ℕ) (hash : UInt64) :
    (d + 1) * kDistInc + fingerprint hash = ((d + 1) <<< 8) ||| (hash.toNat &&& 0xFF) := by
  have hlt : fingerprint hash < 2 ^ 8 := fingerprint_lt hash
  have hmask : hash.toNat &&& 0xFF = fingerprint hash :=
    Nat.and_two_pow_sub_one_eq_mod hash.toNat 8
  rw [hmask, ← Nat.shiftLeft_add_eq_or_of_lt hlt, Nat.shiftLeft_eq]
  rfl

/-- The word in an occupied bucket: how far it is from the home of the key, and the
fingerprint. -/
theorem word_in_bucket (I : Indexed (ownHash t) L t k cells) {p : ℕ} (h : Occupied t p)
    {e : Element τ} (he : (t.nodeAt (nodeIn t p)).storage = some e) :
    wordAt t p = ((p + t.bucketCount - t.homeFromHash (t.mixedHash (τ.keyOf e.value))) %
      t.bucketCount + 1) * kDistInc + fingerprint (t.mixedHash (τ.keyOf e.value)) := by
  obtain ⟨hp, hocc⟩ := (occupied_iff I).mp h
  rw [nodeIn_eq I] at he
  obtain ⟨d, hd, hword, hpos⟩ := I.layout.seated p hp hocc
  have hash : ownHash t (nodes cells p) = t.mixedHash (τ.keyOf e.value) :=
    ownHash_of_storage he
  unfold fpOf at hword
  rw [hash] at hword
  have hhome : homeOf k (ownHash t) (nodes cells p) =
      t.homeFromHash (t.mixedHash (τ.keyOf e.value)) := by
    unfold homeOf
    rw [I.homeFromHash, hash]
  rw [hhome] at hpos
  have hhomelt := homeOf_lt k (ownHash t) (nodes cells p)
  rw [hhome] at hhomelt
  have hmod := sub_home_mod hhomelt hd
  rw [← hpos] at hmod
  rw [wordAt_eq I, hword, I.bucketCount, hmod]

/-- An index in order meets the invariant, up to 2 ^ 31 buckets. -/
theorem robinHoodIndex_of_consistent (hc : Consistent t) (hcount : t.bucketCount ≤ 2 ^ 31) :
    RobinHoodIndex t := by
  rcases hc.index with ⟨hnone, hzero, hempty⟩ | ⟨k, cells, I, -, -⟩
  · have hno : ∀ p, ¬ Occupied t p := fun p h => by
      have := h.1
      omega
    refine ⟨Or.inl hzero, fun x hx => ?_, fun p h => (hno p h).elim, fun p h => (hno p h).elim,
      fun p h => (hno p h).elim⟩
    have := (hc.filled x).mp hx
    rw [hempty] at this
    cases this
  · have hk : k ≤ 31 := by
      rw [I.bucketCount] at hcount
      exact (Nat.pow_le_pow_iff_right (by decide)).mp hcount
    have hlive : ∀ p, Occupied t p → nodes cells p ∈ t.iteration := fun p h =>
      (I.holds _).mp ⟨p, ((occupied_iff I).mp h).1, ((occupied_iff I).mp h).2, rfl⟩
    refine ⟨Or.inr ⟨k, I.three_le, I.bucketCount, ?_⟩, fun x hx => ?_, fun p h => ?_,
      fun p h e he => ?_, fun p h hfar => ?_⟩
    · rw [I.bucketShift, I.bucketCount, countrZero_two_pow, Nat.log_pow (by decide)]
      omega
    · obtain ⟨p, hp, hocc, hnode⟩ := (I.holds x).mpr ((hc.filled x).mp hx)
      rw [nodeIn_eq I]
      refine ⟨p, ⟨(occupied_iff I).mpr ⟨hp, hocc⟩, hnode⟩, fun q hq => ?_⟩
      obtain ⟨hqN, hqocc⟩ := (occupied_iff I).mp hq.1
      exact I.layout.inj q hqN p hp hqocc hocc (hq.2.trans hnode.symm)
    · rw [nodeIn_eq I]
      exact hc.live (hlive p h)
    · rw [word_in_bucket I h he, packed_eq]
    · obtain ⟨hp, hocc⟩ := (occupied_iff I).mp h
      rw [wordAt_eq I] at hfar ⊢
      rw [I.bucketCount]
      have h256 : kDistInc = 256 := rfl
      have htwo : 2 * kDistInc ≤ words cells p := by
        rw [Nat.shiftRight_eq_div_pow] at hfar
        omega
      have hfit := I.layout.linked p hp htwo
      omega

/-- `find_bucket` for a key and its hash: the bucket of the live node with an equal key if
there is one, and `bucket_count_` if there is none. -/
theorem findBucket_complete (key : τ.Key) (heap : Heap) (hs : Sturdy t) (hlaw : LawfulTable t) :
    Action.Post Stuck.never (findBucket key (t.mixedHash key)) ⟨t, heap⟩
      (fun b s' => s'.table = t ∧
        (∀ x, (t.nodeAt x).storage.isSome → Matches t key x →
          Occupied t b ∧ nodeIn t b = x) ∧
        (b = t.bucketCount ↔ ∀ x, (t.nodeAt x).storage.isSome → ¬ Matches t key x))
      (fun _ => heap.fault ≠ none) := by
  obtain ⟨hwell, hroom⟩ := hs
  have hc := hwell.consistent
  refine (findBucket_spec (s := ⟨t, heap⟩) hc.index hc.slots.iteration_nodup
    (fun _ hx => hc.live hx) hroom).mono ?_ (fun s' h' => ?_) fun _ h' => h'
  · rintro b s' ⟨hpasses, hlocated⟩
    refine ⟨hpasses.table, ?_⟩
    have hmem : ∀ {x}, (t.nodeAt x).storage.isSome → x ∈ t.iteration := fun h =>
      (hc.filled _).mp h
    rcases hlocated with ⟨hb, hdiffers⟩ | ⟨x, hx, hmatch, hbucket⟩
    · have hnone : ∀ x, (t.nodeAt x).storage.isSome → ¬ Matches t key x := by
        intro x hlive hmatch
        exact not_matches_iff.mpr (hdiffers x (hmem hlive) (hmatch.ownHash hlaw)) hmatch
      exact ⟨fun x hlive hmatch => (hnone x hlive hmatch).elim, iff_of_true hb hnone⟩
    · have hlt : b < t.bucketCount := hc.index.bucketOf_lt hbucket
      refine ⟨fun y hlive hy => ?_, iff_of_false hlt.ne fun h => h x (hc.live hx) hmatch⟩
      have hyx : y = x := (hwell.distinct hlaw).unique hlaw (hmem hlive) hx hy hmatch
      obtain ⟨array, harray, -, hocc, hnode⟩ := hbucket
      unfold Occupied wordAt nodeIn
      rw [harray, hyx]
      exact ⟨⟨hlt, hocc⟩, hnode⟩
  · obtain ⟨p, -, hpoint⟩ := h'.point
    exact fault_ne_none hpoint

/-- On every reachable table with at most 2 ^ 31 buckets the invariant holds, and
`find_bucket` is complete for every key. -/
theorem index_complete (hreach : Reachable t) (hcount : t.bucketCount ≤ 2 ^ 31) :
    RobinHoodIndex t ∧ ∀ (key : τ.Key) (heap : Heap),
      Action.Post Stuck.never (findBucket key (t.mixedHash key)) ⟨t, heap⟩
        (fun b s' => s'.table = t ∧
          (∀ x, (t.nodeAt x).storage.isSome → Matches t key x →
            Occupied t b ∧ nodeIn t b = x) ∧
          (b = t.bucketCount ↔ ∀ x, (t.nodeAt x).storage.isSome → ¬ Matches t key x))
        (fun _ => heap.fault ≠ none) :=
  ⟨robinHoodIndex_of_consistent hreach.sturdy.1.consistent hcount,
    fun key heap => findBucket_complete key heap hreach.sturdy hreach.lawful⟩

theorem index_complete_five : RobinHoodIndex
    (((finish World.empty fiveSteps).table? 0).get five_made) :=
  (index_complete five_reachable (by decide +kernel)).1

end Fum.Interface
