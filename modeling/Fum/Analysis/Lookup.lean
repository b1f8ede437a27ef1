import Fum.Analysis.Index

/-!
# Lookup

`find_bucket` walks from the home bucket of a key. It returns a bucket whose node has an
equal key, or `bucket_count_`, and then no node with the hash it was given has an equal
key: neither the early exit nor the comparison of packed words passes one over.
-/

set_option autoImplicit false

namespace Fum.Analysis

open Fum.Model Effects RobinHood

variable {τ : Traits} {U : Stuck → Prop} {s : Store τ} {t : Table τ} {H : ℕ → UInt64}
  {L : List ℕ} {k : ℕ} {cells : ℕ → Bucket} {key : τ.Key} {hash : UInt64}

/-- The key of the node is not equal to `key`. -/
def Differs (t : Table τ) (key : τ.Key) (x : ℕ) : Prop :=
  ∀ e, (t.nodeAt x).storage = some e → t.keyEqual key (τ.keyOf e.value) = false

/-- The key of the node is equal to `key`. -/
def Matches (t : Table τ) (key : τ.Key) (x : ℕ) : Prop :=
  ∃ e, (t.nodeAt x).storage = some e ∧ t.keyEqual key (τ.keyOf e.value) = true

/-- What `find_bucket` answers: the bucket of a node with an equal key, or the bucket count
if no node with the hash has an equal key. -/
def Located (t : Table τ) (H : ℕ → UInt64) (L : List ℕ) (key : τ.Key) (hash : UInt64) (b : ℕ) :
    Prop :=
  (b = t.bucketCount ∧ ∀ x ∈ L, H x = hash → Differs t key x) ∨
    ∃ x ∈ L, Matches t key x ∧ BucketOf t b x

/-- The node `x` sits `d` buckets from `home` or further on. -/
def Ahead (k : ℕ) (cells : ℕ → Bucket) (home fp d x : ℕ) : Prop :=
  ∃ dx, d ≤ dx ∧ words cells ((home + dx) % 2 ^ k) = (dx + 1) * kDistInc + fp ∧
    nodes cells ((home + dx) % 2 ^ k) = x

/-- A node sits ahead of its home. -/
theorem Indexed.ahead (I : Indexed H L t k cells) {x : ℕ} (hx : x ∈ L) :
    Ahead k cells (homeOf k H x) (fpOf H x) 0 x := by
  obtain ⟨q, hq, hocc, rfl⟩ := (I.holds x).mpr hx
  obtain ⟨d, -, hword, hpos⟩ := I.layout.seated q hq hocc
  refine ⟨d, Nat.zero_le d, ?_, ?_⟩
  · rw [← hpos]
    exact hword
  · rw [← hpos]

/-- A node that is ahead, and not in the bucket at hand, is further ahead. -/
theorem Ahead.next {home fp d x : ℕ} (h : Ahead k cells home fp d x)
    (hne : words cells ((home + d) % 2 ^ k) = (d + 1) * kDistInc + fp →
      nodes cells ((home + d) % 2 ^ k) ≠ x) : Ahead k cells home fp (d + 1) x := by
  obtain ⟨dx, hle, hword, hnode⟩ := h
  rcases Nat.eq_or_lt_of_le hle with heq | hlt
  · subst heq
    exact absurd hnode (hne hword)
  · exact ⟨dx, hlt, hword, hnode⟩

/-- A node that is ahead keeps the word at hand from being lower than the carried one. -/
theorem Ahead.le_word {home fp d x : ℕ} (hw : Linked (2 ^ k) kDistInc (words cells))
    (h : Ahead k cells home fp d x) :
    (d + 1) * kDistInc + fp ≤ words cells ((home + d) % 2 ^ k) := by
  obtain ⟨dx, hle, hword, -⟩ := h
  exact hw.reach (Nat.two_pow_pos k) hword.ge d hle

theorem word_pos (d f : ℕ) : 0 < (d + 1) * kDistInc + f :=
  Nat.add_pos_left (Nat.mul_pos (Nat.succ_pos d) (by decide)) f

/-- Nodes with the hash have been compared already or are still ahead. -/
def Searched (t : Table τ) (H : ℕ → UInt64) (L : List ℕ) (key : τ.Key) (hash : UInt64) (k : ℕ)
    (cells : ℕ → Bucket) (home d : ℕ) : Prop :=
  ∀ x ∈ L, H x = hash → Differs t key x ∨ Ahead k cells home (fingerprint hash) d x

/-- The search goes on past a bucket, if a node in it that has the word looked for has another
key. -/
theorem Searched.next {home d : ℕ} (h : Searched t H L key hash k cells home d)
    (hdiffers : words cells ((home + d) % 2 ^ k) = (d + 1) * kDistInc + fingerprint hash →
      Differs t key (nodes cells ((home + d) % 2 ^ k))) :
    Searched t H L key hash k cells home (d + 1) := by
  intro x hx hxhash
  rcases h x hx hxhash with hdone | hahead
  · exact Or.inl hdone
  · by_cases hdiff : Differs t key x
    · exact Or.inl hdiff
    · exact Or.inr (hahead.next fun hword hxp => hdiff (hxp ▸ hdiffers hword))

/-- The search may stop at a word below the one looked for: a node still ahead would keep it
up. -/
theorem Searched.stop {home d : ℕ} (h : Searched t H L key hash k cells home d)
    (hw : Linked (2 ^ k) kDistInc (words cells))
    (hlt : words cells ((home + d) % 2 ^ k) < (d + 1) * kDistInc + fingerprint hash) :
    ∀ x ∈ L, H x = hash → Differs t key x := by
  intro x hx hxhash
  rcases h x hx hxhash with hdone | hahead
  · exact hdone
  · exact absurd (hahead.le_word hw) (not_le.mpr hlt)

/-- One round of the loop of `find_bucket`. It goes on only past an occupied bucket whose
word is not below the carried one. -/
theorem findBucketLoop_step (I : Indexed H L t k cells)
    (hlive : ∀ x ∈ L, (t.nodeAt x).storage.isSome) {home d fuel : ℕ} (hs : s.table = t)
    (hsearched : Searched t H L key hash k cells home d)
    (hnext : ∀ s' : Store τ, s'.table = t → Passes [.equal] s s' →
      (d + 1) * kDistInc + fingerprint hash ≤ words cells ((home + d) % 2 ^ k) →
      Searched t H L key hash k cells home (d + 1) →
      Action.Post U (findBucketLoop key fuel (addDist ((d + 1) * kDistInc + fingerprint hash))
        (nextBucket t.bucketCount ((home + d) % 2 ^ k))) s'
        (fun b s'' => Passes [.equal] s s'' ∧ Located t H L key hash b) (Throws [.equal] s)) :
    Action.Post U
      (findBucketLoop key (fuel + 1) ((d + 1) * kDistInc + fingerprint hash)
        ((home + d) % 2 ^ k)) s
      (fun b s' => Passes [.equal] s s' ∧ Located t H L key hash b) (Throws [.equal] s) := by
  subst hs
  have hp : (home + d) % 2 ^ k < 2 ^ k := Nat.mod_lt _ (Nat.two_pow_pos k)
  obtain ⟨array, harray, hsize, hcells⟩ := I.buckets
  unfold findBucketLoop
  rw [post_getTable]
  refine post_bucketAt (fun array' harray' _ => ?_) fun hout => ?_
  swap
  · have := hout array harray
    omega
  rw [harray] at harray'
  cases harray'
  rw [hcells]
  by_cases heq : (d + 1) * kDistInc + fingerprint hash =
      (cells ((home + d) % 2 ^ k)).distAndFingerprint
  · rw [if_pos heq]
    -- the bucket may be the one: its key is compared
    have hocc : words cells ((home + d) % 2 ^ k) ≠ 0 := by
      have hpos := word_pos d (fingerprint hash)
      unfold words
      omega
    have hmem : nodes cells ((home + d) % 2 ^ k) ∈ L := (I.holds _).mp ⟨_, hp, hocc, rfl⟩
    refine post_keyAt (fun el hel => ?_) fun hnone => ?_
    swap
    · have hsome := hlive _ hmem
      unfold nodes at hsome
      rw [hnone] at hsome
      cases hsome
    refine post_callKeyEqual (fun f hf => ?_) fun hpoint _ => Throws.here hpoint
    have hpass : Passes [.equal] s ⟨s.table, withFault s.heap f⟩ := hf.passes_self
    by_cases hsame : s.table.keyEqual key (τ.keyOf el.value) = true
    · rw [if_pos hsame]
      refine Action.Post.pure ⟨hpass, Or.inr ⟨_, hmem, ⟨el, hel, hsame⟩, ?_⟩⟩
      refine ⟨array, harray, by rw [hsize]; exact hp, ?_, by rw [hcells]; rfl⟩
      rw [hcells]
      exact hocc
    · rw [if_neg hsame]
      have hdiffers : Differs s.table key (nodes cells ((home + d) % 2 ^ k)) := by
        intro e' he'
        have heq' : some e' = some el := he'.symm.trans hel
        cases heq'
        exact Bool.eq_false_iff.mpr hsame
      exact hnext _ rfl hpass heq.le (hsearched.next fun _ => hdiffers)
  · rw [if_neg heq]
    by_cases hgt : (d + 1) * kDistInc + fingerprint hash >
        (cells ((home + d) % 2 ^ k)).distAndFingerprint
    · rw [if_pos hgt]
      -- the early exit
      exact Action.Post.pure ⟨Passes.refl _ _, Or.inl ⟨rfl, hsearched.stop I.layout.linked hgt⟩⟩
    · rw [if_neg hgt]
      exact hnext s rfl (Passes.refl _ _) (not_lt.mp hgt)
        (hsearched.next fun hword => absurd hword.symm heq)

/-- The loop of `find_bucket`, some buckets before an empty one. -/
theorem findBucketLoop_spec (key : τ.Key) (hash : UInt64) (I : Indexed H L t k cells)
    (hlive : ∀ x ∈ L, (t.nodeAt x).storage.isSome) (hroom : Roomy k cells) {e home : ℕ}
    (he : e < 2 ^ k) (hempty : words cells e = 0) :
    ∀ (j fuel d : ℕ) (s : Store τ), s.table = t → d < 2 ^ k →
      ((home + d) % 2 ^ k + j) % 2 ^ k = e → j < fuel →
      Fits (2 ^ k) kDistInc (words cells) ((home + d) % 2 ^ k)
        ((d + 1) * kDistInc + fingerprint hash) →
      Searched t H L key hash k cells home d →
      Action.Post U
        (findBucketLoop key fuel ((d + 1) * kDistInc + fingerprint hash) ((home + d) % 2 ^ k)) s
        (fun b s' => Passes [.equal] s s' ∧ Located t H L key hash b) (Throws [.equal] s) := by
  have hu : 0 < kDistInc := by decide
  have hp : ∀ d, (home + d) % 2 ^ k < 2 ^ k := fun d => Nat.mod_lt _ (Nat.two_pow_pos k)
  intro j
  induction j with
  | zero =>
      intro fuel d s hs hd hje hfuel hfit hsearched
      obtain ⟨fuel, rfl⟩ : ∃ n, fuel = n + 1 := ⟨fuel - 1, by omega⟩
      refine findBucketLoop_step I hlive hs hsearched fun s' _ _ hle _ => ?_
      -- the bucket is the empty one, whose word is below every other
      rw [Nat.add_zero, Nat.mod_eq_of_lt (hp d)] at hje
      rw [hje, hempty] at hle
      have hpos := word_pos d (fingerprint hash)
      omega
  | succ j ih =>
      intro fuel d s hs hd hje hfuel hfit hsearched
      obtain ⟨fuel, rfl⟩ : ∃ n, fuel = n + 1 := ⟨fuel - 1, by omega⟩
      refine findBucketLoop_step I hlive hs hsearched fun s' hs' hpass hle hsearched' => ?_
      have hocc : words cells ((home + d) % 2 ^ k) ≠ 0 := by
        have hpos := word_pos d (fingerprint hash)
        omega
      have hseat : Seat (2 ^ k) kDistInc (fun _ : Unit => home) (fun _ => fingerprint hash)
          ((home + d) % 2 ^ k) ((d + 1) * kDistInc + fingerprint hash) () := ⟨d, hd, rfl, rfl⟩
      obtain ⟨⟨d', hd', hword', -⟩, hbound⟩ :=
        I.layout.linked.carry hu he hempty hseat hfit hocc
      have hd1 : d + 1 < 2 ^ k := by
        have h256 : kDistInc = 256 := rfl
        simp only [h256] at hword'
        omega
      have hmul : (d + 1) * kDistInc + fingerprint hash + kDistInc =
          (d + 1 + 1) * kDistInc + fingerprint hash := by ring
      have hfit' := Fits.next (u := kDistInc) (hp d) hle
      rw [succ_add_mod, hmul] at hfit'
      rw [addDist_eq (hroom.lt (fingerprint_lt hash) hbound), hmul, I.bucketCount,
        nextBucket_eq, succ_add_mod]
      have hje' : ((home + (d + 1)) % 2 ^ k + j) % 2 ^ k = e := by
        rw [← succ_add_mod]
        exact steps_left hje
      refine (ih fuel (d + 1) s' hs' hd1 hje' (by omega) hfit' hsearched').mono ?_ ?_
        fun _ h => h
      · exact fun b s'' h => ⟨hpass.trans h.1, h.2⟩
      · exact fun s'' h => hpass.throws h

/-! ## The index in order -/

/-- The table has no bucket array and no nodes, or its bucket array is a layout of the nodes
in `L`, with a bucket to spare and a growth threshold below the bucket count. -/
def IndexInOrder (H : ℕ → UInt64) (L : List ℕ) (t : Table τ) : Prop :=
  (t.buckets = none ∧ t.bucketCount = 0 ∧ L = []) ∨
    ∃ k cells, Indexed H L t k cells ∧ L.length < 2 ^ k ∧ t.maxLoadCapacity < 2 ^ k

/-- Without buckets there are no nodes. -/
theorem IndexInOrder.eq_nil (h : IndexInOrder H L t) (hzero : t.bucketCount = 0) : L = [] := by
  rcases h with ⟨-, -, hL⟩ | ⟨k, cells, I, -, -⟩
  · exact hL
  · exact absurd hzero I.bucketCount_ne_zero

/-- `find_bucket` on an index in order. -/
theorem findBucket_spec (h : IndexInOrder H L s.table) (hL : L.Nodup)
    (hlive : ∀ x ∈ L, (s.table.nodeAt x).storage.isSome) (hroom : L.length + 2 ≤ 2 ^ 24) :
    Action.Post U (findBucket key hash) s
      (fun b s' => Passes [.equal] s s' ∧ Located s.table H L key hash b)
      (Throws [.equal] s) := by
  unfold findBucket
  rw [post_getTable]
  rcases h with ⟨-, hcount, rfl⟩ | ⟨k, cells, I, hlt, -⟩
  · rw [if_pos hcount]
    exact Action.Post.pure ⟨Passes.refl _ _, Or.inl ⟨rfl, fun x hx => by cases hx⟩⟩
  · have hne := I.bucketCount_ne_zero
    rw [if_neg hne, I.bucketCount, I.homeFromHash, distAndFingerprintFromHash_eq]
    obtain ⟨e, he, hempty⟩ := I.exists_empty hL hlt
    obtain ⟨j, hj, hje⟩ := exists_steps (hash.toNat >>> (64 - countrZero (2 ^ k))) he
    have hlt' := shiftRight_lt k hash
    have hmod : (hash.toNat >>> (64 - countrZero (2 ^ k)) + 0) % 2 ^ k =
        hash.toNat >>> (64 - countrZero (2 ^ k)) := Nat.mod_eq_of_lt hlt'
    have hspec := findBucketLoop_spec (U := U) key hash I hlive
      (I.roomy hL hroom) he hempty j
      (loopFuel (2 ^ k)) 0 s rfl (Nat.two_pow_pos k) (by rw [hmod]; exact hje) (lt_loopFuel hj)
      (by rw [zero_add, one_mul, ← distAndFingerprintFromHash_eq]; exact home_fits cells _ _) ?_
    · rw [hmod, zero_add, one_mul] at hspec
      exact hspec
    · intro x hx hxhash
      refine Or.inr ?_
      have hahead := I.ahead hx
      unfold homeOf fpOf at hahead
      rwa [hxhash] at hahead

end Fum.Analysis
