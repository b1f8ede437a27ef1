import Fum.Analysis.Traces

/-!
# Sums that do not wrap

The loops over the bucket array add one unit to a packed word of 32 bits, and nothing checks
that it fits. Here it is asked for: of every round of a loop, also of one that never ends.
It holds where an empty bucket is left and fewer than `2 ^ 24 - 1` are occupied.
-/

set_option autoImplicit false

namespace Fum.Analysis

open Fum.Model Effects RobinHood

variable {τ : Traits} {k e n : ℕ} {cells : ℕ → Bucket} {t : Table τ} {array : BucketArray τ}

/-! ## What is asked for -/

/-- The first rounds of the loop of `probe_start` add without wrapping. -/
def ProbeStartFits (bucketCount : ℕ) (cells : ℕ → Bucket) : ℕ → ℕ → ℕ → Prop
  | 0, _, _ => True
  | fuel + 1, word, index =>
      word < (cells index).distAndFingerprint →
        word + kDistInc < 2 ^ 32 ∧
          ProbeStartFits bucketCount cells fuel (addDist word) (nextBucket bucketCount index)

/-- The first rounds of the loop of `place_and_shift_up` add without wrapping, and the word
in hand is never the one of an empty bucket. -/
def PlaceFits (bucketCount : ℕ) : ℕ → (ℕ → Bucket) → ℕ → ℕ → ℕ → Prop
  | 0, _, _, _, _ => True
  | fuel + 1, cells, word, index, node =>
      let resident := cells index
      word ≠ 0 ∧ (resident.distAndFingerprint ≠ 0 →
        if word > resident.distAndFingerprint then
          resident.distAndFingerprint + kDistInc < 2 ^ 32 ∧
            PlaceFits bucketCount fuel (Function.update cells index ⟨word, node⟩)
              (addDist resident.distAndFingerprint) (nextBucket bucketCount index)
              resident.nodeIndex
        else
          word + kDistInc < 2 ^ 32 ∧
            PlaceFits bucketCount fuel cells (addDist word) (nextBucket bucketCount index) node)

/-- The first rounds of the loop of `find_bucket` add without wrapping, and compare the key
with the one of a node only in an occupied bucket. -/
def FindBucketFits (key : τ.Key) : ℕ → ℕ → ℕ → Store τ → Prop
  | 0, _, _, _ => True
  | fuel + 1, word, index, s =>
      (∀ array, s.table.buckets = some array →
        word = (array.cells index).distAndFingerprint →
          (array.cells index).distAndFingerprint ≠ 0) ∧
      ∀ s', (findBucketRound key word index).run s = (.ok none, s') →
        word + kDistInc < 2 ^ 32 ∧
          FindBucketFits key fuel (addDist word) (nextBucket s.table.bucketCount index) s'

/-! ## Where it holds -/

section

/-- A word that keeps its value when a unit is added did not wrap. -/
theorem lt_of_addDist {a : ℕ} (h : addDist a = a + kDistInc) : a + kDistInc < 2 ^ 32 := by
  rw [← h]
  exact Nat.mod_lt _ (by decide)

variable (he : e < 2 ^ k)

include he

/-- With an empty bucket the loop of `probe_start` adds below the word of its bucket. -/
theorem probeStartFits (W : BucketWords k cells) (hempty : words cells e = 0)
    (hroom : Roomy k cells) :
    ∀ fuel p c : ℕ, p < 2 ^ k → Ranged (2 ^ k) kDistInc c →
      Fits (2 ^ k) kDistInc (words cells) p c → ProbeStartFits (2 ^ k) cells fuel c p := by
  intro fuel
  induction fuel with
  | zero =>
      intro p c hp hc hfit
      trivial
  | succ fuel ih =>
      intro p c hp hc hfit hlt
      have hlt' : c < words cells p := hlt
      obtain ⟨hadd, hc'⟩ := W.addDist he hempty hroom hp hc hfit (by omega)
      rw [hadd, nextBucket_eq]
      exact ⟨lt_of_addDist hadd, ih _ _ (succ_lt (by omega) p) hc' (Fits.next hp hlt'.le)⟩

/-- With an empty bucket the loop of `place_and_shift_up` adds to words that fit before an
occupied one, whether it swaps or not. -/
theorem placeFits (hk : 3 ≤ k) :
    ∀ (fuel : ℕ) (cells : ℕ → Bucket) (p c x : ℕ), BucketWords k cells → words cells e = 0 →
      Roomy k cells → p < 2 ^ k → Ranged (2 ^ k) kDistInc c →
      Fits (2 ^ k) kDistInc (words cells) p c → PlaceFits (2 ^ k) fuel cells c p x := by
  intro fuel
  induction fuel with
  | zero =>
      intro cells p c x W hempty hroom hp hc hfit
      trivial
  | succ fuel ih =>
      intro cells p c x W hempty hroom hp hc hfit
      have hpos : 0 < c := Nat.lt_of_lt_of_le (by decide) hc.1
      have hsucc := succ_lt (Nat.two_pow_pos k) p
      refine ⟨hpos.ne', fun hocc => ?_⟩
      rw [nextBucket_eq]
      split
      · next hgt =>
          -- the resident's word is carried on
          obtain ⟨hadd, hc'⟩ :=
            W.addDist he hempty hroom hp (W.ranged p hp hocc) (W.linked p hp) hocc
          obtain ⟨W', hsame, hfit'⟩ := W.swap hk hp x hc hfit hocc hgt
          have hadd' : addDist (cells p).distAndFingerprint = words cells p + kDistInc := hadd
          have hempty' := words_update_of_occupied hocc hempty c x
          have hroom' : Roomy k (Function.update cells p ⟨c, x⟩) := by
            unfold Roomy
            rwa [hsame]
          refine ⟨lt_of_addDist hadd', ?_⟩
          rw [hadd']
          exact ih _ _ _ _ W' hempty' hroom' hsucc hc' hfit'
      · next hgt =>
          obtain ⟨hadd, hc'⟩ := W.addDist he hempty hroom hp hc hfit hocc
          refine ⟨lt_of_addDist hadd, ?_⟩
          rw [hadd]
          exact ih _ _ _ _ W hempty hroom hsucc hc' (Fits.next hp (not_lt.mp hgt))

/-- With an empty bucket the loop of `find_bucket` adds to words that fit before an occupied
one. -/
theorem findBucketFits (key : τ.Key) (hbuckets : t.buckets = some array)
    (h : Ordered n k t array) (hroom : n + 2 ≤ 2 ^ 24) (hempty : words array.cells e = 0) :
    ∀ (fuel p c : ℕ) (s : Store τ), s.table = t → p < 2 ^ k → Ranged (2 ^ k) kDistInc c →
      Fits (2 ^ k) kDistInc (words array.cells) p c → FindBucketFits key fuel c p s := by
  intro fuel
  induction fuel with
  | zero =>
      intro p c s hs hp hc hfit
      trivial
  | succ fuel ih =>
      intro p c s hs hp hc hfit
      have hpos : 0 < c := Nat.lt_of_lt_of_le (by decide) hc.1
      refine ⟨fun array' harray' heq => by omega, fun s' hround => ?_⟩
      obtain ⟨htable, hword⟩ := (findBucketRound_goes_on key c p s).ok_of_run hround rfl
      have hle := hword array (by rw [hs, hbuckets])
      obtain ⟨hadd, hc'⟩ := h.words.addDist he hempty (h.roomy hroom) hp hc hfit (by omega)
      rw [hadd, hs, h.bucketCount, nextBucket_eq]
      exact ⟨lt_of_addDist hadd,
        ih _ _ s' (htable.trans hs) (succ_lt (by omega) p) hc' (Fits.next hp hle)⟩

end

end Fum.Analysis
