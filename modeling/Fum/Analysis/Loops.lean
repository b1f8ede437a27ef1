import Fum.Base.Layout
import Fum.Model.Probe

/-!
# The loops over the bucket array

Each loop of the Robin Hood core read against the layout library: the unit of a word
is `kDistInc`, the fingerprint is its low byte, the item in a bucket is its node. A
loop that starts `j` buckets before an empty one ends within `j + 1` steps, and no word
it computes leaves 32 bits while fewer than `2 ^ 24 - 1` buckets are occupied.
-/

set_option autoImplicit false

namespace Fum.Analysis

open Fum.Model RobinHood

/-! ## Words and nodes -/

/-- The packed words of an array of buckets. -/
def words (cells : ℕ → Bucket) (p : ℕ) : ℕ := (cells p).distAndFingerprint

/-- The nodes of an array of buckets. -/
def nodes (cells : ℕ → Bucket) (p : ℕ) : ℕ := (cells p).nodeIndex

theorem kDistInc_eq : kDistInc = 256 := rfl

theorem words_update (cells : ℕ → Bucket) (p c x : ℕ) :
    words (Function.update cells p ⟨c, x⟩) = Function.update (words cells) p c := by
  funext q
  by_cases h : q = p
  · subst h
    simp [words]
  · simp [words, h]

theorem nodes_update (cells : ℕ → Bucket) (p c x : ℕ) :
    nodes (Function.update cells p ⟨c, x⟩) = Function.update (nodes cells) p x := by
  funext q
  by_cases h : q = p
  · subst h
    simp [nodes]
  · simp [nodes, h]

/-- To write an occupied bucket leaves the empty one empty. -/
theorem words_update_of_occupied {cells : ℕ → Bucket} {p e : ℕ} (hocc : words cells p ≠ 0)
    (hempty : words cells e = 0) (c x : ℕ) :
    words (Function.update cells p ⟨c, x⟩) e = 0 := by
  have hpe : e ≠ p := by
    rintro rfl
    exact hocc hempty
  rwa [words_update, Function.update_of_ne hpe]

/-- The index mask is the cyclic successor, for a power of two. -/
theorem nextBucket_eq (k p : ℕ) : nextBucket (2 ^ k) p = succ (2 ^ k) p :=
  Nat.and_two_pow_sub_one_eq_mod (p + 1) k

/-- A word below the last unit does not wrap. -/
theorem addDist_eq {c : ℕ} (h : c + kDistInc < 2 ^ 32) : addDist c = c + kDistInc :=
  Nat.mod_eq_of_lt h

/-- The fingerprint of a hash. -/
def fingerprint (hash : UInt64) : ℕ := hash.toNat % kDistInc

theorem fingerprint_lt (hash : UInt64) : fingerprint hash < kDistInc :=
  Nat.mod_lt _ (by decide)

/-- The word of a node in its home bucket. -/
theorem distAndFingerprintFromHash_eq (hash : UInt64) :
    distAndFingerprintFromHash hash = kDistInc + fingerprint hash := by
  have hmask : hash.toNat &&& kFingerprintMask = fingerprint hash :=
    Nat.and_two_pow_sub_one_eq_mod hash.toNat 8
  have hor := Nat.two_pow_add_eq_or_of_lt (i := 8) (b := fingerprint hash)
    (fingerprint_lt hash) 1
  unfold distAndFingerprintFromHash
  rw [hmask]
  simpa [kDistInc_eq] using hor.symm

/-! ## Layouts of buckets -/

section

variable {k p e : ℕ} {home fp : ℕ → ℕ} {cells : ℕ → Bucket}

/-- A layout of the nodes in an array of `2 ^ k` buckets. -/
abbrev BucketLayout (k : ℕ) (home fp : ℕ → ℕ) (cells : ℕ → Bucket) : Prop :=
  Layout (2 ^ k) kDistInc home fp (words cells) (nodes cells)

/-- The node sits in a bucket. -/
abbrev InBucket (k : ℕ) (cells : ℕ → Bucket) (x : ℕ) : Prop :=
  Holds (2 ^ k) (words cells) (nodes cells) x

/-- The words stay clear of `2 ^ 32`. -/
def Roomy (k : ℕ) (cells : ℕ → Bucket) : Prop :=
  (occupied (2 ^ k) (words cells)).card + 2 ≤ 2 ^ 24

/-- A word within the bound of the carry lemma can take one more unit. -/
theorem Roomy.lt {cells : ℕ → Bucket} (h : Roomy k cells) {c f : ℕ} (hf : f < kDistInc)
    (hc : c ≤ ((occupied (2 ^ k) (words cells)).card + 1) * kDistInc + f) : c < 2 ^ 32 := by
  unfold Roomy at h
  rw [kDistInc_eq] at hf hc
  omega

/-- An index before an empty bucket that is not itself empty has one step less to go. -/
theorem steps_left {N p e j : ℕ} (h : (p + (j + 1)) % N = e) : (succ N p + j) % N = e := by
  unfold succ
  rw [Nat.mod_add_mod, ← h]
  congr 1
  omega

theorem two_le_two_pow {k : ℕ} (hk : 3 ≤ k) : 8 ≤ 2 ^ k := by
  calc 8 = 2 ^ 3 := rfl
    _ ≤ 2 ^ k := Nat.pow_le_pow_right (by decide) hk

/-- The loop of `probe_start` stops at the first bucket whose word is not above the
carried one, which is a seat for the node. -/
theorem probeStartLoop_spec (L : BucketLayout k home fp cells) (hfp : ∀ x, fp x < kDistInc)
    (he : e < 2 ^ k) (hempty : words cells e = 0) (hroom : Roomy k cells) {x : ℕ} :
    ∀ (j fuel p c : ℕ), p < 2 ^ k → (p + j) % 2 ^ k = e → j < fuel →
      Seat (2 ^ k) kDistInc home fp p c x → Fits (2 ^ k) kDistInc (words cells) p c →
      ∃ c' p', probeStartLoop (2 ^ k) cells fuel c p = some (c', p') ∧ p' < 2 ^ k ∧
        Seat (2 ^ k) kDistInc home fp p' c' x ∧ Fits (2 ^ k) kDistInc (words cells) p' c' ∧
        words cells p' ≤ c' := by
  have hu : 0 < kDistInc := by decide
  intro j
  induction j with
  | zero =>
      intro fuel p c hp hje hfuel hseat hfit
      obtain ⟨fuel, rfl⟩ : ∃ n, fuel = n + 1 := ⟨fuel - 1, by omega⟩
      have hpe : p = e := by rwa [Nat.add_zero, Nat.mod_eq_of_lt hp] at hje
      have hle : ¬ c < (cells p).distAndFingerprint := by
        have : (cells p).distAndFingerprint = 0 := by rw [hpe]; exact hempty
        omega
      refine ⟨c, p, ?_, hp, hseat, hfit, not_lt.mp hle⟩
      rw [probeStartLoop, if_neg hle]
  | succ j ih =>
      intro fuel p c hp hje hfuel hseat hfit
      obtain ⟨fuel, rfl⟩ : ∃ n, fuel = n + 1 := ⟨fuel - 1, by omega⟩
      by_cases hlt : c < (cells p).distAndFingerprint
      · have hocc : words cells p ≠ 0 := by
          unfold words
          omega
        obtain ⟨hseat', hbound⟩ := L.linked.carry hu he hempty hseat hfit hocc
        have hadd := addDist_eq (hroom.lt (hfp x) hbound)
        rw [probeStartLoop, if_pos hlt, hadd, nextBucket_eq]
        exact ih fuel _ _ (succ_lt (by omega) p) (steps_left hje) (by omega) hseat'
          (Fits.next hp (le_of_lt hlt))
      · refine ⟨c, p, ?_, hp, hseat, hfit, not_lt.mp hlt⟩
        rw [probeStartLoop, if_neg hlt]

/-- In an empty bucket the loop of `place_and_shift_up` ends with the node in it. -/
theorem placeLoop_empty (hk : 3 ≤ k) {c x : ℕ} (fuel : ℕ) (L : BucketLayout k home fp cells)
    (hp : p < 2 ^ k) (h0 : words cells p = 0)
    (hseat : Seat (2 ^ k) kDistInc home fp p c x)
    (hfit : Fits (2 ^ k) kDistInc (words cells) p c) (hx : ¬ InBucket k cells x) :
    ∃ cells', placeLoop (2 ^ k) (fuel + 1) cells c p x = some cells' ∧
      BucketLayout k home fp cells' ∧
      ∀ y, InBucket k cells' y ↔ InBucket k cells y ∨ y = x := by
  have h8 := two_le_two_pow hk
  have hcpos : 0 < c := Nat.lt_of_lt_of_le (by decide) hseat.unit_le
  refine ⟨Function.update cells p ⟨c, x⟩, ?_, ?_, fun y => ?_⟩
  · have h0' : ¬ (cells p).distAndFingerprint ≠ 0 := not_not.mpr h0
    rw [placeLoop, if_neg h0']
  · unfold BucketLayout
    rw [words_update, nodes_update]
    exact L.place (by omega) hp hseat hfit (by omega) hx
  · unfold InBucket
    rw [words_update, nodes_update, L.holds_place hp (by omega)]
    constructor
    · rintro (h | h)
      · exact Or.inr h
      · exact Or.inl h.1
    · rintro (h | h)
      · exact Or.inr ⟨h, fun h' => absurd h0 h'⟩
      · exact Or.inl h

/-- What one swap of `place_and_shift_up` leaves: the array holds the carried node in
place of the resident, which is carried on with a seat in the next bucket. -/
theorem swap_spec (hk : 3 ≤ k) {c x : ℕ} (L : BucketLayout k home fp cells)
    (hp : p < 2 ^ k) (hocc : words cells p ≠ 0) (hle : words cells p ≤ c) (hroom : Roomy k cells)
    (hseat : Seat (2 ^ k) kDistInc home fp p c x)
    (hfit : Fits (2 ^ k) kDistInc (words cells) p c) (hx : ¬ InBucket k cells x) :
    BucketLayout k home fp (Function.update cells p ⟨c, x⟩) ∧
      Roomy k (Function.update cells p ⟨c, x⟩) ∧
      ¬ InBucket k (Function.update cells p ⟨c, x⟩) (nodes cells p) ∧
      (∀ y, InBucket k (Function.update cells p ⟨c, x⟩) y ∨ y = nodes cells p ↔
        InBucket k cells y ∨ y = x) ∧
      Fits (2 ^ k) kDistInc (words (Function.update cells p ⟨c, x⟩)) (succ (2 ^ k) p)
        (words cells p + kDistInc) := by
  have h8 := two_le_two_pow hk
  have hcpos : c ≠ 0 := by omega
  have hholds : ∀ y, InBucket k (Function.update cells p ⟨c, x⟩) y ↔
      y = x ∨ InBucket k cells y ∧ (words cells p ≠ 0 → y ≠ nodes cells p) := by
    intro y
    unfold InBucket
    rw [words_update, nodes_update]
    exact L.holds_place hp hcpos
  refine ⟨?_, ?_, ?_, fun y => ?_, ?_⟩
  · unfold BucketLayout
    rw [words_update, nodes_update]
    exact L.place (by omega) hp hseat hfit hle hx
  · have hsame : occupied (2 ^ k) (Function.update (words cells) p c) =
        occupied (2 ^ k) (words cells) := by
      ext q
      rw [mem_occupied, mem_occupied]
      by_cases hqp : q = p
      · subst hqp
        simp [hocc, hcpos]
      · rw [Function.update_of_ne hqp]
    unfold Roomy
    rw [words_update, hsame]
    exact hroom
  · rw [hholds]
    rintro (heq | ⟨-, hne⟩)
    · exact hx ⟨p, hp, hocc, heq⟩
    · exact hne hocc rfl
  · rw [hholds]
    constructor
    · rintro ((h | h) | h)
      · exact Or.inr h
      · exact Or.inl h.1
      · exact Or.inl ⟨p, hp, hocc, h.symm⟩
    · rintro (h | h)
      · by_cases hy : y = nodes cells p
        · exact Or.inr hy
        · exact Or.inl (Or.inr ⟨h, fun _ => hy⟩)
      · exact Or.inl (Or.inl h)
  · refine Fits.next hp ?_
    rw [words_update, Function.update_self]
    exact hle

/-- The loop of `place_and_shift_up` adds the node it starts with and keeps the nodes
it meets. The induction is on the buckets left before the empty one; the node in hand
changes at every swap. -/
theorem placeLoop_spec (hk : 3 ≤ k) (hfp : ∀ x, fp x < kDistInc) (he : e < 2 ^ k) :
    ∀ (j fuel : ℕ) (cells : ℕ → Bucket) (p c x : ℕ), BucketLayout k home fp cells →
      words cells e = 0 → Roomy k cells → p < 2 ^ k → (p + j) % 2 ^ k = e → j < fuel →
      Seat (2 ^ k) kDistInc home fp p c x → Fits (2 ^ k) kDistInc (words cells) p c →
      ¬ InBucket k cells x →
      ∃ cells', placeLoop (2 ^ k) fuel cells c p x = some cells' ∧
        BucketLayout k home fp cells' ∧
        ∀ y, InBucket k cells' y ↔ InBucket k cells y ∨ y = x := by
  have hu : 0 < kDistInc := by decide
  have h8 := two_le_two_pow hk
  intro j
  induction j with
  | zero =>
      intro fuel cells p c x L hempty hroom hp hje hfuel hseat hfit hx
      obtain ⟨fuel, rfl⟩ : ∃ n, fuel = n + 1 := ⟨fuel - 1, by omega⟩
      have hpe : p = e := by rwa [Nat.add_zero, Nat.mod_eq_of_lt hp] at hje
      exact placeLoop_empty hk fuel L hp (hpe ▸ hempty) hseat hfit hx
  | succ j ih =>
      intro fuel cells p c x L hempty hroom hp hje hfuel hseat hfit hx
      obtain ⟨fuel, rfl⟩ : ∃ n, fuel = n + 1 := ⟨fuel - 1, by omega⟩
      by_cases hocc : words cells p = 0
      · exact placeLoop_empty hk fuel L hp hocc hseat hfit hx
      have hbranch : (cells p).distAndFingerprint ≠ 0 := hocc
      have hsucc := succ_lt (show 0 < 2 ^ k by omega) p
      by_cases hgt : c > (cells p).distAndFingerprint
      · -- the resident is nearer to its home: it leaves the bucket and is carried on
        obtain ⟨hseat', hbound⟩ := L.linked.carry hu he hempty (L.seated p hp hocc)
          (L.linked p hp) hocc
        have hadd : addDist (cells p).distAndFingerprint = words cells p + kDistInc :=
          addDist_eq (hroom.lt (hfp _) hbound)
        obtain ⟨L', hroom', hnode, hmem, hfit'⟩ :=
          swap_spec hk L hp hocc (le_of_lt hgt) hroom hseat hfit hx
        have hempty' := words_update_of_occupied hocc hempty c x
        obtain ⟨cells', hrun, hlay, hmem'⟩ := ih fuel _ (succ (2 ^ k) p)
          (words cells p + kDistInc) (nodes cells p) L' hempty' hroom' hsucc
          (steps_left hje) (by omega) hseat' hfit' hnode
        refine ⟨cells', ?_, hlay, fun y => (hmem' y).trans (hmem y)⟩
        rw [placeLoop, if_pos hbranch, if_pos hgt, nextBucket_eq, hadd]
        exact hrun
      · obtain ⟨hseat', hbound⟩ := L.linked.carry hu he hempty hseat hfit hocc
        have hadd := addDist_eq (hroom.lt (hfp x) hbound)
        obtain ⟨cells', hrun, hlay, hmem⟩ := ih fuel cells (succ (2 ^ k) p)
          (c + kDistInc) x L hempty hroom hsucc (steps_left hje) (by omega) hseat'
          (Fits.next hp (not_lt.mp hgt)) hx
        refine ⟨cells', ?_, hlay, hmem⟩
        rw [placeLoop, if_pos hbranch, if_neg hgt, nextBucket_eq, hadd]
        exact hrun

/-- The loop of `erase_bucket` moves the gap up to a bucket whose successor is at home or
empty, and closes it there. -/
theorem eraseLoop_spec (hk : 3 ≤ k) (hfp : ∀ x, fp x < kDistInc) :
    ∀ (j fuel : ℕ) (cells : ℕ → Bucket) (p : ℕ),
      Gap (2 ^ k) kDistInc home fp (words cells) (nodes cells) p → words cells e = 0 →
      p < 2 ^ k → p ≠ e → (p + (j + 1)) % 2 ^ k = e → j < fuel →
      ∃ cells', eraseLoop (2 ^ k) fuel cells p (succ (2 ^ k) p) = some cells' ∧
        BucketLayout k home fp cells' ∧
        ∀ y, InBucket k cells' y ↔ HoldsBut (2 ^ k) (words cells) (nodes cells) p y := by
  have hu : 0 < kDistInc := by decide
  have h8 := two_le_two_pow hk
  have hclose : ∀ (fuel : ℕ) (cells : ℕ → Bucket) (p : ℕ),
      Gap (2 ^ k) kDistInc home fp (words cells) (nodes cells) p →
      ¬ (cells (succ (2 ^ k) p)).distAndFingerprint ≥ 2 * kDistInc →
      ∃ cells', eraseLoop (2 ^ k) (fuel + 1) cells p (succ (2 ^ k) p) = some cells' ∧
        BucketLayout k home fp cells' ∧
        ∀ y, InBucket k cells' y ↔ HoldsBut (2 ^ k) (words cells) (nodes cells) p y := by
    intro fuel cells p G hlow
    refine ⟨Function.update cells p ⟨0, kNullIndex⟩, ?_, ?_, fun y => ?_⟩
    · rw [eraseLoop, if_neg hlow]
    · unfold BucketLayout
      rw [words_update, nodes_update]
      exact G.close hu (not_le.mp hlow) _
    · unfold InBucket
      rw [words_update, nodes_update]
      exact Gap.holds_close
  intro j
  induction j with
  | zero =>
      intro fuel cells p G hempty hp hpe hje hfuel
      obtain ⟨fuel, rfl⟩ : ∃ n, fuel = n + 1 := ⟨fuel - 1, by omega⟩
      have hnext : succ (2 ^ k) p = e := hje
      refine hclose fuel cells p G ?_
      have h0 : (cells (succ (2 ^ k) p)).distAndFingerprint = 0 := by
        rw [hnext]
        exact hempty
      rw [h0]
      decide
  | succ j ih =>
      intro fuel cells p G hempty hp hpe hje hfuel
      obtain ⟨fuel, rfl⟩ : ∃ n, fuel = n + 1 := ⟨fuel - 1, by omega⟩
      by_cases hnext : (cells (succ (2 ^ k) p)).distAndFingerprint ≥ 2 * kDistInc
      · have hsucc := succ_lt (show 0 < 2 ^ k by omega) p
        have hwords : 2 * kDistInc ≤ words cells (succ (2 ^ k) p) := hnext
        have hne : succ (2 ^ k) p ≠ e := by
          intro h
          rw [h, hempty, kDistInc_eq] at hwords
          omega
        have G' := G.shift (show 3 ≤ 2 ^ k by omega) hp hfp hwords
        rw [← words_update, ← nodes_update] at G'
        have hempty' : words (Function.update cells p
            ⟨words cells (succ (2 ^ k) p) - kDistInc, nodes cells (succ (2 ^ k) p)⟩) e = 0 := by
          rwa [words_update, Function.update_of_ne (Ne.symm hpe)]
        obtain ⟨cells', hrun, hlay, hmem⟩ := ih fuel _ _ G' hempty' hsucc hne
          (steps_left hje) (by omega)
        refine ⟨cells', ?_, hlay, fun y => ?_⟩
        · rw [eraseLoop, if_pos hnext, nextBucket_eq]
          exact hrun
        · rw [hmem, words_update, nodes_update]
          exact Gap.holds_shift (by omega) hp hu hwords
      · exact hclose fuel cells p G hnext

end

end Fum.Analysis
