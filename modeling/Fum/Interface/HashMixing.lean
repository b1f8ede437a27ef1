import Fum.Base.Mixing
import Fum.Model.Instances

/-!
# The mixing of a hash

The hash of a key is mixed before its bits are shared out between the home bucket and the
fingerprint. The rounds of `mix_bits` permute the words of 64 bits, so keys that the hasher
tells apart are still told apart by their mixed hashes.
-/

set_option autoImplicit false

namespace Fum.Interface

open Fum.Model Mixing Function

/-- The rounds of `mix_bits`. -/
def mixRounds : List (Round 64) :=
  [.xorShift 33 (by decide), .multiply 0xff51afd7ed558ccd (by decide),
    .xorShift 33 (by decide), .multiply 0xc4ceb9fe1a85ec53 (by decide),
    .xorShift 33 (by decide)]

theorem toBitVec_mixBits (value : UInt64) :
    (mixBits value).toBitVec = mix mixRounds value.toBitVec := by
  have hround : ∀ x : UInt64, (x ^^^ (x >>> 33)).toBitVec = x.toBitVec ^^^ (x.toBitVec >>> 33) :=
    fun x => rfl
  simp only [mixBits, hround, UInt64.toBitVec_mul]
  rfl

/-- `mix_bits` is a permutation. -/
theorem mixBits_bijective : Bijective mixBits := by
  have hmix : UInt64.toBitVec ∘ mixBits = mix mixRounds ∘ UInt64.toBitVec :=
    funext toBitVec_mixBits
  have hword : Bijective UInt64.toBitVec :=
    ⟨fun _ _ h => UInt64.toBitVec_inj.mp h, fun b => ⟨UInt64.ofBitVec b, rfl⟩⟩
  apply (Bijective.of_comp_iff' hword mixBits).mp
  rw [hmix]
  exact (mix_bijective mixRounds).comp hword

/-- Mixed hashes are equal where the hashes are, whether or not there is mixing. -/
theorem mixedHash_eq_iff {τ : Traits} (t : Table τ) (a b : τ.Key) :
    t.mixedHash a = t.mixedHash b ↔ t.hashFunction a = t.hashFunction b := by
  unfold Table.mixedHash
  cases τ.isAvalanching with
  | true => exact Iff.rfl
  | false => exact mixBits_bijective.injective.eq_iff

/-- Mixing loses nothing: `mix_bits` maps different words to different words and reaches all
of them, so under a hasher that is not avalanching two keys have one mixed hash exactly if
the hasher gives them one hash. -/
theorem mixing_loses_nothing :
    (∀ x y, mixBits x = mixBits y → x = y) ∧ (∀ z, ∃ x, mixBits x = z) ∧
      ∀ (τ : Traits) (t : Table τ), τ.isAvalanching = false → ∀ a b : τ.Key,
        t.mixedHash a = t.mixedHash b ↔ t.hashFunction a = t.hashFunction b :=
  ⟨mixBits_bijective.injective, mixBits_bijective.surjective,
    fun _ t _ a b => mixedHash_eq_iff t a b⟩

/-- A map from naturals that are hashed modulo 2 ^ 64. -/
def wordTable : Table NatMap :=
  Table.initial (kDefaultMaxLoadFactor _) (fun k : ℕ => UInt64.ofNat k) (fun a b : ℕ => a == b) ()

theorem mixing_loses_nothing_words :
    wordTable.mixedHash (2 ^ 64 + 7 : ℕ) = wordTable.mixedHash (7 : ℕ) ∧
      wordTable.mixedHash (7 : ℕ) ≠ wordTable.mixedHash (8 : ℕ) :=
  have hiff := mixing_loses_nothing.2.2 NatMap wordTable rfl
  ⟨(hiff (2 ^ 64 + 7 : ℕ) (7 : ℕ)).mpr (by decide), mt (hiff (7 : ℕ) (8 : ℕ)).mp (by decide)⟩

end Fum.Interface
