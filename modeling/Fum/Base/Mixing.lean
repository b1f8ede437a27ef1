import Mathlib.Data.BitVec
import Mathlib.Data.Fintype.Card
import Mathlib.Data.Nat.ModEq
import Mathlib.Data.Nat.Prime.Basic

/-!
# Rounds that mix a word

The finaliser of a hash function spreads the bits of a word in rounds of two kinds: an
exclusive or with the word shifted right, and a multiplication. A round with a shift of
zero or an even factor would lose bits, and there is no such round here. Whatever its
shifts and factors, a sequence of rounds permutes the words.
-/

set_option autoImplicit false

namespace Mixing

open Function

variable {w : ℕ}

/-- A round on words of `w` bits. -/
inductive Round (w : ℕ) where
  /-- `x ^= x >> shift`. -/
  | xorShift (shift : ℕ) (pos : 0 < shift)
  /-- `x *= factor`. -/
  | multiply (factor : BitVec w) (odd : factor.toNat % 2 = 1)

def Round.apply : Round w → BitVec w → BitVec w
  | .xorShift shift _, x => x ^^^ (x >>> shift)
  | .multiply factor _, x => x * factor

/-- The rounds one after another. -/
def mix (rounds : List (Round w)) (x : BitVec w) : BitVec w :=
  rounds.foldl (fun x round => round.apply x) x

/-! ## Single rounds -/

/-- Only zero is its own right shift. -/
theorem eq_zero_of_shiftRight_eq {x : BitVec w} {shift : ℕ} (pos : 0 < shift)
    (h : x = x >>> shift) : x = 0#w := by
  have hdiv : x.toNat = x.toNat / 2 ^ shift := by
    rw [← Nat.shiftRight_eq_div_pow, ← BitVec.toNat_ushiftRight, ← h]
  have htwo : 1 < 2 ^ shift := Nat.one_lt_two_pow pos.ne'
  apply BitVec.eq_of_toNat_eq
  by_contra hne
  have hlt := Nat.div_lt_self (Nat.pos_of_ne_zero hne) htwo
  omega

/-- The difference of two words with one image is its own right shift. -/
theorem xorShift_injective {shift : ℕ} (pos : 0 < shift) :
    Injective fun x : BitVec w => x ^^^ (x >>> shift) := by
  intro x y h
  have hxor : (x ^^^ y) ^^^ ((x ^^^ y) >>> shift) = 0#w := by
    calc (x ^^^ y) ^^^ ((x ^^^ y) >>> shift)
        = (x ^^^ (x >>> shift)) ^^^ (y ^^^ (y >>> shift)) := by
          rw [BitVec.ushiftRight_xor_distrib]
          ac_rfl
      _ = 0#w := BitVec.xor_eq_zero_iff.mpr h
  apply BitVec.xor_eq_zero_iff.mp
  exact eq_zero_of_shiftRight_eq pos (BitVec.xor_eq_zero_iff.mp hxor)

/-- An odd factor is prime to the modulus. -/
theorem multiply_injective {factor : BitVec w} (odd : factor.toNat % 2 = 1) :
    Injective fun x : BitVec w => x * factor := by
  intro x y h
  have hcoprime : (2 ^ w).gcd factor.toNat = 1 :=
    Nat.Coprime.pow_left w (Nat.coprime_two_left.mpr (Nat.odd_iff.mpr odd))
  have hmod : x.toNat * factor.toNat ≡ y.toNat * factor.toNat [MOD 2 ^ w] := by
    have hnat := congrArg BitVec.toNat h
    rwa [BitVec.toNat_mul, BitVec.toNat_mul] at hnat
  have hcancel := hmod.cancel_right_of_coprime hcoprime
  apply BitVec.eq_of_toNat_eq
  rwa [Nat.ModEq, Nat.mod_eq_of_lt x.isLt, Nat.mod_eq_of_lt y.isLt] at hcancel

theorem Round.injective (round : Round w) : Injective round.apply := by
  cases round with
  | xorShift shift pos => exact xorShift_injective pos
  | multiply factor odd => exact multiply_injective odd

/-! ## Sequences of rounds -/

theorem mix_injective (rounds : List (Round w)) : Injective (mix rounds) := by
  induction rounds with
  | nil => exact injective_id
  | cons round rounds ih => exact ih.comp round.injective

/-- There are only so many words. -/
theorem mix_bijective (rounds : List (Round w)) : Bijective (mix rounds) := by
  have hfinite : Finite (BitVec w) := Finite.of_injective BitVec.toFin BitVec.toFin_injective
  exact Finite.injective_iff_bijective.mp (mix_injective rounds)

end Mixing
