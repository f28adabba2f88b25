import Mathlib
import Lox.Number

/-! # The sign of a number

A double is its bits, and the opposite number differs from it in the highest bit only. -/

namespace Lox.Number

open Float.Model (Format)
open Float.Model.UnpackedFloat

/-! ## Fields of bits -/

/-- Bits with another sign unpack to the opposite. -/
theorem unpack_neg {format : Format} {b c : BitVec format.numBits} (hs : unpackSign c = ~~~ unpackSign b)
    (he : unpackExponent c = unpackExponent b) (hm : unpackMantissa c = unpackMantissa b) :
    (unpack format b).neg = unpack format c := by
  have sign : Sign.ofBitVec (~~~ unpackSign b) = -Sign.ofBitVec (unpackSign b) := by
    rcases BitVec.eq_zero_or_eq_one (unpackSign b) with h | h <;> rw [h] <;> rfl
  unfold unpack
  simp only [hs, he, hm, sign]
  split
  · split <;> rfl
  · split
    · split <;> rfl
    · rfl

variable {w : UInt64}

theorem unpackMantissa_toNat : (@unpackMantissa Format.binary64 w.toBitVec).toNat = w.toNat % 2 ^ 52 := by
  simp [unpackMantissa, BitVec.extractLsb]

theorem unpackExponent_toNat :
    (@unpackExponent Format.binary64 w.toBitVec).toNat = w.toNat / 2 ^ 52 % 2 ^ 11 := by
  simp [unpackExponent, BitVec.extractLsb, Nat.shiftRight_eq_div_pow]

theorem unpackSign_toNat : (@unpackSign Format.binary64 w.toBitVec).toNat = w.toNat / 2 ^ 63 % 2 := by
  simp [unpackSign, BitVec.extractLsb, Nat.shiftRight_eq_div_pow]

/-! ## Finite numbers -/

open Lox.Decimal (infinityBits)

/-- Bits below those of infinity are the bits of a number. -/
theorem toBits_ofBits {n : Nat} (h : n < infinityBits) : (Float.ofBits (.ofNat n)).toBits = .ofNat n := by
  have small : n < 2047 * 2 ^ 52 := h
  have word : (UInt64.ofNat n).toNat = n := UInt64.toNat_ofNat_of_lt' (Nat.lt_trans h (by decide))
  have exponent := unpackExponent_toNat (w := .ofNat n)
  rw [word] at exponent
  -- only an exponent of all ones is for bits that are no number
  have valid : Format.binary64.Valid (UInt64.ofNat n).toBitVec := by
    refine ⟨fun ones => ?_⟩
    rw [ones] at exponent
    change 2047 = _ at exponent
    omega
  change UInt64.ofBitVec (pack .binary64 (unpack .binary64 (UInt64.ofNat n).toBitVec)) = _
  rw [pack_unpack_of_valid valid]

/-- The opposite of a positive number has the sign bit as well. -/
theorem neg_ofBits {n : Nat} (h : n < infinityBits) :
    -Float.ofBits (.ofNat n) = Float.ofBits (.ofNat (n + 2 ^ 63)) := by
  have small : n < 2047 * 2 ^ 52 := h
  have word : (UInt64.ofNat n).toNat = n := UInt64.toNat_ofNat_of_lt' (Nat.lt_trans h (by decide))
  have signed : (UInt64.ofNat (n + 2 ^ 63)).toNat = n + 2 ^ 63 :=
    UInt64.toNat_ofNat_of_lt' (by rw [UInt64.size]; omega)
  have opposite : (unpack .binary64 (UInt64.ofNat n).toBitVec).neg =
      unpack .binary64 (UInt64.ofNat (n + 2 ^ 63)).toBitVec := by
    refine unpack_neg ?_ ?_ ?_ <;> rw [← BitVec.toNat_inj]
    · rw [BitVec.toNat_not, unpackSign_toNat, unpackSign_toNat, word, signed]
      omega
    · rw [unpackExponent_toNat, unpackExponent_toNat, word, signed]
      omega
    · rw [unpackMantissa_toNat, unpackMantissa_toNat, word, signed]
      omega
  have bits := toBits_ofBits h
  change Float.ofModel (Float.Model.pack (unpack .binary64 (Float.ofBits (.ofNat n)).toBits.toBitVec).neg) = _
  rw [bits, opposite]
  rfl

variable {x : Float}

theorem toBits_eq (x : Float) : x.toBits.toNat = unsignedBits x + if isNegative x then 2 ^ 63 else 0 := by
  have word := x.toBits.toNat_lt
  simp only [unsignedBits, isNegative, Nat.pow_eq, decide_eq_true_eq]
  split <;> omega

/-- A number is finite if its exponent is not all ones. -/
theorem isFinite_iff (x : Float) : x.isFinite = true ↔ unsignedBits x < infinityBits := by
  have word := x.toBits.toNat_lt
  have exponent := unpackExponent_toNat (w := x.toBits)
  have ones : @unpackExponent Format.binary64 x.toBits.toBitVec = -1#_ ↔ infinityBits ≤ unsignedBits x := by
    rw [← BitVec.toNat_inj, exponent]
    change _ = 2047 ↔ 2047 * 2 ^ 52 ≤ x.toBits.toNat % 2 ^ 63
    omega
  change (unpack .binary64 x.toBits.toBitVec).isFinite = true ↔ _
  rw [← Nat.not_le, ← ones, unpack]
  by_cases h : @unpackExponent Format.binary64 x.toBits.toBitVec = -1#_
  · rw [if_pos h]
    refine ⟨fun finite => ?_, fun other => absurd h other⟩
    split at finite <;> cases finite
  · rw [if_neg h]
    refine ⟨fun _ => h, fun _ => ?_⟩
    split
    · split <;> rfl
    · rfl

/-- A finite number is its size or the opposite of that. -/
theorem signed_eq (h : unsignedBits x < infinityBits) :
    (if isNegative x then -Float.ofBits (.ofNat (unsignedBits x)) else Float.ofBits (.ofNat (unsignedBits x))) = x := by
  have bits := toBits_eq x
  split
  · rename_i negative
    rw [neg_ofBits h]
    rw [if_pos negative] at bits
    rw [← bits, UInt64.ofNat_toNat, Float.ofBits_toBits]
  · rename_i positive
    rw [if_neg positive, Nat.add_zero] at bits
    rw [← bits, UInt64.ofNat_toNat, Float.ofBits_toBits]

end Lox.Number
