import Mathlib.Algebra.Order.Field.Power
import Mathlib.Algebra.Order.Ring.Rat
import Mathlib.Data.List.TakeWhile
import Mathlib.Tactic.FieldSimp
import Mathlib.Tactic.Linarith
import Mathlib.Tactic.Positivity
import Mathlib.Tactic.Ring
import Lox.Proofs.Numerals.Rounding
import Lox.Number

/-! # Digits and points

What a row of digits with a point denotes, and that a decimal that is laid out without an
exponent denotes what it stands for. -/

namespace Lox

open Number (isDigit naturalOf)

/-! ## Rows of digits -/

/-- A row of digits only. -/
def Digits (row : List Char) : Prop := ∀ c ∈ row, isDigit c = true

namespace Digits

variable {a b : List Char}

theorem append (ha : Digits a) (hb : Digits b) : Digits (a ++ b) := fun c hc =>
  (List.mem_append.mp hc).elim (ha c) (hb c)

theorem toDigits (n : ℕ) : Digits (Nat.toDigits 10 n) := by
  intro c hc
  exact Nat.isDigit_of_mem_toDigits (by decide) (by decide) hc

theorem zeros (n : ℕ) : Digits (Decimal.Notation.zeros n) := by
  intro c hc
  rw [(List.mem_replicate.mp hc).2]
  decide

end Digits

theorem naturalOf_append (a b : List Char) : naturalOf (a ++ b) = naturalOf a * 10 ^ b.length + naturalOf b := by
  have start (n : ℕ) : Nat.ofDigitChars 10 b n = 10 ^ b.length * n + Nat.ofDigitChars 10 b 0 :=
    Nat.ofDigitChars_eq_ofDigitChars_zero
  change Nat.ofDigitChars 10 (a ++ b) 0 = Nat.ofDigitChars 10 a 0 * 10 ^ b.length + Nat.ofDigitChars 10 b 0
  rw [Nat.ofDigitChars_append, start, Nat.mul_comm]

theorem naturalOf_zeros (n : ℕ) : naturalOf (Decimal.Notation.zeros n) = 0 := by
  change Nat.ofDigitChars 10 (List.replicate n '0') 0 = 0
  rw [Nat.ofDigitChars_replicate_zero, Nat.mul_zero]

theorem naturalOf_toDigits (n : ℕ) : naturalOf (Nat.toDigits 10 n) = n := Nat.ofDigitChars_ten_toDigits

/-- What a row of digits denotes that has some digits behind the point. -/
def pointedValue (whole part : List Char) : ℚ := naturalOf (whole ++ part) / 10 ^ part.length

/-- A text that is a number with a point. -/
inductive Positional : List Char → ℚ → Prop
  | mk {whole part : List Char} (hw : Digits whole) (some : whole ≠ []) (hp : Digits part) (more : part ≠ []) :
      Positional (whole ++ '.' :: part) (pointedValue whole part)

/-! ## Texts of decimals -/

namespace Decimal.Notation

variable {digits : List Char} {e : ℤ}

theorem zeros_length (n : ℕ) : (zeros n).length = n := List.length_replicate

/-- Zeros in front of digits denote nothing. -/
theorem naturalOf_leading (n : ℕ) (digits : List Char) : naturalOf (zeros n ++ digits) = naturalOf digits := by
  rw [naturalOf_append, naturalOf_zeros, Nat.zero_mul, Nat.zero_add]

theorem div_tens (n k : ℕ) {i : ℤ} (h : i = -k) : (n : ℚ) / 10 ^ k = n * 10 ^ i := by
  rw [h, zpow_neg, zpow_natCast, div_eq_mul_inv]

/-- Digits with a point between them denote what they stand for at their leading exponent. -/
theorem positional_spec (hd : Digits digits) (some : digits ≠ []) :
    Positional (positional digits e) (naturalOf digits * 10 ^ (e + 1 - digits.length)) := by
  have zero : Digits ['0'] := Digits.zeros 1
  have length := List.length_pos_iff.mpr some
  unfold positional
  split
  · rename_i negative
    have value : pointedValue ['0'] (zeros ((-e).toNat - 1) ++ digits) =
        naturalOf digits * 10 ^ (e + 1 - digits.length) := by
      have leading := naturalOf_leading (1 + ((-e).toNat - 1)) digits
      rw [zeros, List.replicate_add, List.append_assoc] at leading
      rw [pointedValue]
      change (naturalOf (List.replicate 1 '0' ++ (List.replicate ((-e).toNat - 1) '0' ++ digits)) : ℚ) / _ = _
      rw [leading, List.length_append, zeros_length]
      exact div_tens _ _ (by push_cast; omega)
    rw [← value]
    exact .mk zero (List.cons_ne_nil _ _) ((Digits.zeros _).append hd) (List.append_ne_nil_of_right_ne_nil _ some)
  · rename_i whole
    dsimp only
    split
    · rename_i short
      have value : pointedValue (digits ++ zeros (e.toNat + 1 - digits.length)) ['0'] =
          naturalOf digits * 10 ^ (e + 1 - digits.length) := by
        have exponent : e + 1 - digits.length = ((e.toNat + 1 - digits.length : ℕ) : ℤ) := by omega
        have last : naturalOf ['0'] = 0 := rfl
        rw [pointedValue, naturalOf_append, naturalOf_append, naturalOf_zeros, last, zeros_length, exponent,
          zpow_natCast]
        push_cast
        simp
      rw [← value]
      exact .mk (hd.append (Digits.zeros _)) (List.append_ne_nil_of_left_ne_nil some _) zero (List.cons_ne_nil _ _)
    · rename_i long
      have value : pointedValue (digits.take (e.toNat + 1)) (digits.drop (e.toNat + 1)) =
          naturalOf digits * 10 ^ (e + 1 - digits.length) := by
        rw [pointedValue, List.take_append_drop, List.length_drop]
        exact div_tens _ _ (by omega)
      rw [← value]
      refine .mk (fun c hc => hd c (List.mem_of_mem_take hc)) ?_ (fun c hc => hd c (List.mem_of_mem_drop hc)) ?_
      · exact fun none => some ((List.take_eq_nil_iff.mp none).resolve_left (Nat.succ_ne_zero _))
      · exact fun none => long (List.drop_eq_nil_iff.mp none)

/-- What is dropped behind the significant digits are zeros. -/
theorem significant_spec (digits : List Char) : ∃ t, digits = significant digits ++ zeros t := by
  refine ⟨(digits.reverse.takeWhile (· == '0')).length, ?_⟩
  have split := List.takeWhile_append_dropWhile (p := (· == '0')) (l := digits.reverse)
  have dropped : digits.reverse.takeWhile (· == '0') = zeros (digits.reverse.takeWhile (· == '0')).length :=
    List.eq_replicate_iff.mpr ⟨rfl, fun c hc => by simpa using List.mem_takeWhile_imp hc⟩
  rw [dropped] at split
  have whole := congrArg List.reverse split
  rw [List.reverse_reverse, List.reverse_append, zeros, List.reverse_replicate] at whole
  exact whole.symm

end Decimal.Notation

/-! ## Decimals in full -/

namespace Decimal

def Written.value (w : Written) : ℚ := w.digits * 10 ^ w.exponent

theorem Written.denominator_pos (w : Written) : 0 < w.denominator := Nat.pow_pos (by decide)

theorem Written.ratio (w : Written) : (w.numerator : ℚ) / w.denominator = w.value := by
  have scaled := scaled_ratio (b := 10) (by decide) w.digits 1 (-w.exponent)
  rw [neg_neg, Nat.one_mul] at scaled
  rw [numerator, denominator, scaled, value]
  simp

/-- The digits of a number lie between the powers of ten around it. -/
theorem toDigits_bounds {n : ℕ} (h : 0 < n) :
    10 ^ ((Nat.toDigits 10 n).length - 1) ≤ n ∧ n < 10 ^ (Nat.toDigits 10 n).length := by
  have some : 0 < (Nat.toDigits 10 n).length := Nat.length_toDigits_pos
  have counts {k : ℕ} (hk : 0 < k) := Nat.length_toDigits_le_iff (n := n) (b := 10) (by decide) hk
  refine ⟨?_, (counts some).mp (Nat.le_refl _)⟩
  rcases Nat.eq_zero_or_pos ((Nat.toDigits 10 n).length - 1) with none | more
  · rw [none]
    exact h
  · refine Nat.le_of_not_lt fun less => ?_
    have fewer := (counts more).mpr less
    omega

/-- The exponent of the leading digit tells the magnitude of a decimal. -/
theorem Written.value_bounds {w : Written} (hw : 0 < w.digits) {e : ℤ}
    (he : e = w.exponent + ((Nat.toDigits 10 w.digits).length - 1 : ℕ)) :
    10 ^ e ≤ w.value ∧ w.value < 10 ^ (e + 1) := by
  obtain ⟨low, high⟩ := toDigits_bounds hw
  have some : 0 < (Nat.toDigits 10 w.digits).length := Nat.length_toDigits_pos
  have ten : (10 : ℚ) ≠ 0 := by norm_num
  have here : e = ((Nat.toDigits 10 w.digits).length - 1 : ℕ) + w.exponent := by omega
  have above : e + 1 = (Nat.toDigits 10 w.digits).length + w.exponent := by omega
  rw [above, here, zpow_add₀ ten, zpow_add₀ ten, zpow_natCast, zpow_natCast, value]
  have low' : (10 : ℚ) ^ ((Nat.toDigits 10 w.digits).length - 1) ≤ w.digits := by exact_mod_cast low
  have high' : (w.digits : ℚ) < 10 ^ (Nat.toDigits 10 w.digits).length := by exact_mod_cast high
  constructor <;> gcongr

/-- A decimal that is neither too small nor too large is laid out without an exponent, and that
denotes its value. -/
theorem Notation.text_spec {w : Written} (hw : 0 < w.digits) (low : 10 ^ (-4 : ℤ) ≤ w.value)
    (high : w.value < 10 ^ (16 : ℤ)) : Positional (Notation.text w) w.value := by
  have ten : (1 : ℚ) < 10 := by norm_num
  obtain ⟨e, he⟩ : ∃ e, e = w.exponent + ((Nat.toDigits 10 w.digits).length - 1 : ℕ) := ⟨_, rfl⟩
  obtain ⟨least, most⟩ := Written.value_bounds hw he
  have shown : -4 ≤ e ∧ e < 16 := by
    have lower := (zpow_lt_zpow_iff_right₀ ten).mp (lt_of_le_of_lt low most)
    have upper := (zpow_lt_zpow_iff_right₀ ten).mp (lt_of_le_of_lt least high)
    omega
  obtain ⟨t, split⟩ := significant_spec (Nat.toDigits 10 w.digits)
  have denoted : w.digits = naturalOf (significant (Nat.toDigits 10 w.digits)) * 10 ^ t := by
    have whole := congrArg naturalOf split
    rwa [naturalOf_toDigits, naturalOf_append, naturalOf_zeros, zeros_length, Nat.add_zero] at whole
  have length := congrArg List.length split
  rw [List.length_append, zeros_length] at length
  have digits : Digits (significant (Nat.toDigits 10 w.digits)) := fun c hc =>
    Digits.toDigits w.digits c (by rw [split]; exact List.mem_append_left _ hc)
  have some : significant (Nat.toDigits 10 w.digits) ≠ [] := by
    intro none
    rw [none] at denoted
    change w.digits = 0 * _ at denoted
    omega
  have value : w.value = naturalOf (significant (Nat.toDigits 10 w.digits)) *
      10 ^ (e + 1 - (significant (Nat.toDigits 10 w.digits)).length) := by
    have exponent : e + 1 - ((significant (Nat.toDigits 10 w.digits)).length : ℤ) = t + w.exponent := by
      have pos : 0 < (significant (Nat.toDigits 10 w.digits)).length := List.length_pos_iff.mpr some
      omega
    rw [exponent, zpow_add₀ (by norm_num), zpow_natCast, ← mul_assoc, Written.value]
    congr 1
    exact_mod_cast denoted
  rw [text, ← he, if_pos shown, value]
  exact positional_spec digits some

end Decimal

/-! ## Reading -/

namespace Number

open Decimal (nearest)

/-- A number with a point is read as the double nearest to what it denotes. -/
theorem read_positional {text : List Char} {v : ℚ} (h : Positional text v) {num den : ℕ} (hd : 0 < den)
    (hv : (num : ℚ) / den = v) : read text = Float.ofBits (.ofNat (nearest num den)) := by
  obtain @⟨whole, part, hw, some, hp, more⟩ := h
  have stop : isDigit '.' = false := by decide
  have taken : (whole ++ '.' :: part).takeWhile isDigit = whole := by
    rw [List.takeWhile_append_of_pos hw, List.takeWhile_cons_of_neg (by simp [stop]), List.append_nil]
  have left : (whole ++ '.' :: part).dropWhile isDigit = '.' :: part := by
    rw [List.dropWhile_append_of_pos hw, List.dropWhile_cons_of_neg (by simp [stop])]
  rw [read, taken, left]
  dsimp only [List.drop]
  congr 2
  refine Decimal.nearest_congr (Nat.pow_pos (by decide)) hd ?_
  rw [hv, pointedValue]
  norm_num

/-- A row of digits is read as the double nearest to the whole number that it denotes. -/
theorem read_toDigits (n : ℕ) : read (Nat.toDigits 10 n) = Float.ofBits (.ofNat (nearest n 1)) := by
  have taken : (Nat.toDigits 10 n).takeWhile isDigit = Nat.toDigits 10 n :=
    List.takeWhile_eq_self_iff.mpr (Digits.toDigits n)
  have left : (Nat.toDigits 10 n).dropWhile isDigit = [] := List.dropWhile_eq_nil_iff.mpr (Digits.toDigits n)
  rw [read, taken, left]
  dsimp only [List.drop]
  rw [List.append_nil, naturalOf_toDigits]
  rfl

end Number

end Lox
