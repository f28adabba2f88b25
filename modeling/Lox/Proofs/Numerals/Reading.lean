import Lox.Interpreter
import Lox.Proofs.Numerals.Shortest
import Lox.Proofs.Numerals.Signs
import Lox.Proofs.Outcomes.Lines
import Lox.Proofs.Printing.Inverse

/-! # Numbers that are printed are read back

The text of a number that is integral, or not too close to zero, is a literal behind a sign, and
its value as an expression is the number. -/

namespace Lox

open Decimal (Magnitude)

namespace Number

/-! ## What is printed -/

/-- The absolute value of a finite number. -/
def size (x : Float) : ℚ := (Magnitude.ofBits (unsignedBits x)).value

/-- Finite numbers that are integral, or at least as far from zero as `10 ^ -4`. -/
structure Plain (x : Float) : Prop where
  finite : x.isFinite = true
  legible : (∃ n : ℕ, size x = n) ∨ 1 / 10000 ≤ size x

theorem isIntegral_iff (x : Magnitude) : x.isIntegral = true ↔ ∃ n : ℕ, x.value = n := by
  have pos : (x.denominator : ℚ) ≠ 0 := by exact_mod_cast x.denominator_pos.ne'
  rw [Magnitude.isIntegral, beq_iff_eq, ← x.ratio]
  constructor
  · intro h
    obtain ⟨n, hn⟩ := Nat.dvd_of_mod_eq_zero h
    exact ⟨n, by rw [hn, Nat.cast_mul, mul_div_cancel_left₀ _ pos]⟩
  · rintro ⟨n, hn⟩
    rw [div_eq_iff pos] at hn
    have whole : x.numerator = n * x.denominator := by exact_mod_cast hn
    rw [whole, Nat.mul_mod_left]

/-- A number with digits behind the point is less than `2 ^ 52`. -/
theorem value_lt {x : Magnitude} (hx : x.Finite) (h : x.isIntegral = false) : x.value < 2 ^ 52 := by
  have fraction : x.q < 0 := by
    refine lt_of_not_ge fun whole => ?_
    obtain ⟨n, hn⟩ := Int.eq_ofNat_of_zero_le whole
    have integral := (isIntegral_iff x).mpr ⟨x.m * 2 ^ n, by
      rw [Magnitude.value, hn, zpow_natCast]; push_cast; rfl⟩
    rw [integral] at h
    cases h
  have mantissa : (x.m : ℚ) < 2 ^ 53 := by exact_mod_cast hx.mantissa
  calc x.value ≤ x.m * 2 ^ (-1 : ℤ) := by
        rw [Magnitude.value]
        have power : (2 : ℚ) ^ x.q ≤ 2 ^ (-1 : ℤ) := zpow_le_zpow_right₀ (by norm_num) (by omega)
        gcongr
    _ < 2 ^ 53 * 2 ^ (-1 : ℤ) := by gcongr
    _ = 2 ^ 52 := by norm_num

theorem spells_of_positional {text : List Char} {v : ℚ} (h : Positional text v) : Kind.Spells .number text := by
  cases h with
  | mk hw some hp more => exact .fraction some hw more hp

/-- The digits of a whole number are read as it. -/
theorem whole_numeral {m : Magnitude} (hm : m.Finite) (h : m.isIntegral = true) :
    Kind.Spells .number (Nat.toDigits 10 (m.numerator / m.denominator)) ∧
      read (Nat.toDigits 10 (m.numerator / m.denominator)) = Float.ofBits (.ofNat m.toBits) := by
  refine ⟨.whole Nat.toDigits_ne_nil (Digits.toDigits _), ?_⟩
  have exact : m.numerator = m.numerator / m.denominator * m.denominator :=
    (Nat.div_mul_cancel (Nat.dvd_of_mod_eq_zero (beq_iff_eq.mp h))).symm
  have value : ((m.numerator / m.denominator : ℕ) : ℚ) / (1 : ℕ) = m.value := by
    rw [← m.ratio, Nat.cast_one, div_one, eq_div_iff (by exact_mod_cast m.denominator_pos.ne')]
    exact_mod_cast exact.symm
  rw [read_toDigits, hm.nearest_eq Nat.one_pos value]

/-- The fewest digits of any other number that is not too small have a point and no exponent, and
are read as it. -/
theorem pointed_numeral {m : Magnitude} (hm : m.Finite) (h : m.isIntegral = false) (large : 1 / 10000 ≤ m.value) :
    Kind.Spells .number (Decimal.Notation.text m.shortest) ∧
      read (Decimal.Notation.text m.shortest) = Float.ofBits (.ofNat m.toBits) := by
  have small := value_lt hm h
  have some : 0 < m.m := Nat.pos_of_ne_zero fun none => by
    rw [Magnitude.value, none] at large
    norm_num at large
  obtain ⟨reads, digits, low, high⟩ := hm.shortest_spec some
  have leading : -((4 : ℕ) : ℤ) ≤ Decimal.leadingExponent m.numerator m.denominator := by
    refine Decimal.le_leadingExponent m.denominator_pos ?_
    rw [m.ratio]
    norm_num at large ⊢
    exact large
  have least : (10 : ℚ) ^ (-4 : ℤ) ≤ m.shortest.value :=
    le_trans (zpow_le_zpow_right₀ (by norm_num) leading) low
  have most : m.shortest.value < 10 ^ (16 : ℤ) := by
    norm_num at small ⊢
    linarith
  have text := Decimal.Notation.text_spec digits least most
  refine ⟨spells_of_positional text, ?_⟩
  rw [read_positional text (Decimal.Written.denominator_pos _) (Decimal.Written.ratio _), ← reads]
  rfl

/-- What is printed of a number is a sign and a literal that is read as its absolute value. -/
theorem display_spec {x : Float} (h : Plain x) : ∃ numeral : List Char,
    display x = .ofList (signText x ++ numeral) ∧ Kind.Spells .number numeral ∧
      read numeral = Float.ofBits (.ofNat (unsignedBits x)) := by
  have below := (isFinite_iff x).mp h.finite
  have finite := Magnitude.ofBits_finite below
  have bits := Magnitude.toBits_ofBits (unsignedBits x)
  have legible := h.legible
  unfold display withSign
  rw [if_neg (Nat.not_lt.mpr (Nat.le_of_lt below)), if_neg (Nat.ne_of_lt below)]
  dsimp only
  cases integral : (Magnitude.ofBits (unsignedBits x)).isIntegral with
  | true =>
    obtain ⟨spells, reads⟩ := whole_numeral finite integral
    exact ⟨_, by rw [if_pos rfl], spells, by rw [reads, bits]⟩
  | false =>
    have large : 1 / 10000 ≤ size x := legible.resolve_left fun whole => by
      rw [(isIntegral_iff _).mpr whole] at integral
      cases integral
    obtain ⟨spells, reads⟩ := pointed_numeral finite integral large
    have notZero : unsignedBits x ≠ 0 := by
      intro zero
      have whole : (Magnitude.ofBits 0).isIntegral = true :=
        (isIntegral_iff _).mpr ⟨0, by simp [Magnitude.value, Magnitude.ofBits]⟩
      rw [zero, whole] at integral
      cases integral
    exact ⟨_, by rw [if_neg Bool.false_ne_true, pointed, if_neg notZero], spells, by rw [reads, bits]⟩

end Number

end Lox
