import Mathlib.Algebra.Order.Floor.Semifield
import Mathlib.Data.Rat.Floor
import Lox.Proofs.Numerals.Layout

/-! # Decimals around a double

The multiples of a power of ten make a grid. Of those that are read as a double, if there are any,
one is next to the double. -/

namespace Lox.Decimal

/-! ## The leading digit -/

theorem tensBelow_le {n num den s : ℕ} (h : den ≤ num * 10 ^ s) : tensBelow n num den ≤ s := by
  induction n generalizing num s with
  | zero => exact Nat.zero_le _
  | succ n ih =>
    rw [tensBelow]
    split
    · exact Nat.zero_le _
    · rename_i below
      cases s with
      | zero => exact absurd (by simpa using h) below
      | succ s =>
        refine Nat.succ_le_succ (ih ?_)
        rwa [Nat.mul_assoc, ← Nat.pow_succ']

theorem le_tensBelow {n num den : ℕ} (h : den ≤ num * 10 ^ n) : den ≤ num * 10 ^ tensBelow n num den := by
  induction n generalizing num with
  | zero => exact h
  | succ n ih =>
    rw [tensBelow]
    split
    · rename_i reached
      simpa using reached
    · rw [Nat.pow_succ', ← Nat.mul_assoc] at h ⊢
      exact ih h

theorem leadingExponent_le {num den : ℕ} (hn : 0 < num) (hd : 0 < den) :
    (10 : ℚ) ^ leadingExponent num den ≤ num / den := by
  have pos : (0 : ℚ) < den := by exact_mod_cast hd
  unfold leadingExponent
  split
  · rename_i large
    have quotient : 0 < num / den := Nat.div_pos large hd
    have low := (toDigits_bounds quotient).1
    have some : 0 < (Nat.toDigits 10 (num / den)).length := Nat.length_toDigits_pos
    have exponent : ((Nat.toDigits 10 (num / den)).length - 1 : ℤ) =
        ((Nat.toDigits 10 (num / den)).length - 1 : ℕ) := by omega
    rw [exponent, zpow_natCast]
    exact_mod_cast (le_quotient hd).mp low
  · have enough : den ≤ num * 10 ^ (den.log2 + 1) := by
      calc den ≤ 2 ^ (den.log2 + 1) := Nat.le_of_lt Nat.lt_log2_self
        _ ≤ 10 ^ (den.log2 + 1) := Nat.pow_le_pow_left (by decide) _
        _ ≤ num * 10 ^ (den.log2 + 1) := Nat.le_mul_of_pos_left _ hn
    have reached := le_tensBelow enough
    rw [zpow_neg, zpow_natCast, le_div_iff₀ pos, inv_mul_le_iff₀ (by positivity)]
    rw [mul_comm]
    exact_mod_cast reached

theorem le_leadingExponent {num den : ℕ} (hd : 0 < den) {s : ℕ} (h : 10 ^ (-s : ℤ) ≤ (num : ℚ) / den) :
    -(s : ℤ) ≤ leadingExponent num den := by
  have pos : (0 : ℚ) < den := by exact_mod_cast hd
  unfold leadingExponent
  split
  · have some : 0 < (Nat.toDigits 10 (num / den)).length := Nat.length_toDigits_pos
    omega
  · have few : tensBelow (den.log2 + 1) num den ≤ s := by
      refine tensBelow_le ?_
      rw [zpow_neg, zpow_natCast, le_div_iff₀ pos, inv_mul_le_iff₀ (by positivity), mul_comm] at h
      exact_mod_cast h
    omega

theorem lt_leadingExponent {num den : ℕ} (hd : 0 < den) : (num : ℚ) / den < 10 ^ (leadingExponent num den + 1) := by
  have pos : (0 : ℚ) < den := by exact_mod_cast hd
  unfold leadingExponent
  split
  · rename_i large
    have high := (toDigits_bounds (Nat.div_pos large hd)).2
    rw [sub_add_cancel, zpow_natCast]
    refine lt_of_not_ge fun more => Nat.not_lt.mpr ((le_quotient hd).mpr ?_) high
    exact_mod_cast more
  · rename_i small
    have least (s : ℕ) (h : s < tensBelow (den.log2 + 1) num den) : num * 10 ^ s < den :=
      Nat.lt_of_not_le fun enough => Nat.not_lt.mpr (tensBelow_le enough) h
    generalize tensBelow (den.log2 + 1) num den = t at least
    cases t with
    | zero =>
      rw [div_lt_iff₀ pos]
      have less : (num : ℚ) < den := by exact_mod_cast Nat.lt_of_not_le small
      norm_num
      linarith
    | succ t =>
      have exponent : -((t + 1 : ℕ) : ℤ) + 1 = -t := by omega
      rw [exponent, zpow_neg, zpow_natCast, div_lt_iff₀ pos, ← div_eq_inv_mul, lt_div_iff₀ (by positivity)]
      exact_mod_cast least t (Nat.lt_succ_self t)

/-! ## Decimals that are read as a double -/

theorem Written.rounds (w : Written) : Rounds w.value w.bits := by
  rw [← w.ratio]
  exact nearest_rounds _ w.denominator_pos

namespace Magnitude

variable {x : Magnitude} {w : Written} {i : ℤ} {d : ℕ}

theorem denominator_pos (x : Magnitude) : 0 < x.denominator := Nat.pow_pos (by decide)

theorem numerator_pos (h : 0 < x.m) : 0 < x.numerator := Nat.mul_pos h (Nat.pow_pos (by decide))

/-- The decimals that are read as a double form an interval around it. -/
theorem Finite.bits_of_between (hx : x.Finite) (hw : w.bits = x.toBits) {v : Written}
    (h : w.value ≤ v.value ∧ v.value ≤ x.value ∨ x.value ≤ v.value ∧ v.value ≤ w.value) : v.bits = x.toBits := by
  have outside := w.rounds
  rw [hw] at outside
  rcases h with ⟨low, high⟩ | ⟨low, high⟩
  · exact Nat.le_antisymm (v.rounds.mono hx.rounds high) (outside.mono v.rounds low)
  · exact Nat.le_antisymm (v.rounds.mono outside high) (hx.rounds.mono v.rounds low)

/-! ## Neighbours on a grid -/

/-- How many units of a grid a number is worth, rounded down. -/
def units (x : Magnitude) (i : ℤ) : ℕ := ⌊x.value / 10 ^ i⌋₊

theorem value_nonneg (x : Magnitude) : 0 ≤ x.value := by
  rw [value]
  positivity

theorem units_ratio (x : Magnitude) (i : ℤ) : ((x.numerator * Nat.pow 10 (-i).toNat : ℕ) : ℚ) /
    (x.denominator * Nat.pow 10 i.toNat : ℕ) = x.value / 10 ^ i := by
  rw [scaled_ratio (by decide), x.ratio, Nat.cast_ofNat]

theorem units_eq (x : Magnitude) (i : ℤ) :
    x.numerator * Nat.pow 10 (-i).toNat / (x.denominator * Nat.pow 10 i.toNat) = x.units i := by
  rw [units, ← units_ratio, Nat.floor_div_eq_div]

theorem le_units : d ≤ x.units i ↔ d * 10 ^ i ≤ x.value := by
  rw [units, Nat.le_floor_iff (div_nonneg x.value_nonneg (by positivity)), le_div_iff₀ (by positivity)]

/-- If a decimal of a grid is read as a double, then so is one that is next to the double. -/
theorem Finite.neighbour (hx : x.Finite) (hd : Written.bits ⟨d, i⟩ = x.toBits) :
    d ≤ x.units i ∧ Written.bits ⟨x.units i, i⟩ = x.toBits ∨
      x.units i + 1 ≤ d ∧ Written.bits ⟨x.units i + 1, i⟩ = x.toBits := by
  have pos : (0 : ℚ) < 10 ^ i := by positivity
  have grid {a b : ℕ} (h : a ≤ b) : Written.value ⟨a, i⟩ ≤ Written.value ⟨b, i⟩ := by
    unfold Written.value
    dsimp only
    gcongr
  rcases Nat.lt_or_ge (x.units i) d with more | less
  · refine .inr ⟨more, hx.bits_of_between hd (.inr ⟨le_of_not_ge fun low => ?_, grid more⟩)⟩
    exact Nat.not_succ_le_self _ (le_units.mpr low)
  · exact .inl ⟨less, hx.bits_of_between hd (.inl ⟨grid less, le_units.mp le_rfl⟩)⟩

/-- What is found on a grid. -/
structure OnGrid (x : Magnitude) (i : ℤ) (w : Written) : Prop where
  exponent : w.exponent = i
  neighbour : w.digits = x.units i ∨ w.digits = x.units i + 1
  reads : w.bits = x.toBits
  closest : ∀ d : ℕ, Written.bits ⟨d, i⟩ = x.toBits → |(w.digits : ℚ) - x.value / 10 ^ i| ≤ |(d : ℚ) - x.value / 10 ^ i|

theorem onGrid_eq (x : Magnitude) (i : ℤ) : x.onGrid i =
    if x.readsBack ⟨x.units i, i⟩ && x.readsBack ⟨x.units i + 1, i⟩ then
      some ⟨roundDiv (x.numerator * Nat.pow 10 (-i).toNat) (x.denominator * Nat.pow 10 i.toNat), i⟩
    else if x.readsBack ⟨x.units i, i⟩ then some ⟨x.units i, i⟩
    else if x.readsBack ⟨x.units i + 1, i⟩ then some ⟨x.units i + 1, i⟩
    else none := by
  rw [← units_eq]
  rfl

theorem Finite.onGrid_spec (hx : x.Finite) (h : x.onGrid i = some w) : OnGrid x i w := by
  have ratio : 0 ≤ x.value / 10 ^ i := div_nonneg x.value_nonneg (by positivity)
  rw [onGrid_eq] at h
  split at h
  · rename_i both
    obtain ⟨below, above⟩ := Bool.and_eq_true_iff.mp both
    have rounded := roundDiv_rounded (x.numerator * Nat.pow 10 (-i).toNat)
      (scaled_pos (b := 10) (by decide) x.denominator_pos i)
    rw [units_ratio] at rounded
    generalize roundDiv _ _ = m at h rounded
    cases h
    refine ⟨rfl, ?_, ?_, fun d _ => rounded.closest ratio d⟩
    · cases rounded with
      | down => exact .inl rfl
      | up => exact .inr rfl
    · cases rounded with
      | down => exact eq_of_beq below
      | up => exact eq_of_beq above
  · rename_i both
    split at h
    · rename_i below
      cases h
      refine ⟨rfl, .inl rfl, eq_of_beq below, fun d hd => ?_⟩
      rcases hx.neighbour hd with ⟨less, -⟩ | ⟨-, above⟩
      · exact floor_closest ratio less
      · exact absurd (Bool.and_eq_true_iff.mpr ⟨below, beq_iff_eq.mpr above⟩) both
    · rename_i below
      split at h
      · rename_i above
        cases h
        refine ⟨rfl, .inr rfl, eq_of_beq above, fun d hd => ?_⟩
        rcases hx.neighbour hd with ⟨-, reads⟩ | ⟨more, -⟩
        · exact absurd (beq_iff_eq.mpr reads) below
        · exact floor_succ_closest more
      · cases h

/-- Where nothing is found, no decimal of the grid is read as the double. -/
theorem Finite.onGrid_none (hx : x.Finite) (h : x.onGrid i = none) (d : ℕ) : Written.bits ⟨d, i⟩ ≠ x.toBits := by
  intro hd
  rw [onGrid_eq] at h
  split at h
  · cases h
  · split at h
    · cases h
    · rename_i below
      split at h
      · cases h
      · rename_i above
        rcases hx.neighbour hd with ⟨-, reads⟩ | ⟨-, reads⟩
        · exact below (beq_iff_eq.mpr reads)
        · exact above (beq_iff_eq.mpr reads)

end Magnitude

end Lox.Decimal
