import Lox.Proofs.Numerals.Grids

/-! # The fewest digits that read back

The search for few digits comes to an end at seventeen. The decimal that it comes to is read as
the number, no decimal of fewer digits is, and none of as many digits is closer to it. -/

namespace Lox.Decimal.Magnitude

variable {x : Magnitude} {w : Written}

/-! ## Seventeen digits -/

/-- The doubles next to a number are further away than a digit in the seventeenth place. -/
theorem Finite.neighbours_apart (hx : x.Finite) (some : 0 < x.m) {s : ℚ} (fine : 10 ^ 16 * s ≤ x.value) :
    bitsValue (x.toBits - 1) + s < x.value ∧ x.value + s < bitsValue (x.toBits + 1) := by
  obtain ⟨m, q⟩ := x
  obtain ⟨⟨(mantissa : m < 2 ^ 53), (least : -1074 ≤ q), (normal : q = -1074 ∨ 2 ^ 52 ≤ m)⟩, -⟩ := hx
  obtain ⟨k, rfl⟩ := Nat.exists_eq_succ_of_ne_zero (Nat.pos_iff_ne_zero.mp some)
  have unit : (0 : ℚ) < 2 ^ q := by positivity
  have most : ((k + 1 : ℕ) : ℚ) < 2 ^ 53 := by exact_mod_cast mantissa
  have small : ((k + 1 : ℕ) : ℚ) * 2 ^ q < 2 ^ 53 * 2 ^ q := by gcongr
  rw [value] at fine ⊢
  dsimp only at fine ⊢
  constructor
  · rw [toBits_succ, Nat.add_sub_cancel]
    by_cases first : q = -1074 ∨ 2 ^ 52 ≤ k
    · rw [bitsValue_toBits (by omega) least first]
      push_cast at fine small ⊢
      linarith
    · -- the number below the first mantissa of an exponent has an exponent of its own
      obtain rfl : k = 2 ^ 52 - 1 := by omega
      have below : toBits ⟨2 ^ 52 - 1, q⟩ = toBits ⟨2 ^ 53 - 1, q - 1⟩ := by
        simp only [toBits, Nat.pow_eq]
        omega
      have half : (2 : ℚ) ^ q = 2 * 2 ^ (q - 1) := by rw [← zpow_one_add₀ (by norm_num)]; congr 1; ring
      have finer : (0 : ℚ) < 2 ^ (q - 1) := by positivity
      rw [below, bitsValue_toBits (by omega) (by omega) (.inr (by omega))]
      rw [half] at fine ⊢
      norm_num at fine ⊢
      linarith
  · rw [← toBits_succ, bitsValue_toBits mantissa least (normal.imp id Nat.le_succ_of_le)]
    push_cast at fine small ⊢
    linarith

/-- What is at most half a digit in the seventeenth place away from a number is rounded to it. -/
theorem Finite.rounds_near (hx : x.Finite) (some : 0 < x.m) {s v : ℚ} (fine : 10 ^ 16 * s ≤ x.value)
    (near : 2 * |v - x.value| ≤ s) : Rounds v x.toBits := by
  obtain ⟨below, above⟩ := hx.neighbours_apart some fine
  have value : bitsValue x.toBits = x.value := bitsValue_toBits hx.mantissa.le hx.least hx.normal
  have room := hx.toBits_lt
  rcases le_total x.value v with high | low
  · rw [abs_of_nonneg (by linarith)] at near
    exact .down (value ▸ high) room (.inl (by rw [value]; linarith))
  · rw [abs_of_nonpos (by linarith)] at near
    have pos : 0 < x.toBits := Nat.add_pos_right _ some
    obtain ⟨b, hb⟩ := Nat.exists_eq_succ_of_ne_zero pos.ne'
    rw [hb, Nat.succ_sub_one] at below
    rw [hb] at value room ⊢
    exact .up (value ▸ low) (Nat.lt_of_succ_lt room) (.inl (by rw [value]; linarith))

/-- On a grid as fine as seventeen digits there is always something to find. -/
theorem Finite.onGrid_fine (hx : x.Finite) (some : 0 < x.m) {i : ℤ} (fine : 10 ^ 16 * 10 ^ i ≤ x.value) :
    x.onGrid i ≠ none := by
  intro empty
  have unit : (0 : ℚ) < 10 ^ i := by positivity
  have far (d : ℕ) : 10 ^ i < 2 * |Written.value ⟨d, i⟩ - x.value| := lt_of_not_ge fun near =>
    hx.onGrid_none empty d ((Written.rounds _).unique (hx.rounds_near some fine near))
  have low : Written.value ⟨x.units i, i⟩ ≤ x.value := le_units.mp le_rfl
  have high : x.value < Written.value ⟨x.units i + 1, i⟩ := lt_of_not_ge fun more =>
    Nat.not_succ_le_self _ (le_units.mpr more)
  have below := far (x.units i)
  have above := far (x.units i + 1)
  rw [abs_of_nonpos (by linarith)] at below
  rw [abs_of_pos (by linarith)] at above
  unfold Written.value at below above
  push_cast at below above
  linarith

/-! ## The search -/

/-- The search stops at the first grid on which it finds something, and before the last one. -/
theorem Finite.shortest_found (hx : x.Finite) (some : 0 < x.m) : ∃ k : ℕ,
    OnGrid x (leadingExponent x.numerator x.denominator - k) x.shortest ∧
      ∀ j < k, x.onGrid (leadingExponent x.numerator x.denominator - j) = none := by
  have leading := leadingExponent_le (numerator_pos some) x.denominator_pos
  rw [x.ratio] at leading
  unfold shortest
  generalize leadingExponent x.numerator x.denominator = e at leading ⊢
  dsimp only
  cases found : (List.range 17).findSome? fun (k : ℕ) => x.onGrid (e - k) with
  | none =>
    have last := List.findSome?_eq_none_iff.mp found 16 (by decide)
    refine absurd last (hx.onGrid_fine some ?_)
    rw [← zpow_natCast, ← zpow_add₀ (by norm_num)]
    norm_num
    exact leading
  | some w =>
    obtain ⟨before, k, after, grids, here, empty⟩ := List.findSome?_eq_some_iff.mp found
    rw [List.range_eq_range', List.range'_eq_append_iff] at grids
    obtain ⟨n, -, rfl, others⟩ := grids
    obtain ⟨rfl, -⟩ := List.range'_eq_cons_iff.mp others.symm
    exact ⟨_, hx.onGrid_spec here, fun j less => empty j (List.mem_range'_1.mpr (by omega))⟩

/-- What is found has the leading digit of the number or is the next power of ten, and is not more
than twice the number. -/
theorem Finite.shortest_spec (hx : x.Finite) (some : 0 < x.m) : x.shortest.bits = x.toBits ∧ 0 < x.shortest.digits ∧
    10 ^ leadingExponent x.numerator x.denominator ≤ x.shortest.value ∧ x.shortest.value ≤ 2 * x.value := by
  have leading := leadingExponent_le (numerator_pos some) x.denominator_pos
  rw [x.ratio] at leading
  obtain ⟨k, ⟨exponent, neighbour, reads, -⟩, -⟩ := hx.shortest_found some
  generalize leadingExponent x.numerator x.denominator = e at leading exponent neighbour ⊢
  have ten {i j : ℤ} (h : i ≤ j) : (10 : ℚ) ^ i ≤ 10 ^ j := zpow_le_zpow_right₀ (by norm_num) h
  -- a power of ten that is on the grid is not above what the number is rounded down to
  have whole : 10 ^ k ≤ x.units (e - k) := by
    rw [le_units, Nat.cast_pow, ← zpow_natCast, Nat.cast_ofNat, ← zpow_add₀ (by norm_num)]
    exact le_trans (ten (by omega)) leading
  have below : (x.units (e - k) : ℚ) * 10 ^ (e - k) ≤ x.value := le_units.mp (Nat.le_refl _)
  have digits : x.units (e - k) ≤ x.shortest.digits ∧ x.shortest.digits ≤ x.units (e - k) + 1 := by omega
  have low : (x.units (e - k) : ℚ) ≤ x.shortest.digits := by exact_mod_cast digits.1
  have high : (x.shortest.digits : ℚ) ≤ x.units (e - k) + 1 := by exact_mod_cast digits.2
  have unit := le_trans (ten (show e - k ≤ e by omega)) leading
  have pow : (10 : ℚ) ^ k ≤ x.units (e - k) := by exact_mod_cast whole
  refine ⟨reads, lt_of_lt_of_le (Nat.pow_pos (by decide)) (Nat.le_trans whole digits.1), ?_, ?_⟩
  · rw [Written.value, exponent]
    calc (10 : ℚ) ^ e = 10 ^ k * 10 ^ (e - k) := by
          rw [← zpow_natCast, ← zpow_add₀ (by norm_num)]; congr 1; ring
      _ ≤ x.shortest.digits * 10 ^ (e - k) := by gcongr; exact le_trans pow low
  · rw [Written.value, exponent]
    calc (x.shortest.digits : ℚ) * 10 ^ (e - k) ≤ (x.units (e - k) + 1) * 10 ^ (e - k) := by gcongr
      _ = x.units (e - k) * 10 ^ (e - k) + 10 ^ (e - k) := by ring
      _ ≤ 2 * x.value := by linarith

/-- If a decimal of some digits is read as the number, then something is found on the grid of as many. -/
theorem Finite.onGrid_of_digits (hx : x.Finite) {e : ℤ} (leading : 10 ^ e ≤ x.value) (hw : w.bits = x.toBits) {k : ℕ}
    (few : w.digits < 10 ^ (k + 1)) : x.onGrid (e - k) ≠ none := by
  intro empty
  rcases le_or_gt (e - k) w.exponent with coarse | fine
  · obtain ⟨j, hj⟩ := Int.eq_ofNat_of_zero_le (sub_nonneg.mpr coarse)
    have same : Written.value ⟨w.digits * 10 ^ j, e - k⟩ = w.value := by
      have exponent : w.exponent = j + (e - k) := by omega
      rw [Written.value, Written.value, exponent, zpow_add₀ (by norm_num), zpow_natCast]
      push_cast
      ring
    refine hx.onGrid_none empty (w.digits * 10 ^ j) ((Written.rounds _).unique ?_)
    rw [same, ← hw]
    exact w.rounds
  · -- the decimal is finer than the grid, but the power of ten in front of the number is on it
    have power : Written.value ⟨10 ^ k, e - k⟩ = 10 ^ e := by
      rw [Written.value, Nat.cast_pow, Nat.cast_ofNat, ← zpow_natCast, ← zpow_add₀ (by norm_num)]
      congr 1
      ring
    refine hx.onGrid_none empty (10 ^ k) (hx.bits_of_between hw (.inl ⟨?_, power ▸ leading⟩))
    have digits : (w.digits : ℚ) ≤ 10 ^ (k + 1) := by exact_mod_cast few.le
    calc w.value ≤ 10 ^ (k + 1) * 10 ^ w.exponent := by rw [Written.value]; gcongr
      _ = 10 ^ ((k + 1 : ℕ) + w.exponent) := by rw [zpow_add₀ (by norm_num), zpow_natCast]
      _ ≤ 10 ^ e := zpow_le_zpow_right₀ (by norm_num) (by push_cast; omega)
      _ = _ := power.symm

/-- A decimal that is read as the number, has no more digits than any other, and is the closest one
of its grid. A power of ten stands for the single digit in front. -/
structure Shortest (x : Magnitude) (w : Written) : Prop where
  reads : w.bits = x.toBits
  fewest : ∀ v : Written, v.bits = x.toBits → ∀ n, 0 < n → v.digits < 10 ^ n → w.digits ≤ 10 ^ n
  closest : ∀ d : ℕ, Written.bits ⟨d, w.exponent⟩ = x.toBits →
    |w.value - x.value| ≤ |Written.value ⟨d, w.exponent⟩ - x.value|

/-- The search finds the shortest decimal. -/
theorem Finite.shortest (hx : x.Finite) (some : 0 < x.m) : Shortest x x.shortest := by
  have leading := leadingExponent_le (numerator_pos some) x.denominator_pos
  have most := @lt_leadingExponent x.numerator _ x.denominator_pos
  rw [x.ratio] at leading most
  obtain ⟨k, ⟨exponent, neighbour, reads, closest⟩, empty⟩ := hx.shortest_found some
  generalize leadingExponent x.numerator x.denominator = e at leading most exponent neighbour closest empty
  refine ⟨reads, fun v hv n more few => ?_, fun d hd => ?_⟩
  · obtain ⟨p, rfl⟩ := Nat.exists_eq_succ_of_ne_zero more.ne'
    have early : k ≤ p := le_of_not_gt fun late => hx.onGrid_of_digits leading hv few (empty p late)
    have below : x.units (e - k) < 10 ^ (k + 1) := lt_of_not_ge fun large => by
      refine not_le_of_gt most ?_
      have reached := le_units.mp large
      have exponent : e + 1 = (k + 1 : ℕ) + (e - k) := by omega
      rwa [exponent, zpow_add₀ (by norm_num), zpow_natCast, ← Nat.cast_ofNat, ← Nat.cast_pow]
    calc x.shortest.digits ≤ 10 ^ (k + 1) := by omega
      _ ≤ 10 ^ (p + 1) := Nat.pow_le_pow_right (by decide) (Nat.succ_le_succ early)
  · rw [exponent] at hd ⊢
    have unit : (0 : ℚ) < 10 ^ (e - k) := by positivity
    have scaled (d : ℕ) : |(d : ℚ) - x.value / 10 ^ (e - k)| * 10 ^ (e - k) = |d * 10 ^ (e - k) - x.value| := by
      rw [← abs_of_pos unit, ← abs_mul, abs_of_pos unit, sub_mul, div_mul_cancel₀ _ unit.ne']
    have close := mul_le_mul_of_nonneg_right (closest d hd) unit.le
    rw [scaled, scaled] at close
    rwa [Written.value, exponent]

end Lox.Decimal.Magnitude
