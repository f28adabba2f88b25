import Mathlib.Algebra.Order.Field.Power
import Mathlib.Algebra.Order.Floor.Semifield
import Mathlib.Algebra.Order.Ring.Rat
import Mathlib.Data.Nat.Log
import Mathlib.Data.Rat.Floor
import Mathlib.Tactic.FieldSimp
import Mathlib.Tactic.Linarith
import Mathlib.Tactic.Positivity
import Mathlib.Tactic.Ring
import Lox.Decimal.Binary

/-! # Exact fractions as doubles

What a fraction is rounded to is the closest of all doubles, and a tie goes to the even one. So it
depends on the value of the fraction only, and a value that a double has is rounded to that double. -/

namespace Lox.Decimal

/-- What is written as a numerator and a denominator has a power of the base as a factor. -/
theorem scaled_ratio {b : ℕ} (hb : 0 < b) (num den : ℕ) (q : ℤ) :
    ((num * Nat.pow b (-q).toNat : ℕ) : ℚ) / (den * Nat.pow b q.toNat : ℕ) = num / den / (b : ℚ) ^ q := by
  have pos : (b : ℚ) ≠ 0 := by positivity
  rcases Int.le_total 0 q with h | h
  · obtain ⟨n, rfl⟩ := Int.eq_ofNat_of_zero_le h
    have none : (-(n : ℤ)).toNat = 0 := by omega
    rw [none]
    simp [div_div]
  · obtain ⟨n, hn⟩ := Int.eq_ofNat_of_zero_le (Int.neg_nonneg_of_nonpos h)
    obtain rfl : q = -n := by omega
    have none : (-(n : ℤ)).toNat = 0 := by omega
    rw [none, neg_neg, Int.toNat_natCast, zpow_neg, zpow_natCast, div_inv_eq_mul]
    simp only [Nat.pow_eq, pow_zero, mul_one, Nat.cast_mul, Nat.cast_pow]
    exact mul_div_right_comm ..

theorem scaled_pos {b den : ℕ} (hb : 0 < b) (hd : 0 < den) (q : ℤ) : 0 < den * Nat.pow b q.toNat :=
  Nat.mul_pos hd (Nat.pow_pos hb)

namespace Magnitude

def value (x : Magnitude) : ℚ := x.m * 2 ^ x.q

theorem ratio (x : Magnitude) : (x.numerator : ℚ) / x.denominator = x.value := by
  have scaled := scaled_ratio (b := 2) (by decide) x.m 1 (-x.q)
  rw [neg_neg, Nat.one_mul] at scaled
  rw [numerator, denominator, scaled, value]
  simp

end Magnitude

/-! ## The exponent of the unit -/

/-- Units of `2 ^ q` are as fine as a mantissa of 53 bits allows for a value, or the finest. -/
structure Scale (v : ℚ) (q : ℤ) : Prop where
  least : -1074 ≤ q
  above : v < 2 ^ (q + 53)
  below : q = -1074 ∨ 2 ^ (q + 52) ≤ v

theorem log2_bounds {n : ℕ} (h : 0 < n) : (2 : ℚ) ^ (n.log2 : ℤ) ≤ n ∧ (n : ℚ) < 2 ^ ((n.log2 : ℤ) + 1) := by
  have low := Nat.log2_self_le (Nat.pos_iff_ne_zero.mp h)
  have high := Nat.lt_log2_self (n := n)
  refine ⟨by exact_mod_cast low, ?_⟩
  exact_mod_cast high

theorem ratio_bounds {num den : ℕ} (hn : 0 < num) (hd : 0 < den) :
    (2 : ℚ) ^ ((num.log2 : ℤ) - den.log2 - 1) ≤ num / den ∧
      (num : ℚ) / den < 2 ^ ((num.log2 : ℤ) - den.log2 + 1) := by
  obtain ⟨lowN, highN⟩ := log2_bounds hn
  obtain ⟨lowD, highD⟩ := log2_bounds hd
  have pos : (0 : ℚ) < den := by exact_mod_cast hd
  constructor
  · rw [le_div_iff₀ pos]
    calc (2 : ℚ) ^ ((num.log2 : ℤ) - den.log2 - 1) * den
        ≤ 2 ^ ((num.log2 : ℤ) - den.log2 - 1) * 2 ^ ((den.log2 : ℤ) + 1) := by gcongr
      _ = 2 ^ (num.log2 : ℤ) := by rw [← zpow_add₀ (by norm_num)]; congr 1; ring
      _ ≤ num := lowN
  · rw [div_lt_iff₀ pos]
    calc (num : ℚ) < 2 ^ ((num.log2 : ℤ) + 1) := highN
      _ = 2 ^ ((num.log2 : ℤ) - den.log2 + 1) * 2 ^ (den.log2 : ℤ) := by
        rw [← zpow_add₀ (by norm_num)]; congr 1; ring
      _ ≤ 2 ^ ((num.log2 : ℤ) - den.log2 + 1) * den := by gcongr

/-- A whole number is below a quotient if it is below the fraction. -/
theorem le_quotient {k num den : ℕ} (hd : 0 < den) : k ≤ num / den ↔ (k : ℚ) ≤ num / den := by
  rw [Nat.le_div_iff_mul_le hd, le_div_iff₀ (by exact_mod_cast hd)]
  exact_mod_cast Iff.rfl

theorem unitExponent_scale {num den : ℕ} (hn : 0 < num) (hd : 0 < den) :
    Scale ((num : ℚ) / den) (unitExponent num den) := by
  obtain ⟨above, below⟩ := ratio_bounds hn hd
  have two {p q : ℤ} (h : p ≤ q) : (2 : ℚ) ^ p ≤ 2 ^ q := zpow_le_zpow_right₀ (by norm_num) h
  unfold unitExponent
  generalize (num.log2 : ℤ) - den.log2 = magnitude at above below
  have least : -1074 ≤ max (magnitude - 53) (-1074) := le_max_right _ _
  have estimate : magnitude - 53 ≤ max (magnitude - 53) (-1074) := le_max_left _ _
  have either : max (magnitude - 53) (-1074) = magnitude - 53 ∨ max (magnitude - 53) (-1074) = -1074 := max_choice _ _
  generalize max (magnitude - 53) (-1074) = low at least estimate either
  -- the mantissa would have more than 53 bits if the value is at least `2 ^ (low + 53)`
  have high : Nat.pow 2 53 ≤ num * Nat.pow 2 (-low).toNat / (den * Nat.pow 2 low.toNat) ↔
      (2 : ℚ) ^ (low + 53) ≤ num / den := by
    have scaled := scaled_ratio (b := 2) (by decide) num den low
    rw [le_quotient (scaled_pos (by decide) hd low), scaled, le_div_iff₀ (by positivity),
      zpow_add₀ (by norm_num), mul_comm]
    norm_num
  dsimp only
  split
  · rename_i large
    have reached := high.mp large
    exact ⟨by omega, lt_of_lt_of_le below (two (by omega)), .inr (le_trans (two (by omega)) reached)⟩
  · rename_i small
    refine ⟨least, lt_of_not_ge fun reached => small (high.mpr reached), ?_⟩
    rcases either with same | same
    · exact .inr (le_trans (two (by omega)) above)
    · exact .inl same

/-! ## Finite doubles -/

namespace Magnitude

/-- A mantissa and an exponent that bits stand for: the exponent is the least one that will do. -/
structure Canonical (x : Magnitude) : Prop where
  mantissa : x.m < 2 ^ 53
  least : -1074 ≤ x.q
  normal : x.q = -1074 ∨ 2 ^ 52 ≤ x.m

structure Finite (x : Magnitude) : Prop extends x.Canonical where
  most : x.q ≤ 971

theorem ofBits_canonical (bits : ℕ) : (ofBits bits).Canonical := by
  have rest : bits % 2 ^ 52 < 2 ^ 52 := Nat.mod_lt _ (by decide)
  unfold ofBits
  simp only [Nat.pow_eq]
  split
  · exact ⟨by dsimp only; omega, Int.le_refl _, .inl rfl⟩
  · exact ⟨by dsimp only; omega, by dsimp only; omega, .inr (by dsimp only; omega)⟩

theorem ofBits_finite {bits : ℕ} (h : bits < infinityBits) : (ofBits bits).Finite := by
  have field : bits / 2 ^ 52 < 2047 := Nat.div_lt_of_lt_mul (by rwa [Nat.mul_comm])
  refine { ofBits_canonical bits with most := ?_ }
  unfold ofBits
  simp only [Nat.pow_eq]
  split <;> dsimp only <;> omega

theorem toBits_ofBits (bits : ℕ) : (ofBits bits).toBits = bits := by
  unfold ofBits
  simp only [Nat.pow_eq]
  split
  · simp [toBits]
  · simp only [toBits, Nat.pow_eq]
    omega

theorem toBits_succ (m : ℕ) (q : ℤ) : toBits ⟨m + 1, q⟩ = toBits ⟨m, q⟩ + 1 :=
  (Nat.add_assoc ..).symm

theorem Finite.toBits_lt {x : Magnitude} (h : x.Finite) : x.toBits < infinityBits := by
  obtain ⟨⟨mantissa, least, -⟩, most⟩ := h
  simp only [toBits, infinityBits, Nat.pow_eq]
  omega

end Magnitude

/-! ## Rows of doubles -/

/-- What bits are worth. Those of infinity are worth the power of two behind the largest double. -/
def bitsValue (bits : ℕ) : ℚ := (Magnitude.ofBits bits).value

/-- Mantissas up to `2 ^ 53` are told from the bits, the last one as the first of the next exponent. -/
theorem bitsValue_toBits {m : ℕ} {q : ℤ} (mantissa : m ≤ 2 ^ 53) (least : -1074 ≤ q)
    (normal : q = -1074 ∨ 2 ^ 52 ≤ m) : bitsValue (Magnitude.toBits ⟨m, q⟩) = m * 2 ^ q := by
  obtain ⟨n, rfl⟩ : ∃ n : ℕ, q = n - 1074 := ⟨(q + 1074).toNat, by omega⟩
  have bits : Magnitude.toBits ⟨m, (n : ℤ) - 1074⟩ = n * 2 ^ 52 + m := by
    simp [Magnitude.toBits]
  have field : ((n * 2 ^ 52 + m) / 2 ^ 52 = 0 ∧ n = 0) ∨
      ((n * 2 ^ 52 + m) / 2 ^ 52 = n + 1 ∧ 2 ^ 52 ≤ m ∧ m < 2 ^ 53) ∨
      ((n * 2 ^ 52 + m) / 2 ^ 52 = n + 2 ∧ m = 2 ^ 53) := by omega
  rw [bits, bitsValue, Magnitude.ofBits]
  simp only [Nat.pow_eq]
  rcases field with ⟨zero, rfl⟩ | ⟨one, low, high⟩ | ⟨two, rfl⟩
  · rw [if_pos zero]
    simp [Magnitude.value]
  · rw [if_neg (by omega), one, Magnitude.value]
    have rest : 2 ^ 52 + (n * 2 ^ 52 + m) % 2 ^ 52 = m := by omega
    have exponent : ((n + 1 : ℕ) : ℤ) - 1075 = n - 1074 := by omega
    dsimp only
    rw [rest, exponent]
  · have rest : 2 ^ 52 + (n * 2 ^ 52 + 2 ^ 53) % 2 ^ 52 = 2 ^ 52 := by omega
    have exponent : ((n + 2 : ℕ) : ℤ) - 1075 = n - 1074 + 1 := by omega
    rw [if_neg (by omega), two, Magnitude.value]
    dsimp only
    rw [rest, exponent, zpow_add_one₀ (by norm_num)]
    push_cast
    ring

/-- The next bits are worth a unit more. -/
theorem bitsValue_succ (bits : ℕ) : bitsValue (bits + 1) = bitsValue bits + 2 ^ (Magnitude.ofBits bits).q := by
  obtain ⟨mantissa, least, normal⟩ := Magnitude.ofBits_canonical bits
  have next : bits + 1 = Magnitude.toBits ⟨(Magnitude.ofBits bits).m + 1, (Magnitude.ofBits bits).q⟩ := by
    rw [Magnitude.toBits_succ, Magnitude.toBits_ofBits]
  rw [next, bitsValue_toBits mantissa least (normal.imp id Nat.le_succ_of_le), bitsValue, Magnitude.value]
  push_cast
  ring

theorem bitsValue_strictMono : StrictMono bitsValue :=
  strictMono_nat_of_lt_succ fun bits => by
    rw [bitsValue_succ]
    exact lt_add_of_pos_right _ (by positivity)

/-! ## The closest double -/

section Closest

variable {s t v w : ℚ} {bits a b : ℕ}

theorem above_closer_iff (h : s < t) : |t - v| ≤ |s - v| ↔ s + t ≤ 2 * v := by
  constructor <;> intro <;> rcases abs_cases (t - v) with ⟨_, _⟩ | ⟨_, _⟩ <;>
    rcases abs_cases (s - v) with ⟨_, _⟩ | ⟨_, _⟩ <;> linarith

theorem below_closer_iff (h : s < t) : |s - v| ≤ |t - v| ↔ 2 * v ≤ s + t := by
  constructor <;> intro <;> rcases abs_cases (t - v) with ⟨_, _⟩ | ⟨_, _⟩ <;>
    rcases abs_cases (s - v) with ⟨_, _⟩ | ⟨_, _⟩ <;> linarith

/-- Bits that a value is rounded to: no others are closer to it, and if others are as close, then
these are the even ones. -/
structure Rounds (v : ℚ) (bits : ℕ) : Prop where
  bounded : bits ≤ infinityBits
  closest : ∀ other ≤ infinityBits, |bitsValue bits - v| ≤ |bitsValue other - v|
  even : ∀ other ≤ infinityBits, other ≠ bits → |bitsValue other - v| ≤ |bitsValue bits - v| → bits % 2 = 0

/-- A larger value is not rounded to less. -/
theorem Rounds.mono (ha : Rounds v a) (hb : Rounds w b) (h : v ≤ w) : a ≤ b := by
  refine le_of_not_gt fun less => ?_
  have order := bitsValue_strictMono less
  have high := (above_closer_iff order).mp (ha.closest b hb.bounded)
  have low := (below_closer_iff order).mp (hb.closest a ha.bounded)
  -- both values are in the middle, so the bits are even, and what is between them is closer
  have evenA := ha.even b hb.bounded (Nat.ne_of_lt less) ((below_closer_iff order).mpr (by linarith))
  have evenB := hb.even a ha.bounded (Nat.ne_of_gt less) ((above_closer_iff order).mpr (by linarith))
  have between : b + 1 < a := by omega
  have belowA := bitsValue_strictMono between
  have aboveB := bitsValue_strictMono (Nat.lt_succ_self b)
  have closer := (above_closer_iff belowA).mp (ha.closest (b + 1) (Nat.le_trans between.le ha.bounded))
  linarith

theorem Rounds.unique (ha : Rounds v a) (hb : Rounds v b) : a = b :=
  Nat.le_antisymm (ha.mono hb le_rfl) (hb.mono ha le_rfl)

/-- The middles between bits and all the others decide whether a value is rounded to the bits. -/
theorem Rounds.of_middles (bounded : bits ≤ infinityBits)
    (below : ∀ other < bits, bitsValue other + bitsValue bits ≤ 2 * v)
    (above : ∀ other ≤ infinityBits, bits < other → 2 * v ≤ bitsValue bits + bitsValue other)
    (even : ∀ other ≤ infinityBits, other ≠ bits → bitsValue other + bitsValue bits = 2 * v → bits % 2 = 0) :
    Rounds v bits where
  bounded := bounded
  closest other ho := by
    rcases lt_trichotomy other bits with less | rfl | more
    · exact (above_closer_iff (bitsValue_strictMono less)).mpr (below other less)
    · exact le_rfl
    · exact (below_closer_iff (bitsValue_strictMono more)).mpr (above other ho more)
  even other ho apart near := by
    refine even other ho apart ?_
    rcases Nat.lt_or_gt_of_ne apart with less | more
    · exact le_antisymm (below other less) ((below_closer_iff (bitsValue_strictMono less)).mp near)
    · rw [add_comm]
      exact le_antisymm ((above_closer_iff (bitsValue_strictMono more)).mp near) (above other ho more)

/-- The lower one of two neighbours. -/
theorem Rounds.down (low : bitsValue b ≤ v) (room : b < infinityBits)
    (half : 2 * v < bitsValue b + bitsValue (b + 1) ∨ 2 * v = bitsValue b + bitsValue (b + 1) ∧ b % 2 = 0) :
    Rounds v b := by
  have middle : 2 * v ≤ bitsValue b + bitsValue (b + 1) := half.elim le_of_lt fun tie => le_of_eq tie.1
  have next {other : ℕ} (h : b < other) : bitsValue (b + 1) ≤ bitsValue other := bitsValue_strictMono.monotone h
  refine .of_middles room.le (fun other less => ?_) (fun other _ more => ?_) (fun other _ apart tie => ?_)
  · have := bitsValue_strictMono less
    linarith
  · have := next more
    linarith
  · rcases Nat.lt_or_gt_of_ne apart with less | more
    · have := bitsValue_strictMono less
      linarith
    · have := next more
      exact (half.resolve_left (by linarith)).2

/-- The upper one. -/
theorem Rounds.up (high : v ≤ bitsValue (b + 1)) (room : b < infinityBits)
    (half : bitsValue b + bitsValue (b + 1) < 2 * v ∨ bitsValue b + bitsValue (b + 1) = 2 * v ∧ (b + 1) % 2 = 0) :
    Rounds v (b + 1) := by
  have middle : bitsValue b + bitsValue (b + 1) ≤ 2 * v := half.elim le_of_lt fun tie => le_of_eq tie.1
  have last {other : ℕ} (h : other < b + 1) : bitsValue other ≤ bitsValue b :=
    bitsValue_strictMono.monotone (Nat.le_of_lt_succ h)
  refine .of_middles room (fun other less => ?_) (fun other _ more => ?_) (fun other _ apart tie => ?_)
  · have := last less
    linarith
  · have := bitsValue_strictMono more
    linarith
  · rcases Nat.lt_or_gt_of_ne apart with less | more
    · have := last less
      exact (half.resolve_left (by linarith)).2
    · have := bitsValue_strictMono more
      linarith

/-- Whatever is not below infinity is rounded to it. -/
theorem Rounds.infinity (high : bitsValue infinityBits ≤ v) : Rounds v infinityBits := by
  refine .of_middles le_rfl (fun other less => ?_) (fun other ho more => ?_) fun _ _ _ _ => by decide
  · have := bitsValue_strictMono less
    linarith
  · exact absurd more (Nat.not_lt.mpr ho)

/-- The value of bits is rounded to the bits. -/
theorem Rounds.exact (room : b < infinityBits) : Rounds (bitsValue b) b :=
  .down le_rfl room (.inl (by linarith [bitsValue_strictMono (Nat.lt_succ_self b)]))

end Closest

/-! ## Rounding a fraction -/

/-- Rounding to a whole number: down below the middle, up above it, and in the middle to the even one. -/
inductive Rounded (x : ℚ) : ℕ → Prop
  | down (half : 2 * x < ⌊x⌋₊ + (⌊x⌋₊ + 1) ∨ 2 * x = ⌊x⌋₊ + (⌊x⌋₊ + 1) ∧ ⌊x⌋₊ % 2 = 0) : Rounded x ⌊x⌋₊
  | up (half : ⌊x⌋₊ + (⌊x⌋₊ + 1) < 2 * x ∨ ⌊x⌋₊ + (⌊x⌋₊ + 1) = 2 * x ∧ (⌊x⌋₊ + 1) % 2 = 0) : Rounded x (⌊x⌋₊ + 1)

/-- Of the whole numbers from below a value rounded down is the closest one. -/
theorem floor_closest {x : ℚ} (hx : 0 ≤ x) {d : ℕ} (h : d ≤ ⌊x⌋₊) : |(⌊x⌋₊ : ℚ) - x| ≤ |(d : ℚ) - x| := by
  rcases Nat.eq_or_lt_of_le h with rfl | less
  · exact le_rfl
  · have order : (d : ℚ) < ⌊x⌋₊ := by exact_mod_cast less
    exact (above_closer_iff order).mpr (by linarith [Nat.floor_le hx])

theorem floor_succ_closest {x : ℚ} {d : ℕ} (h : ⌊x⌋₊ + 1 ≤ d) : |((⌊x⌋₊ + 1 : ℕ) : ℚ) - x| ≤ |(d : ℚ) - x| := by
  rcases Nat.eq_or_lt_of_le h with rfl | more
  · exact le_rfl
  · have order : ((⌊x⌋₊ + 1 : ℕ) : ℚ) < d := by exact_mod_cast more
    have high := Nat.lt_floor_add_one x
    rw [below_closer_iff order]
    rw [Nat.cast_succ] at order ⊢
    linarith

theorem Rounded.closest {x : ℚ} {m : ℕ} (hm : Rounded x m) (hx : 0 ≤ x) (d : ℕ) :
    |(m : ℚ) - x| ≤ |(d : ℚ) - x| := by
  have order : (⌊x⌋₊ : ℚ) < (⌊x⌋₊ + 1 : ℕ) := by exact_mod_cast Nat.lt_succ_self _
  rcases Nat.lt_or_ge ⌊x⌋₊ d with more | less
  · refine le_trans ?_ (floor_succ_closest more)
    cases hm with
    | down half =>
      rw [below_closer_iff order, Nat.cast_succ]
      exact half.elim le_of_lt fun tie => tie.1.le
    | up => exact le_rfl
  · refine le_trans ?_ (floor_closest hx less)
    cases hm with
    | down => exact le_rfl
    | up half =>
      rw [above_closer_iff order, Nat.cast_succ]
      exact half.elim le_of_lt fun tie => tie.1.le

theorem roundDiv_rounded (num : ℕ) {den : ℕ} (hd : 0 < den) : Rounded ((num : ℚ) / den) (roundDiv num den) := by
  have pos : (0 : ℚ) < den := by exact_mod_cast hd
  have floor : ⌊(num : ℚ) / den⌋₊ = num / den := Nat.floor_div_eq_div num den
  have whole : (den : ℚ) * (num / den : ℕ) + (num % den : ℕ) = num := by exact_mod_cast Nat.div_add_mod num den
  have twice : 2 * (num / den : ℚ) = 2 * (num / den : ℕ) + (2 * (num % den : ℕ) : ℚ) / den := by
    rw [← whole]
    field_simp
  rw [roundDiv]
  split
  · rename_i less
    have below : (2 * (num % den : ℕ) : ℚ) / den < 1 := (div_lt_one pos).mpr (by exact_mod_cast less)
    rw [← floor]
    exact .down (.inl (by rw [twice, floor]; linarith))
  · split
    · rename_i more
      have above : 1 < (2 * (num % den : ℕ) : ℚ) / den := (one_lt_div pos).mpr (by exact_mod_cast more)
      rw [← floor]
      exact .up (.inl (by rw [twice, floor]; linarith))
    · have tie : 2 * (num % den) = den := by omega
      have one : (2 * (num % den : ℕ) : ℚ) / den = 1 := (div_eq_one_iff_eq pos.ne').mpr (by exact_mod_cast tie)
      rw [one] at twice
      rw [← floor] at twice ⊢
      rcases Nat.mod_two_eq_zero_or_one ⌊(num : ℚ) / den⌋₊ with even | odd
      · rw [even]
        exact .down (.inr ⟨by rw [twice]; ring, even⟩)
      · rw [odd]
        exact .up (.inr ⟨by rw [twice]; ring, by omega⟩)

section Units

variable {x : ℚ} {q : ℤ} {m : ℕ}

/-- The units of a value, rounded down, are a mantissa. -/
theorem Scale.canonical (h : Scale (x * 2 ^ q) q) : Magnitude.Canonical ⟨⌊x⌋₊, q⟩ := by
  have unit : (0 : ℚ) < 2 ^ q := by positivity
  refine ⟨(Nat.floor_lt' (by decide)).mpr ?_, h.least, h.below.imp id fun large => (Nat.le_floor_iff' (by decide)).mpr ?_⟩
  · have above := h.above
    rw [zpow_add₀ (by norm_num), mul_comm, mul_lt_mul_iff_right₀ unit] at above
    exact_mod_cast above
  · rw [zpow_add₀ (by norm_num), mul_comm, mul_le_mul_iff_left₀ unit] at large
    exact_mod_cast large

/-- A value is rounded to the double of its units, rounded to a whole number. -/
theorem Scale.rounds (h : Scale (x * 2 ^ q) q) (hx : 0 ≤ x) (hm : Rounded x m) :
    Rounds (x * 2 ^ q) (min (Magnitude.toBits ⟨m, q⟩) infinityBits) := by
  have unit : (0 : ℚ) < 2 ^ q := by positivity
  obtain ⟨(mantissa : ⌊x⌋₊ < 2 ^ 53), (least : -1074 ≤ q), (normal : q = -1074 ∨ 2 ^ 52 ≤ ⌊x⌋₊)⟩ := h.canonical
  have parity : Magnitude.toBits ⟨⌊x⌋₊, q⟩ % 2 = ⌊x⌋₊ % 2 := by
    simp only [Magnitude.toBits, Nat.pow_eq]
    omega
  have lower : bitsValue (Magnitude.toBits ⟨⌊x⌋₊, q⟩) = ⌊x⌋₊ * 2 ^ q := bitsValue_toBits mantissa.le least normal
  have upper : bitsValue (Magnitude.toBits ⟨⌊x⌋₊, q⟩ + 1) = (⌊x⌋₊ + 1) * 2 ^ q := by
    rw [← Magnitude.toBits_succ, bitsValue_toBits mantissa least (normal.imp id Nat.le_succ_of_le), Nat.cast_succ]
  have low : bitsValue (Magnitude.toBits ⟨⌊x⌋₊, q⟩) ≤ x * 2 ^ q := by
    rw [lower]
    gcongr
    exact Nat.floor_le hx
  by_cases most : q ≤ 971
  · have room : Magnitude.toBits ⟨⌊x⌋₊, q⟩ < infinityBits := Magnitude.Finite.toBits_lt ⟨h.canonical, most⟩
    cases hm with
    | down half =>
      rw [Nat.min_eq_left room.le]
      refine .down low room ?_
      rw [lower, upper, parity, ← mul_assoc, ← add_mul]
      exact half.imp (fun less => by gcongr) (And.imp (congrArg (· * (2 : ℚ) ^ q)) id)
    | up half =>
      rw [Magnitude.toBits_succ, Nat.min_eq_left room]
      refine .up (by rw [upper]; gcongr; exact (Nat.lt_floor_add_one x).le) room ?_
      rw [lower, upper, Nat.add_mod, parity, ← Nat.add_mod, ← mul_assoc, ← add_mul]
      exact half.imp (fun more => by gcongr) (And.imp (congrArg (· * (2 : ℚ) ^ q)) id)
  · have beyond : infinityBits ≤ Magnitude.toBits ⟨⌊x⌋₊, q⟩ := by
      simp only [Magnitude.toBits, infinityBits, Nat.pow_eq]
      omega
    have large : Magnitude.toBits ⟨⌊x⌋₊, q⟩ ≤ Magnitude.toBits ⟨m, q⟩ := by
      cases hm with
      | down => exact Nat.le_refl _
      | up => exact Nat.le_succ _
    rw [Nat.min_eq_right (beyond.trans large)]
    exact .infinity ((bitsValue_strictMono.monotone beyond).trans low)

end Units

/-- A fraction is rounded to the closest double, in the middle to the even one. -/
theorem nearest_rounds (num : ℕ) {den : ℕ} (hd : 0 < den) : Rounds ((num : ℚ) / den) (nearest num den) := by
  by_cases hn : num = 0
  · have zero : bitsValue 0 = 0 := by simp [bitsValue, Magnitude.ofBits, Magnitude.value]
    rw [hn, nearest_zero, Nat.cast_zero, zero_div, ← zero]
    exact .exact (by decide)
  · have scale := unitExponent_scale (Nat.pos_of_ne_zero hn) hd
    unfold nearest
    rw [if_neg hn]
    generalize unitExponent num den = q at scale
    have units := scaled_ratio (b := 2) (by decide) num den q
    have rounded := roundDiv_rounded (num * Nat.pow 2 (-q).toNat) (scaled_pos (b := 2) (by decide) hd q)
    rw [units, Nat.cast_ofNat] at rounded
    have value : (num : ℚ) / den = num / den / 2 ^ q * 2 ^ q := (div_mul_cancel₀ _ (by positivity)).symm
    rw [value] at scale ⊢
    exact scale.rounds (by positivity) rounded

theorem nearest_eq_iff {num den : ℕ} (hd : 0 < den) {bits : ℕ} :
    nearest num den = bits ↔ Rounds ((num : ℚ) / den) bits :=
  ⟨fun h => h ▸ nearest_rounds num hd, (nearest_rounds num hd).unique⟩

/-- The double that is nearest depends on the value only. -/
theorem nearest_congr {num den num' den' : ℕ} (hd : 0 < den) (hd' : 0 < den')
    (h : (num : ℚ) / den = num' / den') : nearest num den = nearest num' den' :=
  (nearest_eq_iff hd).mpr (h ▸ nearest_rounds num' hd')

/-- The value of a double is rounded to the double itself. -/
theorem Magnitude.Finite.rounds {x : Magnitude} (h : x.Finite) : Rounds x.value x.toBits := by
  have value : bitsValue x.toBits = x.value := bitsValue_toBits h.mantissa.le h.least h.normal
  rw [← value]
  exact .exact h.toBits_lt

theorem Magnitude.Finite.nearest_eq {x : Magnitude} (h : x.Finite) {num den : ℕ} (hd : 0 < den)
    (hv : (num : ℚ) / den = x.value) : nearest num den = x.toBits := by
  rw [nearest_eq_iff hd, hv]
  exact h.rounds

end Lox.Decimal
