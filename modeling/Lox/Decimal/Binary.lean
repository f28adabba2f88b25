/-! Doubles as exact numbers. A finite double without its sign is `m * 2 ^ q`,
and `nearest` rounds an exact fraction to the bits of such a number: to the
closest one, a tie to the even mantissa, and to infinity beyond the largest. -/

namespace Lox.Decimal

/-- The number `m * 2 ^ q`. -/
structure Magnitude where
  m : Nat
  q : Int
deriving DecidableEq, Repr

/-- The bits of infinity, above those of every finite magnitude. -/
def infinityBits : Nat := 2047 * Nat.pow 2 52

namespace Magnitude

/-- The bits of a finite double with the sign removed. The least exponent serves
both the subnormal numbers and the first normal ones. -/
def ofBits (bits : Nat) : Magnitude :=
  let exponent : Nat := bits / Nat.pow 2 52
  if exponent = 0 then ⟨bits, -1074⟩
  else ⟨Nat.pow 2 52 + bits % Nat.pow 2 52, exponent - 1075⟩

/-- A mantissa of 53 bits carries its leading bit into the exponent field, so one
sum packs subnormal and normal numbers, and a mantissa rounded up to `2 ^ 53` too. -/
def toBits (x : Magnitude) : Nat := (x.q + 1074).toNat * Nat.pow 2 52 + x.m

def numerator (x : Magnitude) : Nat := x.m * Nat.pow 2 x.q.toNat

def denominator (x : Magnitude) : Nat := Nat.pow 2 (-x.q).toNat

def isIntegral (x : Magnitude) : Bool := x.numerator % x.denominator == 0

end Magnitude

/-- Quotient rounded to the nearest integer, a tie to the even one. -/
def roundDiv (num den : Nat) : Nat :=
  let q := num / den
  let r := num % den
  if 2 * r < den then q
  else if den < 2 * r then q + 1
  else q + q % 2

/-- The binary exponent at which `num / den` has a mantissa of 53 bits, or the
least exponent of a double. The estimate from the logarithms is at most one low. -/
def unitExponent (num den : Nat) : Int :=
  let low : Int := max ((num.log2 : Int) - den.log2 - 53) (-1074)
  if Nat.pow 2 53 ≤ num * Nat.pow 2 (-low).toNat / (den * Nat.pow 2 low.toNat) then low + 1 else low

/-- The bits of the double nearest to `num / den`. -/
def nearest (num den : Nat) : Nat :=
  if num = 0 then 0
  else
    let q := unitExponent num den
    let m := roundDiv (num * Nat.pow 2 (-q).toNat) (den * Nat.pow 2 q.toNat)
    min (Magnitude.toBits ⟨m, q⟩) infinityBits

theorem nearest_zero (den : Nat) : nearest 0 den = 0 := by simp [nearest]

end Lox.Decimal
