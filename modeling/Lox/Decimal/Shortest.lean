import Lox.Decimal.Binary

/-! The fewest decimal digits that read back to a given magnitude. The grids
`10 ^ i` are tried from the leading digit downwards; on each one only the two
neighbours of the exact value can read back, because the numbers that do form
an interval around it. -/

namespace Lox.Decimal

/-- The decimal `digits * 10 ^ exponent`. -/
structure Written where
  digits : Nat
  exponent : Int
deriving DecidableEq, Repr

namespace Written

def numerator (w : Written) : Nat := w.digits * Nat.pow 10 w.exponent.toNat

def denominator (w : Written) : Nat := Nat.pow 10 (-w.exponent).toNat

/-- The bits of the double that the decimal is read as. -/
def bits (w : Written) : Nat := nearest w.numerator w.denominator

end Written

/-- How many factors ten lift `num / den` to one or more. -/
def tensBelow : Nat → Nat → Nat → Nat
  | 0, _, _ => 0
  | n + 1, num, den => if den ≤ num then 0 else tensBelow n (num * 10) den + 1

/-- The exponent of the leading decimal digit of `num / den`. -/
def leadingExponent (num den : Nat) : Int :=
  if den ≤ num then (Nat.toDigits 10 (num / den)).length - 1
  else -(tensBelow (den.log2 + 1) num den : Int)

namespace Magnitude

def readsBack (x : Magnitude) (w : Written) : Bool := w.bits == x.toBits

/-- The neighbour on the grid `10 ^ i` that reads back to `x`; of two, the nearer,
and the even one if they are equally near. -/
def onGrid (x : Magnitude) (i : Int) : Option Written :=
  let num := x.numerator * Nat.pow 10 (-i).toNat
  let den := x.denominator * Nat.pow 10 i.toNat
  let below : Written := ⟨num / den, i⟩
  let above : Written := ⟨num / den + 1, i⟩
  if x.readsBack below && x.readsBack above then some ⟨roundDiv num den, i⟩
  else if x.readsBack below then some below
  else if x.readsBack above then some above
  else none

/-- Every finite binary number has a finite decimal expansion. -/
def expansion (x : Magnitude) : Written :=
  ⟨x.numerator * Nat.pow 5 (-x.q).toNat, min x.q 0⟩

/-- Seventeen digits tell any two doubles apart; the full expansion closes the search. -/
def shortest (x : Magnitude) : Written :=
  let leading := leadingExponent x.numerator x.denominator
  ((List.range 17).findSome? fun (k : Nat) => x.onGrid (leading - k)).getD x.expansion

end Magnitude

end Lox.Decimal
