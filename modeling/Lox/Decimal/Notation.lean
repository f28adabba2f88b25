import Lox.Decimal.Shortest

/-! How a decimal is laid out: digits around a point while the leading digit lies
between `10 ^ -4` and `10 ^ 15`, and a signed exponent of at least two digits
outside that range. A positional text always shows a point. -/

namespace Lox.Decimal.Notation

def zeros (n : Nat) : List Char := List.replicate n '0'

/-- Trailing zeros of a digit string carry no value once the point is placed. -/
def significant (digits : List Char) : List Char :=
  (digits.reverse.dropWhile (· == '0')).reverse

/-- Digits `d₀d₁…` standing for `d₀.d₁… * 10 ^ e`, with a point. -/
def positional (digits : List Char) (e : Int) : List Char :=
  if e < 0 then '0' :: '.' :: zeros ((-e).toNat - 1) ++ digits
  else
    let whole := e.toNat + 1
    if digits.length ≤ whole then digits ++ zeros (whole - digits.length) ++ ['.', '0']
    else digits.take whole ++ '.' :: digits.drop whole

def exponentText (e : Int) : List Char :=
  let digits := Nat.toDigits 10 e.natAbs
  (if e < 0 then '-' else '+') :: zeros (2 - digits.length) ++ digits

def scientific (digits : List Char) (e : Int) : List Char :=
  digits.take 1 ++ (if digits.length ≤ 1 then [] else '.' :: digits.drop 1) ++ 'e' :: exponentText e

/-- The text of a nonzero decimal. -/
def text (w : Written) : List Char :=
  let all := Nat.toDigits 10 w.digits
  let e := w.exponent + (all.length - 1 : Nat)
  let digits := significant all
  if -4 ≤ e ∧ e < 16 then positional digits e else scientific digits e

end Lox.Decimal.Notation
