import Lox.Decimal.Notation

/-! Numbers as they are read and written. A literal is read as the nearest
double. `literalText` writes the fewest digits that read back, always with a
point or an exponent; `display` writes an integral number with all its digits
and no point. -/

namespace Lox.Number
open Lox.Decimal

def isDigit (c : Char) : Bool := '0' ≤ c && c ≤ '9'

def digitValue (c : Char) : Nat := c.toNat - '0'.toNat

/-- The natural number that a row of decimal digits denotes. -/
def naturalOf (digits : List Char) : Nat :=
  digits.foldl (fun n c => 10 * n + digitValue c) 0

/-- The value of a literal: digits, perhaps with a point between two of them. -/
def read (literal : List Char) : Float :=
  let fraction := (literal.dropWhile isDigit).drop 1
  let digits := literal.takeWhile isDigit ++ fraction
  Float.ofBits (.ofNat (nearest (naturalOf digits) (Nat.pow 10 fraction.length)))

def isNegative (x : Float) : Bool := Nat.pow 2 63 ≤ x.toBits.toNat

/-- The bits of a number with its sign removed. -/
def unsignedBits (x : Float) : Nat := x.toBits.toNat % Nat.pow 2 63

def signText (x : Float) : List Char := if isNegative x then ['-'] else []

/-- The text of a finite number that is shown with a point or an exponent. -/
def pointed (bits : Nat) : List Char :=
  if bits = 0 then ['0', '.', '0'] else Notation.text (Magnitude.ofBits bits).shortest

/-- Texts of the values that are no numbers, and a signed text of all others. -/
def withSign (x : Float) (finite : Nat → List Char) : String :=
  if infinityBits < unsignedBits x then "nan"
  else if unsignedBits x = infinityBits then .ofList (signText x ++ ['i', 'n', 'f'])
  else .ofList (signText x ++ finite (unsignedBits x))

/-- The fewest digits that read back, with a point or an exponent. -/
def literalText (x : Float) : String := withSign x pointed

/-- An integral number in full, any other as `literalText` writes it. -/
def display (x : Float) : String :=
  withSign x fun bits =>
    let size := Magnitude.ofBits bits
    if size.isIntegral then Nat.toDigits 10 (size.numerator / size.denominator) else pointed bits

end Lox.Number
