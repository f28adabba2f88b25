import Lox.Machine

/-! What operators make of their operands. -/

namespace Lox

/-- Negation applies to every value. Any other operator changes the sign of a number. -/
def Token.applyUnary (operator : Token) (right : Value) : Except RuntimeError Value :=
  if operator.kind == .bang then .ok (.bool !right.isTruthy)
  else
    match right with
    | .number x => .ok (.number (-x))
    | _ => .error ⟨operator, .operandNotNumber⟩

def Token.add (operator : Token) : Value → Value → Except RuntimeError Value
  | .number x, .number y => .ok (.number (x + y))
  | .string s, .string t => .ok (.string (s ++ t))
  | _, _ => .error ⟨operator, .operandsNotAddable⟩

/-- Operators that take two numbers. -/
def Token.arithmetic (operator : Token) (x y : Float) : Except RuntimeError Value :=
  match operator.kind with
  | .minus => .ok (.number (x - y))
  | .star => .ok (.number (x * y))
  | .slash => if y == 0 then .error ⟨operator, .divisionByZero⟩ else .ok (.number (x / y))
  | .greater => .ok (.bool (y < x))
  | .greaterEqual => .ok (.bool (y ≤ x))
  | .less => .ok (.bool (x < y))
  | .lessEqual => .ok (.bool (x ≤ y))
  | _ => .error ⟨operator, .unknownOperator⟩

def Token.applyBinary (operator : Token) (left right : Value) : Except RuntimeError Value :=
  match operator.kind with
  | .equalEqual => .ok (.bool (left.equal right))
  | .bangEqual => .ok (.bool !(left.equal right))
  | .plus => operator.add left right
  | _ =>
    match left, right with
    | .number x, .number y => operator.arithmetic x y
    | _, _ => .error ⟨operator, .operandsNotNumbers⟩

/-- Whether a logical operator settles on its left operand. -/
def Token.settles (operator : Token) (left : Value) : Bool :=
  if operator.kind == .kwOr then left.isTruthy else !left.isTruthy

end Lox
