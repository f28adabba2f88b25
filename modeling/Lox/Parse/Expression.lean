import Lox.Parse

/-! Expressions, from assignment down to single operands. Each level is given the
reader for whole expressions, which it uses behind a token that it has taken. -/

namespace Lox.Parse

/-- Operands joined by operators of one level, grouped to the left. -/
def joined (operator : Kind → Bool) (join : Expr Unit → Token → Expr Unit → Expr Unit)
    (operand : Parse (Expr Unit)) : Expr Unit → List Token → Parse (Expr Unit)
  | left, [] => pure left
  | left, _ :: bound => do
    match ← take? operator with
    | some op =>
      let right ← operand
      joined operator join operand (join left op right) bound
    | none => pure left

/-- A level of operators that group to the left. Each round takes an operator. -/
def level (operator : Kind → Bool) (join : Expr Unit → Token → Expr Unit → Expr Unit)
    (operand : Parse (Expr Unit)) : Parse (Expr Unit) := do
  let left ← operand
  bounded (joined operator join operand left)

variable (expression : Parse (Expr Unit))

/-- The operand that a token begins, if it begins one. -/
def operandFrom? (t : Token) : Option (Parse (Expr Unit)) :=
  match t.kind with
  | .kwFalse => some (pure (.literal (.bool false)))
  | .kwTrue => some (pure (.literal (.bool true)))
  | .kwNil => some (pure (.literal .nil))
  | .number | .string => some (pure (.literal (t.literal.getD .nil)))
  | .kwThis => some (pure (.this ⟨(), t⟩))
  | .identifier => some (pure (.name ⟨(), t⟩))
  | .kwSuper => some do
    let _ ← expect .dot .noSuperDot
    let method ← expect .identifier .noSuperMethod
    pure (.super ⟨(), t⟩ method)
  | .leftParen => some do
    let inner ← expression
    let _ ← expect .rightParen .openGrouping
    pure (.grouping inner)
  | _ => none

def primary : Parse (Expr Unit) := choose (operandFrom? expression) (reject .noExpression)

/-- Calls and property accesses behind an operand. -/
def suffixes : Expr Unit → List Token → Parse (Expr Unit)
  | operand, [] => pure operand
  | operand, _ :: bound => do
    match ← take? (· == .leftParen) with
    | some _ =>
      let arguments ← parenthesised .arguments expression
      let paren ← expect .rightParen .openArgumentList
      suffixes (.call operand paren arguments) bound
    | none =>
      match ← take? (· == .dot) with
      | some _ =>
        let property ← expect .identifier .noPropertyName
        suffixes (.get operand property) bound
      | none => pure operand

def call : Parse (Expr Unit) := do
  let operand ← primary expression
  bounded (suffixes expression operand)

def isUnary (k : Kind) : Bool := k == .bang || k == .minus

/-- The operators in front of an operand. -/
def unaryOperators : Parse (List Token) := fun tokens =>
  ⟨some (tokens.takeWhile (isUnary ·.kind)), tokens.dropWhile (isUnary ·.kind), []⟩

/-- The operator next to the operand applies first. -/
def unary : Parse (Expr Unit) := do
  let operators ← unaryOperators
  let operand ← call expression
  pure (operators.foldr .unary operand)

def factor : Parse (Expr Unit) := level (fun k => k == .slash || k == .star) .binary (unary expression)

def term : Parse (Expr Unit) := level (fun k => k == .minus || k == .plus) .binary (factor expression)

def comparison : Parse (Expr Unit) :=
  level (fun k => k == .greater || k == .greaterEqual || k == .less || k == .lessEqual) .binary
    (term expression)

def equality : Parse (Expr Unit) :=
  level (fun k => k == .bangEqual || k == .equalEqual) .binary (comparison expression)

def conjunction : Parse (Expr Unit) := level (· == .kwAnd) .logical (equality expression)

def disjunction : Parse (Expr Unit) := level (· == .kwOr) .logical (conjunction expression)

/-- Assignment groups to the right. A target that cannot be assigned is reported,
and stands for the whole expression. -/
def assignment : Parse (Expr Unit) := do
  let target ← disjunction expression
  match ← take? (· == .equal) with
  | none => pure target
  | some equals =>
    let value ← expression
    match target with
    | .name place => pure (.assign place value)
    | .get object property => pure (.set object property value)
    | _ =>
      report .badTarget (some equals)
      pure target

/-- An expression in which others are nested, one deeper than the bound is long. -/
def expressionWithin : List Token → Parse (Expr Unit)
  | [] => assignment (reject .noExpression)
  | _ :: bound => fun tokens => assignment (expressionWithin bound) tokens

/-- Each nested expression stands behind a token of its own, so no expression is
nested deeper than there are tokens. -/
def wholeExpression : Parse (Expr Unit) := bounded expressionWithin

end Lox.Parse
