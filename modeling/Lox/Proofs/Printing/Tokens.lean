import Lox.Proofs.Grammar.Expressions
import Lox.Proofs.WellFormed

/-! # Programs written back as tokens

A tree keeps the tokens that name something or stand for an operator, and a printer
puts the others back between them. It writes no parentheses but those of a grouping,
so it says what a tree means only if the tree is in the normal form of the grammar:
each operand binds at least as tightly as its place asks for. -/

namespace Lox

namespace Kind

/-- The lexeme of each kind that has only one. -/
def spelling? : Kind → Option String
  | leftParen => some "(" | rightParen => some ")"
  | leftBrace => some "\x7b" | rightBrace => some "\x7d"
  | comma => some "," | dot => some "." | minus => some "-" | plus => some "+"
  | semicolon => some ";" | slash => some "/" | star => some "*"
  | bang => some "!" | bangEqual => some "!=" | equal => some "=" | equalEqual => some "=="
  | greater => some ">" | greaterEqual => some ">=" | less => some "<" | lessEqual => some "<="
  | kwAnd => some "and" | kwClass => some "class" | kwElse => some "else" | kwFalse => some "false"
  | kwFun => some "fun" | kwFor => some "for" | kwIf => some "if" | kwNil => some "nil"
  | kwOr => some "or" | kwPrint => some "print" | kwReturn => some "return"
  | kwSuper => some "super" | kwThis => some "this" | kwTrue => some "true" | kwVar => some "var"
  | kwWhile => some "while"
  | eof => some ""
  | identifier | string | number => none

theorem looseness_of_isBinary : ∀ k : Kind, k.isBinary = true →
    1 ≤ k.looseness ∧ k.looseness ≤ 4 := by
  intro k
  cases k <;> decide

theorem looseness_of_isLogical : ∀ k : Kind, k.isLogical = true →
    5 ≤ k.looseness ∧ k.looseness ≤ 6 := by
  intro k
  cases k <;> decide

end Kind

namespace Token

/-- The token of a kind that is always spelled alike. -/
def plain (k : Kind) : Token := ⟨k, k.spelling?.getD "", none, 0⟩

/-- What a token says, wherever it is. The value of a literal may be spelled in many ways. -/
def reading (t : Token) : Kind × Option String × Option Literal :=
  if t.kind = .number ∨ t.kind = .string then (t.kind, none, t.literal)
  else (t.kind, some t.lexeme, none)

/-- The value that a token stands for as an expression. -/
def denotes? (t : Token) : Option Literal :=
  match t.kind with
  | .kwFalse => some (.bool false)
  | .kwTrue => some (.bool true)
  | .kwNil => some .nil
  | .number | .string => some (t.literal.getD .nil)
  | _ => none

/-- A token as it is made from a source: with the one lexeme of its kind, or with a
value of its kind. -/
structure Proper (t : Token) : Prop where
  spelling : ∀ s ∈ t.kind.spelling?, t.lexeme = s
  number : t.kind = .number → ∃ x, t.literal = some (.number x)
  string : t.kind = .string → ∃ s, t.literal = some (.string s)

end Token

def Literal.token : Literal → Token
  | .nil => .plain .kwNil
  | .bool true => .plain .kwTrue
  | .bool false => .plain .kwFalse
  | .number x => ⟨.number, Number.literalText x, some (.number x), 0⟩
  | .string s => ⟨.string, "\"" ++ s ++ "\"", some (.string s), 0⟩

/-- The elements of a list with commas between them. -/
def separated : List (List Token) → List Token
  | [] => []
  | [ts] => ts
  | ts :: us :: rest => ts ++ .plain .comma :: separated (us :: rest)

variable {μ : Type}

/-- How loosely an expression holds together. -/
def Expr.rank : Expr μ → Nat
  | .unary _ _ => 1
  | .binary _ operator _ | .logical _ operator _ => operator.kind.looseness + 1
  | .assign _ _ | .set _ _ _ => 8
  | _ => 0

/-- A statement whose last part is an `if` that could still be given an `else`. -/
def Stmt.endsOpen : Stmt μ → Bool
  | .branch _ _ none => true
  | .branch _ _ (some s) => s.endsOpen
  | .loop _ s => s.endsOpen
  | _ => false

mutual

def Expr.tokens : Expr μ → List Token
  | .literal value => [value.token]
  | .grouping inner => .plain .leftParen :: (inner.tokens ++ [.plain .rightParen])
  | .unary operator right => operator :: right.tokens
  | .binary left operator right | .logical left operator right =>
    left.tokens ++ operator :: right.tokens
  | .name target => [target.name]
  | .assign target value => target.name :: .plain .equal :: value.tokens
  | .call callee paren arguments =>
    callee.tokens ++ .plain .leftParen :: (separated (Expr.tokensOfEach arguments) ++ [paren])
  | .get object property => object.tokens ++ [.plain .dot, property]
  | .set object property value =>
    object.tokens ++ .plain .dot :: property :: .plain .equal :: value.tokens
  | .this keyword => [keyword.name]
  | .super keyword method => [keyword.name, .plain .dot, method]

def Expr.tokensOfEach : List (Expr μ) → List (List Token)
  | [] => []
  | e :: rest => e.tokens :: Expr.tokensOfEach rest

end

theorem Expr.tokensOfEach_eq (es : List (Expr μ)) : Expr.tokensOfEach es = es.map Expr.tokens := by
  induction es with
  | nil => rfl
  | cons e es ih => rw [Expr.tokensOfEach, ih, List.map_cons]

def Expr.tokens? : Option (Expr μ) → List Token
  | none => []
  | some e => e.tokens

def Reference.parentTokens : Option (Reference μ) → List Token
  | none => []
  | some r => [.plain .less, r.name]

mutual

def Stmt.tokens : Stmt μ → List Token
  | .expression value => value.tokens ++ [.plain .semicolon]
  | .print value => .plain .kwPrint :: (value.tokens ++ [.plain .semicolon])
  | .declare name none => [.plain .kwVar, name, .plain .semicolon]
  | .declare name (some value) =>
    .plain .kwVar :: name :: .plain .equal :: (value.tokens ++ [.plain .semicolon])
  | .block body => .plain .leftBrace :: (Stmt.allTokens body ++ [.plain .rightBrace])
  | .branch condition yes no =>
    .plain .kwIf :: .plain .leftParen :: (condition.tokens ++
      .plain .rightParen :: (yes.tokens ++ Stmt.elseTokens no))
  | .loop condition body =>
    .plain .kwWhile :: .plain .leftParen :: (condition.tokens ++ .plain .rightParen :: body.tokens)
  | .function routine => .plain .kwFun :: Routine.tokens routine
  | .leave keyword value => keyword :: (Expr.tokens? value ++ [.plain .semicolon])
  | .klass name parent methods =>
    .plain .kwClass :: name :: (Reference.parentTokens parent ++
      .plain .leftBrace :: (Routine.allTokens methods ++ [.plain .rightBrace]))

def Stmt.elseTokens : Option (Stmt μ) → List Token
  | none => []
  | some s => .plain .kwElse :: s.tokens

def Stmt.allTokens : List (Stmt μ) → List Token
  | [] => []
  | s :: rest => s.tokens ++ Stmt.allTokens rest

def Routine.tokens : Routine (Stmt μ) → List Token
  | ⟨name, params, body⟩ =>
    name :: .plain .leftParen :: (separated (params.map ([·])) ++
      .plain .rightParen :: .plain .leftBrace :: (Stmt.allTokens body ++ [.plain .rightBrace]))

def Routine.allTokens : List (Routine (Stmt μ)) → List Token
  | [] => []
  | r :: rest => Routine.tokens r ++ Routine.allTokens rest

end

/-! ## The normal form of the grammar -/

mutual

/-- Tokens are of the kinds that their nodes call for, and operands bind as tightly as
their places ask for. -/
def Expr.Normal : Expr μ → Prop
  | .literal _ => True
  | .grouping inner => inner.Normal
  | .unary operator right =>
    Parse.isUnary operator.kind = true ∧ right.Normal ∧ right.rank ≤ 1
  | .binary left operator right =>
    operator.kind.isBinary = true ∧ (left.Normal ∧ left.rank ≤ operator.kind.looseness + 1) ∧
      right.Normal ∧ right.rank ≤ operator.kind.looseness
  | .logical left operator right =>
    operator.kind.isLogical = true ∧ (left.Normal ∧ left.rank ≤ operator.kind.looseness + 1) ∧
      right.Normal ∧ right.rank ≤ operator.kind.looseness
  | .name target => target.name.kind = .identifier
  | .assign target value => target.name.kind = .identifier ∧ value.Normal
  | .call callee paren arguments =>
    (callee.Normal ∧ callee.rank = 0) ∧ paren.kind = .rightParen ∧ Expr.AllNormal arguments ∧
      arguments.length ≤ maxListed
  | .get object property => (object.Normal ∧ object.rank = 0) ∧ property.kind = .identifier
  | .set object property value =>
    (object.Normal ∧ object.rank = 0) ∧ property.kind = .identifier ∧ value.Normal
  | .this keyword => keyword.name.kind = .kwThis
  | .super keyword method => keyword.name.kind = .kwSuper ∧ method.kind = .identifier

def Expr.AllNormal : List (Expr μ) → Prop
  | [] => True
  | e :: rest => e.Normal ∧ Expr.AllNormal rest

end

def Expr.Normal? : Option (Expr μ) → Prop
  | none => True
  | some e => e.Normal

mutual

/-- Declarations stand in a program, a block or a body only, and the branch in front of
an `else` leaves no `if` that the `else` could belong to. -/
def Stmt.Normal : Stmt μ → Prop
  | .expression value | .print value => value.Normal
  | .declare name initial => name.kind = .identifier ∧ Expr.Normal? initial
  | .block body => Stmt.AllNormal body
  | .branch condition yes no =>
    condition.Normal ∧ (yes.Normal ∧ yes.declared? = none) ∧ Stmt.NormalElse no ∧
      (no.isSome = true → yes.endsOpen = false)
  | .loop condition body => condition.Normal ∧ body.Normal ∧ body.declared? = none
  | .function routine => Routine.Normal routine
  | .leave keyword value => keyword.kind = .kwReturn ∧ Expr.Normal? value
  | .klass name parent methods =>
    name.kind = .identifier ∧ (∀ r ∈ parent, r.name.kind = .identifier) ∧ Routine.AllNormal methods

def Stmt.NormalElse : Option (Stmt μ) → Prop
  | none => True
  | some s => s.Normal ∧ s.declared? = none

def Stmt.AllNormal : List (Stmt μ) → Prop
  | [] => True
  | s :: rest => s.Normal ∧ Stmt.AllNormal rest

def Routine.Normal : Routine (Stmt μ) → Prop
  | ⟨name, params, body⟩ =>
    name.kind = .identifier ∧ ((∀ p ∈ params, p.kind = .identifier) ∧ params.length ≤ maxListed) ∧
      Stmt.AllNormal body

def Routine.AllNormal : List (Routine (Stmt μ)) → Prop
  | [] => True
  | r :: rest => Routine.Normal r ∧ Routine.AllNormal rest

end

end Lox
