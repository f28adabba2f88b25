import Lox.Token

/-! Programs as trees. Every reference to a variable, to `this` or to `super`
carries a mark: none as parsed, and later a number of its own, so that two equal
references at different places stay apart. -/

namespace Lox

/-- A name in a place where it is looked up or assigned. -/
structure Reference (μ : Type) where
  mark : μ
  name : Token

inductive Expr (μ : Type) where
  | literal (value : Literal)
  | grouping (inner : Expr μ)
  | unary (operator : Token) (right : Expr μ)
  | binary (left : Expr μ) (operator : Token) (right : Expr μ)
  | logical (left : Expr μ) (operator : Token) (right : Expr μ)
  | name (target : Reference μ)
  | assign (target : Reference μ) (value : Expr μ)
  | call (callee : Expr μ) (paren : Token) (arguments : List (Expr μ))
  | get (object : Expr μ) (property : Token)
  | set (object : Expr μ) (property : Token) (value : Expr μ)
  | this (keyword : Reference μ)
  | super (keyword : Reference μ) (method : Token)

/-- A named body with parameters: a function, or a method of a class. -/
structure Routine (σ : Type) where
  name : Token
  params : List Token
  body : List σ

inductive Stmt (μ : Type) where
  | expression (value : Expr μ)
  | print (value : Expr μ)
  | declare (name : Token) (initial : Option (Expr μ))
  | block (body : List (Stmt μ))
  | branch (condition : Expr μ) (yes : Stmt μ) (no : Option (Stmt μ))
  | loop (condition : Expr μ) (body : Stmt μ)
  | function (routine : Routine (Stmt μ))
  | leave (keyword : Token) (value : Option (Expr μ))
  | klass (name : Token) (parent : Option (Reference μ)) (methods : List (Routine (Stmt μ)))

/-- The method that runs when a class is called. -/
def initializerName : String := "init"

namespace Reference

def number (r : Reference Unit) (next : Nat) : Reference Nat × Nat := (⟨next, r.name⟩, next + 1)

end Reference

/-! Numbering gives the references of a tree successive marks, left to right. -/

mutual

def Expr.number : Expr Unit → Nat → Expr Nat × Nat
  | .literal value, n => (.literal value, n)
  | .grouping inner, n =>
    let (inner, n) := inner.number n
    (.grouping inner, n)
  | .unary operator right, n =>
    let (right, n) := right.number n
    (.unary operator right, n)
  | .binary left operator right, n =>
    let (left, n) := left.number n
    let (right, n) := right.number n
    (.binary left operator right, n)
  | .logical left operator right, n =>
    let (left, n) := left.number n
    let (right, n) := right.number n
    (.logical left operator right, n)
  | .name target, n =>
    let (target, n) := target.number n
    (.name target, n)
  | .assign target value, n =>
    let (target, n) := target.number n
    let (value, n) := value.number n
    (.assign target value, n)
  | .call callee paren arguments, n =>
    let (callee, n) := callee.number n
    let (arguments, n) := Expr.numberAll arguments n
    (.call callee paren arguments, n)
  | .get object property, n =>
    let (object, n) := object.number n
    (.get object property, n)
  | .set object property value, n =>
    let (object, n) := object.number n
    let (value, n) := value.number n
    (.set object property value, n)
  | .this keyword, n =>
    let (keyword, n) := keyword.number n
    (.this keyword, n)
  | .super keyword method, n =>
    let (keyword, n) := keyword.number n
    (.super keyword method, n)

def Expr.numberAll : List (Expr Unit) → Nat → List (Expr Nat) × Nat
  | [], n => ([], n)
  | e :: rest, n =>
    let (e, n) := e.number n
    let (rest, n) := Expr.numberAll rest n
    (e :: rest, n)

end

def Expr.number? : Option (Expr Unit) → Nat → Option (Expr Nat) × Nat
  | none, n => (none, n)
  | some e, n =>
    let (e, n) := e.number n
    (some e, n)

def Reference.number? : Option (Reference Unit) → Nat → Option (Reference Nat) × Nat
  | none, n => (none, n)
  | some r, n =>
    let (r, n) := r.number n
    (some r, n)

mutual

def Stmt.number : Stmt Unit → Nat → Stmt Nat × Nat
  | .expression value, n =>
    let (value, n) := value.number n
    (.expression value, n)
  | .print value, n =>
    let (value, n) := value.number n
    (.print value, n)
  | .declare name initial, n =>
    let (initial, n) := Expr.number? initial n
    (.declare name initial, n)
  | .block body, n =>
    let (body, n) := Stmt.numberAll body n
    (.block body, n)
  | .branch condition yes no, n =>
    let (condition, n) := condition.number n
    let (yes, n) := yes.number n
    let (no, n) := Stmt.number? no n
    (.branch condition yes no, n)
  | .loop condition body, n =>
    let (condition, n) := condition.number n
    let (body, n) := body.number n
    (.loop condition body, n)
  | .function routine, n =>
    let (routine, n) := Routine.number routine n
    (.function routine, n)
  | .leave keyword value, n =>
    let (value, n) := Expr.number? value n
    (.leave keyword value, n)
  | .klass name parent methods, n =>
    let (parent, n) := Reference.number? parent n
    let (methods, n) := Routine.numberAll methods n
    (.klass name parent methods, n)

def Stmt.number? : Option (Stmt Unit) → Nat → Option (Stmt Nat) × Nat
  | none, n => (none, n)
  | some s, n =>
    let (s, n) := s.number n
    (some s, n)

def Stmt.numberAll : List (Stmt Unit) → Nat → List (Stmt Nat) × Nat
  | [], n => ([], n)
  | s :: rest, n =>
    let (s, n) := s.number n
    let (rest, n) := Stmt.numberAll rest n
    (s :: rest, n)

def Routine.number : Routine (Stmt Unit) → Nat → Routine (Stmt Nat) × Nat
  | ⟨name, params, body⟩, n =>
    let (body, n) := Stmt.numberAll body n
    (⟨name, params, body⟩, n)

def Routine.numberAll : List (Routine (Stmt Unit)) → Nat → List (Routine (Stmt Nat)) × Nat
  | [], n => ([], n)
  | r :: rest, n =>
    let (r, n) := Routine.number r n
    let (rest, n) := Routine.numberAll rest n
    (r :: rest, n)

end

end Lox
