import Lox.Bindings
import Lox.Diagnostic
import Lox.Resolution.Table

/-! One pass over a program before it runs. It keeps the local scopes around the
point it has reached, records for each reference how many scopes outwards its
name is declared, and reports code that cannot mean anything. -/

namespace Lox

inductive ReferenceKind where
  | variable
  | assignment
  | this
  | super
deriving DecidableEq, Repr

structure Entry where
  kind : ReferenceKind
  reference : Reference Nat
  hops : Nat

inductive Misuse where
  | topLevelReturn
  | initializerValue
  | thisOutsideClass
  | superOutsideClass
  | superWithoutParent
  | selfInheritance
  | redeclaration
  | ownInitializer
deriving DecidableEq, Repr

def Misuse.message : Misuse → String
  | topLevelReturn => "Can't return from top-level code."
  | initializerValue => "Can't return a value from an initializer."
  | thisOutsideClass => "Can't use 'this' outside of a class."
  | superOutsideClass => "Can't use 'super' outside of a class."
  | superWithoutParent => "Can't use 'super' in a class with no superclass."
  | selfInheritance => "A class can't inherit from itself."
  | redeclaration => "Already a variable with this name in this scope."
  | ownInitializer => "Can't read local variable in its own initializer."

structure MisuseError where
  misuse : Misuse
  token : Token

def MisuseError.diagnostic (e : MisuseError) : Diagnostic :=
  ⟨e.token.line, e.token.place, e.misuse.message⟩

inductive RoutineContext where
  | none
  | function
  | initializer
  | method
deriving DecidableEq, Repr

inductive ClassContext where
  | none
  | klass
  | subclass
deriving DecidableEq, Repr

/-- The state of the pass. Local scopes are listed from the innermost outwards, and
say of each name declared so far whether its declaration is complete. -/
structure Walk where
  scopes : List (Bindings Bool)
  entries : Array Entry
  errors : Array MisuseError
  routine : RoutineContext
  klass : ClassContext

namespace Walk

def start : Walk := ⟨[], #[], #[], .none, .none⟩

def report (misuse : Misuse) (token : Token) (w : Walk) : Walk :=
  { w with errors := w.errors.push ⟨misuse, token⟩ }

def enter (w : Walk) : Walk := { w with scopes := .empty :: w.scopes }

/-- Enters a scope in which a name is already complete. -/
def enterWith (name : String) (w : Walk) : Walk :=
  { w with scopes := Bindings.empty.set name true :: w.scopes }

def exit (w : Walk) : Walk := { w with scopes := w.scopes.tail }

/-- Global names are not tracked, so outside all scopes nothing happens. -/
def mark (name : Token) (complete : Bool) (w : Walk) : Walk :=
  match w.scopes with
  | [] => w
  | scope :: outer => { w with scopes := scope.set name.lexeme complete :: outer }

def declaresHere (name : Token) (w : Walk) : Bool :=
  w.scopes.head?.any (·.contains name.lexeme)

def declare (name : Token) (w : Walk) : Walk :=
  (if w.declaresHere name then w.report .redeclaration name else w).mark name false

def define (name : Token) (w : Walk) : Walk := w.mark name true

/-- How many scopes outwards a name is declared. -/
def distance? (name : String) (w : Walk) : Option Nat := w.scopes.findIdx? (·.contains name)

def refer (kind : ReferenceKind) (r : Reference Nat) (w : Walk) : Walk :=
  match w.distance? r.name.lexeme with
  | some hops => { w with entries := w.entries.push ⟨kind, r, hops⟩ }
  | none => w

/-- Reads a variable, which must not be the one being declared in this scope. -/
def read (r : Reference Nat) (w : Walk) : Walk :=
  let incomplete := w.scopes.head?.any fun scope => scope.get? r.name.lexeme == some false
  (if incomplete then w.report .ownInitializer r.name else w).refer .variable r

def this (r : Reference Nat) (w : Walk) : Walk :=
  if w.klass = .none then w.report .thisOutsideClass r.name else w.refer .this r

def super (r : Reference Nat) (w : Walk) : Walk :=
  match w.klass with
  | .none => w.report .superOutsideClass r.name
  | .klass => w.report .superWithoutParent r.name
  | .subclass => w.refer .super r

/-- The parent of a class, with the scope that holds `super` for its methods. -/
def inherit (name : Token) (parent : Reference Nat) (w : Walk) : Walk :=
  let w := if parent.name.lexeme == name.lexeme then w.report .selfInheritance parent.name else w
  ({ w with klass := .subclass }.read parent).enterWith "super"

def inherit? (name : Token) (parent : Option (Reference Nat)) (w : Walk) : Walk :=
  match parent with
  | some r => w.inherit name r
  | none => w

def leave (keyword : Token) (hasValue : Bool) (w : Walk) : Walk :=
  let w := if w.routine = .none then w.report .topLevelReturn keyword else w
  if hasValue && w.routine = .initializer then w.report .initializerValue keyword else w

end Walk

/-- What a method of the given name is to the pass. -/
def RoutineContext.ofMethod (name : Token) : RoutineContext :=
  if name.lexeme == initializerName then .initializer else .method

mutual

def Expr.resolve : Expr Nat → Walk → Walk
  | .literal _, w => w
  | .grouping inner, w => inner.resolve w
  | .unary _ right, w => right.resolve w
  | .binary left _ right, w | .logical left _ right, w => right.resolve (left.resolve w)
  | .name target, w => w.read target
  | .assign target value, w => (value.resolve w).refer .assignment target
  | .call callee _ arguments, w => Expr.resolveAll arguments (callee.resolve w)
  | .get object _, w => object.resolve w
  | .set object _ value, w => object.resolve (value.resolve w)
  | .this keyword, w => w.this keyword
  | .super keyword _, w => w.super keyword

def Expr.resolveAll : List (Expr Nat) → Walk → Walk
  | [], w => w
  | e :: rest, w => Expr.resolveAll rest (e.resolve w)

end

def Expr.resolve? : Option (Expr Nat) → Walk → Walk
  | none, w => w
  | some e, w => e.resolve w

mutual

def Stmt.resolve : Stmt Nat → Walk → Walk
  | .expression value, w | .print value, w => value.resolve w
  | .declare name initial, w => (Expr.resolve? initial (w.declare name)).define name
  | .block body, w => (Stmt.resolveAll body w.enter).exit
  | .branch condition yes no, w => Stmt.resolve? no (yes.resolve (condition.resolve w))
  | .loop condition body, w => body.resolve (condition.resolve w)
  | .function routine, w =>
    Routine.resolve .function routine ((w.declare routine.name).define routine.name)
  | .leave keyword value, w => Expr.resolve? value (w.leave keyword value.isSome)
  | .klass name parent methods, w =>
    let inside := (({ w with klass := .klass }.declare name).define name).inherit? name parent
    let after := (Routine.resolveAll methods (inside.enterWith "this")).exit
    { if parent.isSome then after.exit else after with klass := w.klass }

def Stmt.resolve? : Option (Stmt Nat) → Walk → Walk
  | none, w => w
  | some s, w => s.resolve w

def Stmt.resolveAll : List (Stmt Nat) → Walk → Walk
  | [], w => w
  | s :: rest, w => Stmt.resolveAll rest (s.resolve w)

/-- A routine's parameters and its body share one scope. -/
def Routine.resolve : RoutineContext → Routine (Stmt Nat) → Walk → Walk
  | context, ⟨_, params, body⟩, w =>
    let inside := params.foldl (fun w p => (w.declare p).define p) { w with routine := context }.enter
    { (Stmt.resolveAll body inside).exit with routine := w.routine }

def Routine.resolveAll : List (Routine (Stmt Nat)) → Walk → Walk
  | [], w => w
  | r :: rest, w => Routine.resolveAll rest (Routine.resolve (.ofMethod r.name) r w)

end

/-- The outcome of the pass: its entries and its reports, in the order of the walk. -/
structure Resolution where
  entries : List Entry
  errors : List MisuseError

def resolve (program : List (Stmt Nat)) : Resolution :=
  let w := Stmt.resolveAll program .start
  ⟨w.entries.toList, w.errors.toList⟩

def Table.recordAll (t : Table) (entries : List Entry) : Table :=
  entries.foldl (fun t e => t.record e.reference.mark e.hops) t

end Lox
