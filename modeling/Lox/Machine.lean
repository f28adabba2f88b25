import Lox.Diagnostic
import Lox.Resolution.Table
import Lox.Scopes
import Lox.Text.Quoted

/-! The state of a running program, what can stop it, and the operations on the
state that the language is made of. -/

namespace Lox

/-- What a program can do wrong while it runs. -/
inductive RuntimeProblem where
  | undefinedVariable
  | undefinedProperty
  | operandNotNumber
  | operandsNotNumbers
  | operandsNotAddable
  | divisionByZero
  | unknownOperator
  | notCallable
  | wrongCount (expected got : Nat)
  | noProperties
  | noFields
  | parentNotClass
deriving DecidableEq, Repr

structure RuntimeError where
  token : Token
  problem : RuntimeProblem

def RuntimeError.message (e : RuntimeError) : String :=
  match e.problem with
  | .undefinedVariable => "Undefined variable '" ++ e.token.lexeme ++ "'."
  | .undefinedProperty => "Undefined property '" ++ e.token.lexeme ++ "'."
  | .operandNotNumber => "Operand must be a number."
  | .operandsNotNumbers => "Operands must be numbers."
  | .operandsNotAddable => "Operands must be two numbers or two strings."
  | .divisionByZero => "Division by zero."
  | .unknownOperator => "Unknown operator '" ++ e.token.lexeme ++ "'."
  | .notCallable => "Can only call functions and classes."
  | .wrongCount expected got => s!"Expected {expected} arguments but got {got}."
  | .noProperties => "Only instances have properties."
  | .noFields => "Only instances have fields."
  | .parentNotClass => "Superclass must be a class."

def RuntimeError.diagnostic (e : RuntimeError) : Diagnostic :=
  ⟨e.token.line, Diagnostic.atLexeme e.token.lexeme, e.message⟩

/-- What ends a run early. A program whose references have been resolved meets only
runtime errors and the limits. -/
inductive Fault where
  | runtime (error : RuntimeError)
  | scope (fault : ScopeFault)
  | unresolvedSuper
  | superNotClass
  /-- a reference to an object that was never made -/
  | dangling
  /-- code nested deeper than the limit -/
  | tooDeep
  /-- a loop that has used up its rounds -/
  | unfinished

/-- Things that happen in a run and that a listing of its internals shows. -/
inductive Event where
  | functionMade (name : String) (scope : Bindings Value) (depth : Nat)
  | classMade (name : String) (parent : Option String) (methods : Bindings (Ref .function))

/-- Readings of the time, and how many of them have been taken. -/
structure Clock where
  reading : Nat → Float
  taken : Nat

/-- How deep code may nest, counting calls, and how often a loop may go round. -/
structure Limits where
  depth : Nat
  rounds : Nat

structure Machine where
  scopes : Scopes
  functions : Heap .function Closure
  classes : Heap .klass Klass
  instances : Heap .object Instance
  current : Ref .scope
  table : Table
  clock : Clock
  output : String
  /-- the events so far, if they are wanted -/
  events : Option (Array Event)

namespace Machine

/-- The scope of the names that no other scope declares. -/
def globals : Ref .scope := ⟨0⟩

def start (reading : Nat → Float) (recording : Bool) : Machine where
  scopes := Scopes.add .empty (.ofList [("clock", .clock)]) none
  functions := .empty
  classes := .empty
  instances := .empty
  current := globals
  table := .empty
  clock := ⟨reading, 0⟩
  output := ""
  events := if recording then some #[] else none

def nameOfClass (m : Machine) (k : Ref .klass) : String := ((m.classes.get? k).map (·.name)).getD ""

/-- The text of a value as a program prints it. -/
def display (m : Machine) : Value → String
  | .nil => "nil"
  | .bool b => if b then "true" else "false"
  | .number x => Number.display x
  | .string s => s
  | .clock => "<native fn>"
  | .function f => "<fn " ++ ((m.functions.get? f).map (·.name)).getD "" ++ ">"
  | .klass k => m.nameOfClass k
  | .object i => ((m.instances.get? i).map (m.nameOfClass ·.klass)).getD "" ++ " instance"

/-- The text of an object in a listing of values. -/
def listing? (m : Machine) : Value → Option String
  | .nil | .bool _ | .number _ | .string _ => none
  | .clock => some "NativeFunction('clock', arity=0)"
  | .function f => (m.functions.get? f).map fun c =>
    "LoxFunction(" ++ Text.quoted c.name ++ s!", arity={c.arity})"
  | .klass k => some ("LoxClass(" ++ Text.quoted (m.nameOfClass k) ++ ")")
  | .object i => (m.instances.get? i).map fun o =>
    "LoxInstance(" ++ Text.quoted (m.nameOfClass o.klass) ++ ", fields=" ++
      Text.quotedList o.fields.sortedNames ++ ")"

end Machine

namespace Scopes

/-- The text of a scope with the given bindings in a listing. -/
def listing (bindings : Bindings Value) (depth : Nat) : String :=
  "Environment(names=" ++ Text.quotedList bindings.sortedNames ++ s!", depth={depth})"

end Scopes

/-- A step of a run keeps the state that it has reached also when a fault stops it. -/
abbrev Run := EStateM Fault Machine

namespace Run

variable {α : Type}

def fail (token : Token) (problem : RuntimeProblem) : Run α := throw (.runtime ⟨token, problem⟩)

def ofScope : Except ScopeFault α → Run α
  | .ok a => pure a
  | .error fault => throw (.scope fault)

def ofChecked : Except RuntimeError α → Run α
  | .ok a => pure a
  | .error error => throw (.runtime error)

def deref (found : Option α) : Run α :=
  match found with
  | some a => pure a
  | none => throw .dangling

def print (text : String) : Run Unit := modify fun m => { m with output := m.output ++ text ++ "\n" }

def record (event : Event) : Run Unit := modify fun m => { m with events := m.events.map (·.push event) }

def readClock : Run Float := modifyGet fun m =>
  (m.clock.reading m.clock.taken, { m with clock := { m.clock with taken := m.clock.taken + 1 } })

def newScope (bindings : Bindings Value) (enclosing : Ref .scope) : Run (Ref .scope) :=
  modifyGet fun m => (m.scopes.next, { m with scopes := m.scopes.add bindings (some enclosing) })

def newFunction (f : Closure) : Run (Ref .function) :=
  modifyGet fun m => (m.functions.next, { m with functions := m.functions.push f })

def newClass (k : Klass) : Run (Ref .klass) :=
  modifyGet fun m => (m.classes.next, { m with classes := m.classes.push k })

def newInstance (i : Instance) : Run (Ref .object) :=
  modifyGet fun m => (m.instances.next, { m with instances := m.instances.push i })

def current : Run (Ref .scope) := return (← get).current

/-- Binds a name in the current scope. -/
def define (name : String) (v : Value) : Run Unit :=
  modify fun m => { m with scopes := m.scopes.define m.current name v }

def moveTo (scope : Ref .scope) : Run Unit := modify fun m => { m with current := scope }

section Sequences

variable {β : Type} {x : Run α} {f : α → Run β} {m m' : Machine}

theorem bind_ok {a : α} (h : x m = .ok a m') : (x >>= f) m = f a m' := by
  change EStateM.bind x f m = _
  rw [EStateM.bind, h]

theorem bind_error {fault : Fault} (h : x m = .error fault m') : (x >>= f) m = .error fault m' := by
  change EStateM.bind x f m = _
  rw [EStateM.bind, h]

/-- A sequence that gives a result has come through its first part. -/
theorem bind_eq_ok {b : β} (h : (x >>= f) m = .ok b m') :
    ∃ a m₁, x m = .ok a m₁ ∧ f a m₁ = .ok b m' := by
  cases hx : x m with
  | ok a m₁ => exact ⟨a, m₁, rfl, (bind_ok hx).symm.trans h⟩
  | error fault m₁ =>
    rw [bind_error hx] at h
    cases h

end Sequences

/-- Runs an action and then changes the state, however the action ended. -/
def ensuring (act : Run α) (change : Machine → Machine) : Run α := fun m =>
  match act m with
  | .ok a m => .ok a (change m)
  | .error fault m => .error fault (change m)

theorem ensuring_ok {act : Run α} {change : Machine → Machine} {m m' : Machine} {a : α}
    (h : act m = .ok a m') : ensuring act change m = .ok a (change m') := by
  rw [ensuring, h]

theorem ensuring_error {act : Run α} {change : Machine → Machine} {m m' : Machine} {e : Fault}
    (h : act m = .error e m') : ensuring act change m = .error e (change m') := by
  rw [ensuring, h]

/-- Runs in another scope, and comes back to the present one however that ends. -/
def within (scope : Ref .scope) (act : Run α) : Run α := do
  let outer ← current
  moveTo scope
  ensuring act fun m => { m with current := outer }

theorem within_eq (scope : Ref .scope) (act : Run α) (m : Machine) :
    within scope act m =
      ensuring act (fun after => { after with current := m.current }) { m with current := scope } :=
  rfl

def functionAt (f : Ref .function) : Run Closure := do deref ((← get).functions.get? f)

theorem functionAt_eq {f : Ref .function} {c : Closure} {m : Machine} (h : m.functions.get? f = some c) :
    functionAt f m = .ok c m := by
  change deref (m.functions.get? f) m = _
  rw [h]
  rfl

def instanceAt (i : Ref .object) : Run Instance := do deref ((← get).instances.get? i)

/-- The value of a name: at its place if it has one, and among the globals if not. -/
def lookUp (r : Reference Nat) : Run Value := do
  let m ← get
  match m.table.hops? r.mark with
  | some hops => ofScope (m.scopes.getAt hops r.name.lexeme m.current)
  | none =>
    match m.scopes.lookup? Machine.globals r.name.lexeme with
    | some v => pure v
    | none => fail r.name .undefinedVariable

/-- Gives a name a new value. A global name has to be defined already. -/
def store (r : Reference Nat) (v : Value) : Run Unit := do
  let m ← get
  match m.table.hops? r.mark with
  | some hops =>
    let scope ← ofScope (m.scopes.scopeAt hops m.current)
    modify fun m => { m with scopes := m.scopes.define scope r.name.lexeme v }
  | none =>
    if (m.scopes.lookup? Machine.globals r.name.lexeme).isSome then
      modify fun m => { m with scopes := m.scopes.define Machine.globals r.name.lexeme v }
    else fail r.name .undefinedVariable

end Run

end Lox
