import Lox.Machine.Execute

/-! # Programs run by what is in scope

Another way to run a program, by the rule that a programmer has in mind. Every local
scope maps its names to locations of their own, a name is in scope from its own
declaration on, a routine keeps the scopes around the place where it is written, and
a reference means the innermost binding of its name there. Names in no local scope
are global and are looked up by name. Nothing is counted and nothing is prepared
before the run, so trees may carry any marks. -/

namespace Lox.Lexical

variable {μ α : Type}

/-- Where a local variable keeps its value. -/
structure Location where
  index : Nat
deriving DecidableEq, Repr

/-- The local scopes around a place, the innermost first. Outside all of them names
are global. -/
abbrev Env := List (Bindings Location)

/-- The innermost binding of a name. -/
def Env.find? (env : Env) (x : String) : Option Location := env.findSome? (·.get? x)

/-- A routine with the scopes around the place where it is written. -/
structure Closure (μ : Type) where
  routine : Routine (Stmt μ)
  env : Env
  isInitializer : Bool

def Closure.name (f : Closure μ) : String := f.routine.name.lexeme

def Closure.arity (f : Closure μ) : Nat := f.routine.params.length

/-- The values of local variables. A location is empty until its variable has one. -/
structure Store where
  cells : Array (Option Value)

namespace Store

def next (s : Store) : Location := ⟨s.cells.size⟩

def push (s : Store) (v : Option Value) : Store := ⟨s.cells.push v⟩

def get? (s : Store) (l : Location) : Option Value := s.cells[l.index]?.join

def set (s : Store) (l : Location) (v : Value) : Store := ⟨s.cells.modify l.index fun _ => some v⟩

end Store

structure State (μ : Type) where
  globals : Bindings Value
  store : Store
  functions : Heap .function (Closure μ)
  classes : Heap .klass Klass
  instances : Heap .object Instance
  env : Env
  clock : Clock
  output : String

namespace State

def start (reading : Nat → Float) : State μ where
  globals := .ofList [("clock", .clock)]
  store := ⟨#[]⟩
  functions := .empty
  classes := .empty
  instances := .empty
  env := []
  clock := ⟨reading, 0⟩
  output := ""

def nameOfClass (s : State μ) (k : Ref .klass) : String := ((s.classes.get? k).map (·.name)).getD ""

/-- The text of a value as a program prints it. -/
def display (s : State μ) : Value → String
  | .nil => "nil"
  | .bool b => if b then "true" else "false"
  | .number x => Number.display x
  | .string text => text
  | .clock => "<native fn>"
  | .function f => "<fn " ++ ((s.functions.get? f).map (·.name)).getD "" ++ ">"
  | .klass k => s.nameOfClass k
  | .object i => ((s.instances.get? i).map (s.nameOfClass ·.klass)).getD "" ++ " instance"

end State

abbrev Run (μ : Type) := EStateM Fault (State μ)

namespace Run

def fail (token : Token) (problem : RuntimeProblem) : Run μ α := throw (.runtime ⟨token, problem⟩)

def ofChecked : Except RuntimeError α → Run μ α
  | .ok a => pure a
  | .error error => throw (.runtime error)

def deref (found : Option α) : Run μ α :=
  match found with
  | some a => pure a
  | none => throw .dangling

def print (text : String) : Run μ Unit := modify fun s => { s with output := s.output ++ text ++ "\n" }

def readClock : Run μ Float := modifyGet fun s =>
  (s.clock.reading s.clock.taken, { s with clock := { s.clock with taken := s.clock.taken + 1 } })

/-- A location that nothing else has. -/
def allocate (v : Option Value) : Run μ Location :=
  modifyGet fun s => (s.store.next, { s with store := s.store.push v })

def newFunction (f : Closure μ) : Run μ (Ref .function) :=
  modifyGet fun s => (s.functions.next, { s with functions := s.functions.push f })

def newClass (k : Klass) : Run μ (Ref .klass) :=
  modifyGet fun s => (s.classes.next, { s with classes := s.classes.push k })

def newInstance (i : Instance) : Run μ (Ref .object) :=
  modifyGet fun s => (s.instances.next, { s with instances := s.instances.push i })

def functionAt (f : Ref .function) : Run μ (Closure μ) := do deref ((← get).functions.get? f)

def instanceAt (i : Ref .object) : Run μ Instance := do deref ((← get).instances.get? i)

/-- Brings a name into the innermost scope, without a value yet. -/
def introduce (x : String) : Run μ Unit := do
  match (← get).env with
  | [] => pure ()
  | scope :: outer =>
    let l ← allocate none
    modify fun s => { s with env := scope.set x l :: outer }

/-- Gives a name that has been introduced its value. -/
def define (x : String) (v : Value) : Run μ Unit := do
  match (← get).env with
  | [] => modify fun s => { s with globals := s.globals.set x v }
  | scope :: _ =>
    match scope.get? x with
    | some l => modify fun s => { s with store := s.store.set l v }
    | none => throw (.scope (.unbound x))

/-- The value of a local name in the given scopes. -/
def read (env : Env) (x : String) : Run μ Value := do
  match (env.find? x).bind (← get).store.get? with
  | some v => pure v
  | none => throw (.scope (.unbound x))

def lookUp (name : Token) : Run μ Value := do
  let s ← get
  match s.env.find? name.lexeme with
  | some _ => read s.env name.lexeme
  | none =>
    match s.globals.get? name.lexeme with
    | some v => pure v
    | none => fail name .undefinedVariable

/-- Gives a name a new value. A global name has to be defined already. -/
def assign (name : Token) (v : Value) : Run μ Unit := do
  let s ← get
  match s.env.find? name.lexeme with
  | some l => modify fun s => { s with store := s.store.set l v }
  | none =>
    if s.globals.contains name.lexeme then
      modify fun s => { s with globals := s.globals.set name.lexeme v }
    else fail name .undefinedVariable

def ensuring (act : Run μ α) (change : State μ → State μ) : Run μ α := fun s =>
  match act s with
  | .ok a s => .ok a (change s)
  | .error fault s => .error fault (change s)

theorem ensuring_ok {act : Run μ α} {change : State μ → State μ} {s s' : State μ} {a : α}
    (h : act s = .ok a s') : ensuring act change s = .ok a (change s') := by
  rw [ensuring, h]

theorem ensuring_error {act : Run μ α} {change : State μ → State μ} {s s' : State μ} {e : Fault}
    (h : act s = .error e s') : ensuring act change s = .error e (change s') := by
  rw [ensuring, h]

/-- Runs in other scopes, and comes back to the present ones however that ends. -/
def within (env : Env) (act : Run μ α) : Run μ α := do
  let outer := (← get).env
  modify fun s => { s with env := env }
  ensuring act fun s => { s with env := outer }

/-- A scope with a location for each value. -/
def newScope (values : List (String × Value)) : Run μ (Bindings Location) :=
  values.foldlM (fun scope p => do
    let l ← allocate (some p.2)
    pure (scope.set p.1 l)) .empty

/-- A copy of a method in whose scopes `this` is the receiver. -/
def bind (f : Ref .function) (receiver : Value) : Run μ (Ref .function) := do
  let method ← functionAt f
  let scope ← newScope [("this", receiver)]
  newFunction { method with env := scope :: method.env }

def method? (k : Ref .klass) (name : String) : Run μ (Option (Ref .function)) :=
  return (← get).classes.method? k name

/-- A property of an instance: its own field, or else a method of its class. -/
def property (i : Ref .object) (name : Token) : Run μ Value := do
  let object ← instanceAt i
  match object.fields.get? name.lexeme with
  | some v => pure v
  | none =>
    match ← method? object.klass name.lexeme with
    | some f => return .function (← bind f (.object i))
    | none => fail name .undefinedProperty

def setField (i : Ref .object) (name : String) (v : Value) : Run μ Unit :=
  modify fun s => { s with instances := s.instances.modify i fun object =>
    { object with fields := object.fields.set name v } }

/-- A method of the class that `super` means here, bound to what `this` means here. -/
def superMethod (name : Token) : Run μ Value := do
  let env := (← get).env
  let parent ← read env "super"
  let receiver ← read env "this"
  match parent with
  | .klass k =>
    match ← method? k name.lexeme with
    | some f => return .function (← bind f receiver)
    | none => fail name .undefinedProperty
  | _ => throw .superNotClass

end Run

/-- The means to run the parts of a construct. -/
structure Level (μ : Type) where
  stmt : Stmt μ → Run μ Outcome
  expr : Expr μ → Run μ Value

namespace Level

variable (below : Level μ)

def executeAll : List (Stmt μ) → Run μ Outcome
  | [] => pure .completed
  | s :: rest => do
    match ← below.stmt s with
    | .completed => executeAll rest
    | .returned v => pure (.returned v)

def evaluateAll : List (Expr μ) → Run μ (List Value)
  | [] => pure []
  | e :: rest => do
    let v ← below.expr e
    let vs ← evaluateAll rest
    pure (v :: vs)

def cycle (condition : Expr μ) (body : Stmt μ) : Nat → Run μ Outcome
  | 0 => throw .unfinished
  | n + 1 => do
    if (← below.expr condition).isTruthy then
      match ← below.stmt body with
      | .completed => cycle condition body n
      | .returned v => pure (.returned v)
    else pure .completed

/-- Calls a routine in a scope of its own, inside the scopes around its text. -/
def enter (f : Closure μ) (arguments : List Value) : Run μ Value := do
  let scope ← Run.newScope ((f.routine.params.map (·.lexeme)).zip arguments)
  let outcome ← Run.within (scope :: f.env) (below.executeAll f.routine.body)
  if f.isInitializer then Run.read f.env "this"
  else
    match outcome with
    | .returned v => pure v
    | .completed => pure .nil

def construct (k : Ref .klass) (initializer : Option (Ref .function)) (arguments : List Value) :
    Run μ Value := do
  let i ← Run.newInstance ⟨k, .empty⟩
  match initializer with
  | some f =>
    let bound ← Run.functionAt (← Run.bind f (.object i))
    let _ ← below.enter bound arguments
    pure (.object i)
  | none => pure (.object i)

def checkCount (paren : Token) (expected : Nat) (arguments : List Value) : Run μ Unit :=
  if arguments.length = expected then pure ()
  else Run.fail paren (.wrongCount expected arguments.length)

def call (callee : Value) (paren : Token) (arguments : List Value) : Run μ Value := do
  match callee with
  | .clock =>
    checkCount paren 0 arguments
    return .number (← Run.readClock)
  | .function f =>
    let closure ← Run.functionAt f
    checkCount paren closure.arity arguments
    below.enter closure arguments
  | .klass k =>
    let initializer ← Run.method? k initializerName
    let arity ← match initializer with
      | some f => Closure.arity <$> Run.functionAt f
      | none => pure 0
    checkCount paren arity arguments
    below.construct k initializer arguments
  | _ => Run.fail paren .notCallable

def evaluate : Expr μ → Run μ Value
  | .literal value => pure value.value
  | .grouping inner => below.expr inner
  | .unary operator right => do
    let v ← below.expr right
    Run.ofChecked (operator.applyUnary v)
  | .binary left operator right => do
    let l ← below.expr left
    let r ← below.expr right
    Run.ofChecked (operator.applyBinary l r)
  | .logical left operator right => do
    let l ← below.expr left
    if operator.settles l then pure l else below.expr right
  | .name target => Run.lookUp target.name
  | .assign target value => do
    let v ← below.expr value
    Run.assign target.name v
    pure v
  | .call callee paren arguments => do
    let f ← below.expr callee
    let vs ← below.evaluateAll arguments
    below.call f paren vs
  | .get object property => do
    match ← below.expr object with
    | .object i => Run.property i property
    | _ => Run.fail property .noProperties
  | .set object property value => do
    match ← below.expr object with
    | .object i =>
      let v ← below.expr value
      Run.setField i property.lexeme v
      pure v
    | _ => Run.fail property .noFields
  | .this keyword => Run.lookUp keyword.name
  | .super _ method => Run.superMethod method

def parentClass : Option (Reference μ) → Run μ (Option (Ref .klass))
  | none => pure none
  | some r => do
    match ← below.expr (.name r) with
    | .klass k => pure (some k)
    | _ => Run.fail r.name .parentNotClass

def makeMethods (env : Env) : List (Routine (Stmt μ)) → Run μ (Bindings (Ref .function)) :=
  List.foldlM (fun methods r => do
    let f ← Run.newFunction ⟨r, env, r.name.lexeme == initializerName⟩
    pure (methods.set r.name.lexeme f)) .empty

/-- The methods of a class with a parent are written where `super` means the parent. -/
def methodEnv (parent : Option (Ref .klass)) : Run μ Env := do
  let outer := (← get).env
  match parent with
  | some k => return (← Run.newScope [("super", .klass k)]) :: outer
  | none => pure outer

/-- The name of a class stands for `nil` until the class is made. -/
def declareClass (name : Token) (parent : Option (Reference μ)) (methods : List (Routine (Stmt μ))) :
    Run μ Unit := do
  Run.introduce name.lexeme
  let parent ← below.parentClass parent
  Run.define name.lexeme .nil
  let made ← makeMethods (← methodEnv parent) methods
  let k ← Run.newClass ⟨name.lexeme, parent, made⟩
  Run.define name.lexeme (.klass k)

def declareFunction (routine : Routine (Stmt μ)) : Run μ Unit := do
  Run.introduce routine.name.lexeme
  let f ← Run.newFunction ⟨routine, (← get).env, false⟩
  Run.define routine.name.lexeme (.function f)

def valueOf : Option (Expr μ) → Run μ Value
  | some e => below.expr e
  | none => pure .nil

def execute (rounds : Nat) : Stmt μ → Run μ Outcome
  | .expression value => do
    let _ ← below.expr value
    pure .completed
  | .print value => do
    let v ← below.expr value
    Run.print ((← get).display v)
    pure .completed
  | .declare name initial => do
    Run.introduce name.lexeme
    let v ← below.valueOf initial
    Run.define name.lexeme v
    pure .completed
  | .block body => do
    Run.within (.empty :: (← get).env) (below.executeAll body)
  | .branch condition yes no => do
    if (← below.expr condition).isTruthy then below.stmt yes
    else
      match no with
      | some s => below.stmt s
      | none => pure .completed
  | .loop condition body => below.cycle condition body rounds
  | .function routine => do
    declareFunction routine
    pure .completed
  | .leave _ value => do
    let v ← below.valueOf value
    pure (.returned v)
  | .klass name parent methods => do
    below.declareClass name parent methods
    pure .completed

/-- The level with the given number of levels below it. -/
def ofDepth (rounds : Nat) : Nat → Level μ
  | 0 => ⟨fun _ => throw .tooDeep, fun _ => throw .tooDeep⟩
  | n + 1 => ⟨fun s => execute (ofDepth rounds n) rounds s, fun e => evaluate (ofDepth rounds n) e⟩

def ofLimits (limits : Limits) : Level μ := ofDepth limits.rounds limits.depth

end Level

namespace Run

def statements (level : Level μ) : List (Stmt μ) → Run μ Unit
  | [] => pure ()
  | s :: rest => do
    let _ ← level.stmt s
    statements level rest

/-- Runs a program, and comes back to the global scope however that ends. -/
def program (level : Level μ) (code : List (Stmt μ)) : Run μ Unit :=
  ensuring (statements level code) fun s => { s with env := [] }

end Run

end Lox.Lexical
