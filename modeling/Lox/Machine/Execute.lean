import Lox.Machine.Object
import Lox.Machine.Operator

/-! Running statements and evaluating expressions. Every construct is given the
level below it, which runs its parts; a level is one step of nesting, and beneath
the last one nothing runs. So a run is bounded by the depth of its nesting, calls
included, and by the rounds of its loops. -/

namespace Lox

/-- How a statement ends. -/
inductive Outcome where
  | completed
  | returned (v : Value)

/-- The means to run the parts of a construct. -/
structure Level where
  stmt : Stmt Nat → Run Outcome
  expr : Expr Nat → Run Value

namespace Level

variable (below : Level)

/-- Runs statements in order until one of them returns. -/
def executeAll : List (Stmt Nat) → Run Outcome
  | [] => pure .completed
  | s :: rest => do
    match ← below.stmt s with
    | .completed => executeAll rest
    | .returned v => pure (.returned v)

def evaluateAll : List (Expr Nat) → Run (List Value)
  | [] => pure []
  | e :: rest => do
    let v ← below.expr e
    let vs ← evaluateAll rest
    pure (v :: vs)

/-- Repeats a body while a condition holds and the body does not return. -/
def cycle (condition : Expr Nat) (body : Stmt Nat) : Nat → Run Outcome
  | 0 => throw .unfinished
  | n + 1 => do
    if (← below.expr condition).isTruthy then
      match ← below.stmt body with
      | .completed => cycle condition body n
      | .returned v => pure (.returned v)
    else pure .completed

/-- Calls a routine with one argument for each of its parameters. An initializer
gives its receiver, whatever it returns. -/
def enter (f : Closure) (arguments : List Value) : Run Value := do
  let names := f.routine.params.map (·.lexeme)
  let scope ← Run.newScope (.ofList (names.zip arguments)) f.scope
  let outcome ← Run.within scope (below.executeAll f.routine.body)
  if f.isInitializer then
    Run.ofScope ((← get).scopes.getAt 0 "this" f.scope)
  else
    match outcome with
    | .returned v => pure v
    | .completed => pure .nil

/-- The number of arguments has to be right before anything of the call happens. -/
def checkCount (paren : Token) (expected : Nat) (arguments : List Value) : Run Unit :=
  if arguments.length = expected then pure ()
  else Run.fail paren (.wrongCount expected arguments.length)

/-! Functions and initializers are entered in the same way, which is a parameter of the
calls that go that way. -/

section Ways

variable (enter : Closure → List Value → Run Value)

/-- Makes an instance, and calls the initializer on it if there is one. -/
def constructBy (k : Ref .klass) (initializer : Option (Ref .function)) (arguments : List Value) :
    Run Value := do
  let i ← Run.newInstance ⟨k, .empty⟩
  match initializer with
  | some f =>
    let bound ← Run.functionAt (← Run.bind f (.object i))
    let _ ← enter bound arguments
    pure (.object i)
  | none => pure (.object i)

def callBy (callee : Value) (paren : Token) (arguments : List Value) : Run Value := do
  match callee with
  | .clock =>
    checkCount paren 0 arguments
    return .number (← Run.readClock)
  | .function f =>
    let closure ← Run.functionAt f
    checkCount paren closure.arity arguments
    enter closure arguments
  | .klass k =>
    let initializer ← Run.method? k initializerName
    let arity ← match initializer with
      | some f => Closure.arity <$> Run.functionAt f
      | none => pure 0
    checkCount paren arity arguments
    constructBy enter k initializer arguments
  | _ => Run.fail paren .notCallable

def evaluateBy : Expr Nat → Run Value
  | .literal value => pure value.value
  | .grouping inner => below.expr inner
  | .unary operator right => do
    let v ← below.expr right
    Run.ofChecked (operator.applyUnary v)
  | .binary left operator right => do
    let l ← below.expr left
    let r ← below.expr right
    Run.ofChecked (operator.applyBinary l r)
  | .logical left operator right => do
    let l ← below.expr left
    if operator.settles l then pure l else below.expr right
  | .name target => Run.lookUp target
  | .assign target value => do
    let v ← below.expr value
    Run.store target v
    pure v
  | .call callee paren arguments => do
    let f ← below.expr callee
    let vs ← below.evaluateAll arguments
    callBy enter f paren vs
  | .get object property => do
    match ← below.expr object with
    | .object i => Run.property i property
    | _ => Run.fail property .noProperties
  | .set object property value => do
    match ← below.expr object with
    | .object i =>
      let v ← below.expr value
      Run.setField i property.lexeme v
      pure v
    | _ => Run.fail property .noFields
  | .this keyword => Run.lookUp keyword
  | .super keyword method => Run.superMethod keyword method

end Ways

def construct : Ref .klass → Option (Ref .function) → List Value → Run Value := constructBy below.enter

def call : Value → Token → List Value → Run Value := callBy below.enter

def evaluate : Expr Nat → Run Value := evaluateBy below below.enter

/-- The parent of a class that is being declared. -/
def parentClass : Option (Reference Nat) → Run (Option (Ref .klass))
  | none => pure none
  | some r => do
    match ← below.expr (.name r) with
    | .klass k => pure (some k)
    | _ => Run.fail r.name .parentNotClass

/-- The methods of a class body, of which the last one of a name counts. -/
def makeMethods (scope : Ref .scope) : List (Routine (Stmt Nat)) → Run (Bindings (Ref .function)) :=
  List.foldlM (fun methods r => do
    let f ← Run.newFunction ⟨r, scope, r.name.lexeme == initializerName⟩
    pure (methods.set r.name.lexeme f)) .empty

/-- The methods of a class with a parent are written in a scope that holds `super`. -/
def methodScope (parent : Option (Ref .klass)) : Run (Ref .scope) := do
  let outer ← Run.current
  match parent with
  | some k => Run.newScope (.ofList [("super", .klass k)]) outer
  | none => pure outer

def declareClass (name : Token) (parent : Option (Reference Nat))
    (methods : List (Routine (Stmt Nat))) : Run Unit := do
  let parent ← below.parentClass parent
  Run.define name.lexeme .nil
  let made ← makeMethods (← methodScope parent) methods
  let k ← Run.newClass ⟨name.lexeme, parent, made⟩
  Run.record (.classMade name.lexeme (parent.map (← get).nameOfClass) made)
  Run.define name.lexeme (.klass k)

def declareFunction (routine : Routine (Stmt Nat)) : Run Unit := do
  let scope ← Run.current
  let f ← Run.newFunction ⟨routine, scope, false⟩
  Run.define routine.name.lexeme (.function f)
  let m ← get
  Run.record (.functionMade routine.name.lexeme (m.scopes.bindings scope) (m.scopes.depth scope))

def valueOf : Option (Expr Nat) → Run Value
  | some e => below.expr e
  | none => pure .nil

def execute (rounds : Nat) : Stmt Nat → Run Outcome
  | .expression value => do
    let _ ← below.expr value
    pure .completed
  | .print value => do
    let v ← below.expr value
    Run.print ((← get).display v)
    pure .completed
  | .declare name initial => do
    let v ← below.valueOf initial
    Run.define name.lexeme v
    pure .completed
  | .block body => do
    let scope ← Run.newScope .empty (← Run.current)
    Run.within scope (below.executeAll body)
  | .branch condition yes no => do
    if (← below.expr condition).isTruthy then below.stmt yes
    else
      match no with
      | some s => below.stmt s
      | none => pure .completed
  | .loop condition body => below.cycle condition body rounds
  | .function routine => do
    declareFunction routine
    pure .completed
  | .leave _ value => do
    let v ← below.valueOf value
    pure (.returned v)
  | .klass name parent methods => do
    below.declareClass name parent methods
    pure .completed

/-- The level with the given number of levels below it. -/
def ofDepth (rounds : Nat) : Nat → Level
  | 0 => ⟨fun _ => throw .tooDeep, fun _ => throw .tooDeep⟩
  | n + 1 => ⟨fun s => execute (ofDepth rounds n) rounds s, fun e => evaluate (ofDepth rounds n) e⟩

def ofLimits (limits : Limits) : Level := ofDepth limits.rounds limits.depth

end Level

namespace Run

/-- Runs the statements of a program one after the other. Outside all routines a
statement that returns ends like any other. -/
def statements (level : Level) : List (Stmt Nat) → Run Unit
  | [] => pure ()
  | s :: rest => do
    let _ ← level.stmt s
    statements level rest

/-- Runs a program, and leaves the machine in the global scope however that ends. -/
def program (level : Level) (code : List (Stmt Nat)) : Run Unit :=
  ensuring (statements level code) fun m => { m with current := Machine.globals }

end Run

end Lox
