import Lox.Machine.Execute
import Lox.Parse.Program
import Lox.Resolution.Walk
import Lox.Scan

/-! A machine together with what has to outlive a single program: the marks given
to references so far, so that no two programs share one, and the limits of a run. -/

namespace Lox

/-- Enough for any program that does not recurse without end. A level may take several
calls on the stack of the host, so that a host can give out earlier. -/
def Limits.standard : Limits := ⟨10000, 1000000000000000000⟩

structure Interpreter where
  limits : Limits
  machine : Machine
  /-- the mark of the next reference -/
  nextMark : Nat

/-- What came of a source that was run in spite of its errors. -/
structure Attempt where
  syntaxErrors : List Diagnostic
  misuses : List Diagnostic
  fault : Option Fault

namespace Interpreter

def start (limits : Limits) (reading : Nat → Float) (recording : Bool) : Interpreter :=
  ⟨limits, .start reading recording, 0⟩

/-- Gives the references of a program marks that no other program has. -/
def number (i : Interpreter) (program : List (Stmt Unit)) : List (Stmt Nat) × Interpreter :=
  let (numbered, next) := Stmt.numberAll program i.nextMark
  (numbered, { i with nextMark := next })

/-- Adds entries to what is known of references. Older entries stay, because older
programs may still be running inside their functions. -/
def learn (i : Interpreter) (entries : List Entry) : Interpreter :=
  { i with machine := { i.machine with table := i.machine.table.recordAll entries } }

/-- Runs a program. Its effects up to a fault are kept. -/
def execute (i : Interpreter) (program : List (Stmt Nat)) : Interpreter × Option Fault :=
  match Run.program (.ofLimits i.limits) program i.machine with
  | .ok _ m => ({ i with machine := m }, none)
  | .error fault m => ({ i with machine := m }, some fault)

/-- Runs whatever can be read of a source. Names that are not resolved are global. -/
def attempt (i : Interpreter) (source : String) (resolving : Bool) : Attempt × Interpreter :=
  let parsed := parse (scan source).tokens
  let (program, i) := i.number parsed.statements
  let resolution := if resolving then resolve program else ⟨[], []⟩
  let (after, fault) := (i.learn resolution.entries).execute program
  (⟨parsed.diagnostics, resolution.errors.map (·.diagnostic), fault⟩, after)

def takeEvents (i : Interpreter) : Array Event × Interpreter :=
  (i.machine.events.getD #[],
    { i with machine := { i.machine with events := i.machine.events.map fun _ => #[] } })

def takeOutput (i : Interpreter) : String × Interpreter :=
  (i.machine.output, { i with machine := { i.machine with output := "" } })

def atGlobals (i : Interpreter) : Bool := i.machine.current == Machine.globals

/-- The global names and their values, by the names' code points. -/
def globals (i : Interpreter) : List (String × Value) :=
  (i.machine.scopes.bindings Machine.globals).pairs.mergeSort fun p q => p.1 ≤ q.1

end Interpreter

end Lox
