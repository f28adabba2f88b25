import Lox.Host

/-! Units of source run one after the other on one machine, so that what a unit
defines is there for the next. A unit with an error that can be found without
running it is not run at all, and neither is one that the stack of the host does not
hold. -/

namespace Lox

/-- The line of an event in a listing of internals. -/
def Event.line : Event → String
  | functionMade name scope depth =>
    "lox.core.evaluator: function " ++ name ++ " closes over " ++ Scopes.listing scope depth
  | classMade name parent methods =>
    "lox.core.runtime: class " ++ name ++ " created (superclass=" ++ parent.getD "None" ++
      ", methods=" ++ Text.quotedList methods.sortedNames ++ ")"

/-- What a fault means to the one who watches over a run. -/
def Fault.raised : Fault → Raised
  | runtime error => .runtime error.diagnostic
  | tooDeep => .stackExhausted
  | scope (.unbound name) => .other "Unbound" name
  | scope .outermost => .other "Outermost" "no enclosing scope"
  | unresolvedSuper => .other "Unresolved" "super"
  | superNotClass => .other "NotClass" "super"
  | dangling => .other "Dangling" "object"
  | unfinished => .other "Unfinished" "loop"

structure Session where
  name : String
  verbose : Bool
  reporter : Reporter
  interpreter : Interpreter
  stack : Stack

namespace Session

/-- The name of a session that is typed in line by line. -/
def interactiveName : String := "<in>"

def startOn (host : Host) (name : String) (color verbose : Bool) (reading : Nat → Float) : Session :=
  ⟨name, verbose, .begin (if color then some host.paint else none) false,
    .start host.limits reading verbose, host.stack⟩

def start : String → Bool → Bool → (Nat → Float) → Session := startOn .standard

def reset (s : Session) : Session := { s with reporter := s.reporter.reset }

/-- Writes a line about internals, if such lines are asked for. -/
def note (s : Session) (line : String) : Session :=
  if s.verbose then { s with reporter := s.reporter.write line } else s

def report (s : Session) (ds : List Diagnostic) : Session × Ending :=
  let (reporter, ending) := s.reporter.reportAll ds
  ({ s with reporter := reporter }, ending)

/-- Notes the events of a run that has ended. -/
def noteEvents (s : Session) (events : Array Event) : Session :=
  events.foldl (fun s e => s.note e.line) s

/-- Takes over the interpreter after a run and reports what cut the run short. -/
def finish (s : Session) (after : Interpreter) (fault : Option Fault) : Session × Ending :=
  let (events, interpreter) := after.takeEvents
  let s := { s with interpreter := interpreter }.noteEvents events
  let (reporter, ending) := s.reporter.handle (fault.map (·.raised))
  ({ s with reporter := reporter }, ending)

/-- Resolves a program that has been read without errors, and runs it if that
finds none. -/
def resolveAndRun (s : Session) (program : List (Stmt Unit)) : Session × Ending :=
  let (program, interpreter) := s.interpreter.number program
  let resolution := resolve program
  let s := s.note (s!"lox.core.resolver: resolved {resolution.entries.length} local reference(s), " ++
    s!"{resolution.errors.length} error(s)")
  if resolution.errors.isEmpty then
    let (after, fault) := (interpreter.learn resolution.entries).execute program
    s.finish after fault
  else s.report (resolution.errors.map (·.diagnostic))

/-- Runs a unit of source. Errors in its tokens come before errors in its syntax,
and both are reported before giving up. Nobody watches over the stack before the
program is run. -/
def run (s : Session) (source : String) : Session × Ending :=
  let scanned := scan source
  if s.stack.reads scanned.bare then
    let parsed := parse scanned.tokens
    match s.report (scanned.errors.map (·.diagnostic) ++ parsed.diagnostics) with
    | (s, .done) =>
      let s := s.note
        (s!"lox.lang.session: {s.name}: {scanned.tokens.length} token(s), " ++
          s!"{parsed.statements.length} statement(s)")
      if scanned.errors.isEmpty && parsed.errors.isEmpty then
        if s.stack.resolves scanned.bare then s.resolveAndRun parsed.statements
        else (s, .passedOn .stackExhausted)
      else (s, .done)
    | ended => ended
  else (s, .passedOn .stackExhausted)

/-- What the programs have written since the last time, and the reports. -/
def drain (s : Session) : String × String × Session :=
  let (out, interpreter) := s.interpreter.takeOutput
  (out, s.reporter.stream,
    { s with interpreter := interpreter, reporter := { s.reporter with stream := "" } })

end Session

end Lox
