import Lox.Diagnostic

/-! The stream on which problems are reported, and the flags that remember them.
A fatal reporter ends the program at its first report. -/

namespace Lox

namespace ExitCode

/-- The command line could not be used. -/
def usage : Nat := 64

/-- The program has an error that was found without running it. -/
def static : Nat := 65

/-- The program failed while it ran. -/
def runtime : Nat := 70

end ExitCode

/-- What may cut short a piece of work that a reporter watches over. -/
inductive Raised where
  | runtime (d : Diagnostic)
  | interrupt
  | stackExhausted
  | exit (code : Option Int)
  | other (name text : String)
deriving DecidableEq, Repr

/-- How work under a reporter ends: it goes on, it ends the program, or what cut it
short is passed on. -/
inductive Ending where
  | done
  | exit (code : Option Int)
  | passedOn (raised : Raised)
deriving DecidableEq, Repr

/-- The parts of a report that may be made to stand out. -/
inductive Style where
  | line
  | error
  | internal
deriving DecidableEq, Repr

/-- How a terminal is told to make a text stand out. -/
abbrev Paint := Style → String → String

namespace Paint

def bold : String := "\x1b[1m"

def red : String := "\x1b[31m"

def magenta : String := "\x1b[35m"

def codes : Style → String
  | .line => bold
  | .error => bold ++ red
  | .internal => bold ++ magenta

/-- A text between the codes of its style and the one that ends all styles. -/
def ansi : Paint := fun style text => codes style ++ text ++ "\x1b[0m"

end Paint

structure Reporter where
  /-- nothing stands out without paint -/
  paint : Option Paint
  fatal : Bool
  stream : String
  hadError : Bool
  hadRuntimeError : Bool

namespace Reporter

def begin (paint : Option Paint) (fatal : Bool) : Reporter := ⟨paint, fatal, "", false, false⟩

def start (color fatal : Bool) : Reporter := begin (if color then some .ansi else none) fatal

def reset (r : Reporter) : Reporter := { r with hadError := false, hadRuntimeError := false }

def painted (r : Reporter) (style : Style) (text : String) : String :=
  match r.paint with
  | some paint => paint style text
  | none => text

def rendering (r : Reporter) (d : Diagnostic) : String :=
  r.painted .line s!"[line {d.line}]" ++ " " ++
    r.painted .error ("Error" ++ d.place ++ ":") ++ " " ++ d.message

def internalRendering (r : Reporter) (text : String) : String :=
  r.painted .internal "[internal] " ++ text

def write (r : Reporter) (line : String) : Reporter := { r with stream := r.stream ++ line ++ "\n" }

/-- A report ends the program if the reporter is fatal. -/
def ending (r : Reporter) (code : Nat) : Ending := if r.fatal then .exit (some code) else .done

/-- Reports an error that was found without running the program. -/
def report (r : Reporter) (d : Diagnostic) : Reporter × Ending :=
  ({ r.write (r.rendering d) with hadError := true }, r.ending ExitCode.static)

/-- Reports errors in order, up to one that ends the program. -/
def reportAll (r : Reporter) : List Diagnostic → Reporter × Ending
  | [] => (r, .done)
  | d :: rest =>
    match r.report d with
    | (r, .done) => reportAll r rest
    | ended => ended

/-- Reports an error of a running program. -/
def reportRuntime (r : Reporter) (d : Diagnostic) : Reporter × Ending :=
  ({ r.write (r.rendering d) with hadRuntimeError := true }, r.ending ExitCode.runtime)

/-- Reports something that is not the program's fault. -/
def reportInternal (r : Reporter) (text : String) : Reporter × Ending :=
  ({ r.write (r.internalRendering text) with hadRuntimeError := true }, r.ending ExitCode.runtime)

/-- Watches over a piece of work that may have been cut short. Runtime errors and
interrupts end here; an exhausted stack ends the program; an exit goes through in
silence; anything else is reported and passed on. -/
def handle (r : Reporter) : Option Raised → Reporter × Ending
  | none => (r, .done)
  | some (.runtime d) => r.reportRuntime d
  | some .interrupt => r.reportInternal "keyboard interrupt"
  | some .stackExhausted => ((r.reportInternal "Stack overflow.").1, .exit (some ExitCode.runtime))
  | some (.exit code) => (r, .exit code)
  | some (.other name text) =>
    match r.reportInternal ("unknown error: '" ++ name ++ ": " ++ text ++ "'") with
    | (r, .done) => (r, .passedOn (.other name text))
    | ended => ended

end Reporter

end Lox
