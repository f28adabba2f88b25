import Lox.CommandLine.Arguments
import Lox.CommandLine.Directory
import Lox.Dialogue
import Lox.Text.Newlines
import Lox.Text.Utf8

/-! The command as a whole: it runs the script that its command line names, or else
a dialogue over the lines of its input. -/

namespace Lox.CommandLine

/-- What the command leaves behind: its exit code and what it wrote. -/
structure Transcript where
  code : Int
  out : String
  err : String
deriving DecidableEq, Repr

def usage : String := "usage: lox [-h] [-v] [--no-color] [file]\n"

def helpText : String :=
  usage ++ "\n" ++
  "positional arguments:\n" ++
  "  file           file to interpret and run (if empty, goes to interactive\n" ++
  "                 mode)\n" ++ "\n" ++
  "options:\n" ++
  "  -h, --help     show this help message and exit\n" ++
  "  -v, --verbose  log pipeline internals to stderr\n" ++
  "  --no-color     print diagnostics without color\n"

def refusal (error : UsageError) : Transcript :=
  ⟨ExitCode.usage, "", usage ++ "lox: error: " ++ error.message ++ "\n"⟩

def cannotOpen (path : String) (problem : OpenProblem) : Transcript :=
  ⟨ExitCode.usage, "", s!"lox: cannot open '{path}': " ++ problem.message ++ "\n"⟩

def cannotRead (path : String) (problem : Text.Utf8Problem) : Transcript :=
  ⟨ExitCode.usage, "", s!"lox: cannot read '{path}': not valid UTF-8 (" ++ problem.message ++ ")\n"⟩

/-- The exit code of a command whose work has ended in the given way. Without a code
of its own an exit is a success, and what nothing has handled is a failure. -/
def codeOf : Ending → Int
  | .done => 0
  | .exit code => code.getD 0
  | .passedOn _ => 1

/-- A script that has run to its end still fails if anything was reported. -/
def scriptCode (s : Session) : Ending → Int
  | .done =>
    if s.reporter.hadError then ExitCode.static
    else if s.reporter.hadRuntimeError then ExitCode.runtime
    else 0
  | ending => codeOf ending

/-- Runs a script, the bytes of which are text with line ends of any kind. -/
def runScript (host : Host) (options : Options) (reading : Nat → Float) (path : String)
    (bytes : List Nat) : Transcript :=
  match Text.decode bytes with
  | .error problem => cannotRead path problem
  | .ok text =>
    let session := Session.startOn host path options.color options.verbose reading
    let (session, ending) := session.run (.ofList (Text.unifyNewlines text))
    let (out, err, session) := session.drain
    ⟨scriptCode session ending, out, err⟩

def openDialogue (host : Host) (options : Options) (reading : Nat → Float) : Dialogue :=
  .start (.startOn host Session.interactiveName options.color options.verbose reading)

/-- Answers one line: what to write, what to report, and how to go on. -/
def answer (d : Dialogue) (line : String) : String × String × Dialogue × Reaction :=
  let (d, reaction) := d.line line
  let (written, out, err, d) := d.drain
  (written ++ out, err, d, reaction)

/-- Goes through the lines, with a prompt in front of each. -/
def converse : Dialogue → Transcript → List String → Transcript
  | _, t, [] => t
  | d, t, line :: rest =>
    let (out, err, next, reaction) := answer d line
    let t := { t with out := t.out ++ d.prompt.text ++ out, err := t.err ++ err }
    match reaction with
    | .more => converse next t rest
    | .stop => t
    | .ended ending => { t with code := codeOf ending }

/-- The end of the input is a line of its own to the dialogue. -/
def endOfInput : String := "EOF"

def runDialogue (host : Host) (options : Options) (reading : Nat → Float) (input : String) :
    Transcript :=
  let lines := (Text.lines input.toList).map String.ofList ++ [endOfInput]
  converse (openDialogue host options reading) ⟨0, Dialogue.intro ++ "\n", ""⟩ lines

/-- The whole command, given the files it can see and its input. -/
def runOn (host : Host) (arguments : List String) (files : Directory) (input : String)
    (reading : Nat → Float) : Transcript :=
  match request arguments with
  | .help => ⟨0, helpText, ""⟩
  | .refuse error => refusal error
  | .run options =>
    match options.file with
    | none => runDialogue host options reading input
    | some path =>
      match files.read path with
      | .error problem => cannotOpen path problem
      | .ok bytes => runScript host options reading path bytes

def run : List String → Directory → String → (Nat → Float) → Transcript := runOn .standard

end Lox.CommandLine
