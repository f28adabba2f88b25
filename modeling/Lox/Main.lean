import Lox.CommandLine.Program

/-! The command on a real file system and terminal. -/

namespace Lox.CommandLine

def reason : IO.Error → OpenProblem
  | .noFileOrDirectory .. | .noSuchThing .. => .noSuchFile
  | .inappropriateType _ _ text | .invalidArgument _ _ text => .other text
  | .permissionDenied .. => .other "Permission denied"
  | error => .other (toString error)

def emit (t : Transcript) : IO UInt32 := do
  IO.print t.out
  IO.eprint t.err
  return .ofNat t.code.toNat

def script (options : Options) (reading : Nat → Float) (path : String) : IO UInt32 := do
  let contents ← (IO.FS.readBinFile path).toBaseIO
  match contents with
  | .error error => emit (cannotOpen path (reason error))
  | .ok bytes => emit (runScript .standard options reading path (bytes.toList.map (·.toNat)))

partial def dialogue (stdin stdout : IO.FS.Stream) (d : Dialogue) : IO UInt32 := do
  stdout.putStr d.prompt.text
  stdout.flush
  let typed ← stdin.getLine
  let line := if typed.isEmpty then endOfInput else (typed.dropSuffix '\n').toString
  let (out, err, next, reaction) := answer d line
  stdout.putStr out
  IO.eprint err
  match reaction with
  | .more => dialogue stdin stdout next
  | .stop => return 0
  | .ended ending => return .ofNat (codeOf ending).toNat

end Lox.CommandLine

open Lox Lox.CommandLine in
def main (arguments : List String) : IO UInt32 := do
  match request arguments with
  | .help => emit ⟨0, helpText, ""⟩
  | .refuse error => emit (refusal error)
  | .run options =>
    let started ← IO.monoNanosNow
    let reading := fun _ => Float.ofNat started / 1000000000
    match options.file with
    | some path => script options reading path
    | none =>
      IO.println Dialogue.intro
      dialogue (← IO.getStdin) (← IO.getStdout) (openDialogue .standard options reading)
