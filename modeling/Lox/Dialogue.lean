import Lox.Session
import Lox.Text.Blank

/-! A session typed in line by line. Lines are held back until every brace in them
is closed, and a few words are commands to the dialogue instead. -/

namespace Lox

namespace Dialogue

/-- A source can be run once it has no fewer closing than opening braces. Braces in
strings and comments are no tokens, so they hold nothing open. -/
def isComplete (source : String) : Bool :=
  let kinds := (scan source).tokens.map (·.kind)
  kinds.count .leftBrace ≤ kinds.count .rightBrace

def intro : String :=
  "lox :: Python tree-walking interpreter\n" ++
  "Type 'help' for more information, 'exit' or Ctrl-D to quit."

def helpText : String :=
  "Welcome to the lox interpreter!\n\n" ++
  "Type statements and they are run immediately; variables, functions and classes you \n" ++
  "declare stay defined for the rest of the session. Blocks may span several lines: \n" ++
  "input is held until every '\x7b' is closed.\n\n" ++
  "Try it out by typing 'fun greet(name) \x7b print \"hi \" + name; \x7d', then \n" ++
  "'greet(\"lox\");'."

end Dialogue

inductive Prompt where
  | primary
  | continuation
deriving DecidableEq, Repr

def Prompt.text : Prompt → String
  | primary => "> "
  | continuation => ". "

/-- What a line asks for. -/
inductive Command where
  | nothing
  | source (line : String)
  | help (argument : String)
  | exit (argument : String)
  | endOfInput
deriving DecidableEq, Repr

namespace Command

/-- A command word is the longest row of letters, digits and underscores that a line
begins with, and its argument is the rest of the line without surrounding blanks. -/
def ofWords (line : List Char) : Command :=
  let word := String.ofList (line.takeWhile Piece.isWordChar)
  let argument := String.ofList (Text.trim (line.dropWhile Piece.isWordChar))
  if word == "help" then .help argument
  else if word == "exit" then .exit argument
  else if word == "EOF" then .endOfInput
  else .source (.ofList line)

def ofLine (line : String) : Command :=
  match Text.trim line.toList with
  | [] => .nothing
  | '!' :: rest => .source (.ofList ('!' :: rest))
  | '?' :: rest => .help (.ofList (Text.trim rest))
  | line => ofWords line

end Command

/-- How the dialogue goes on after a line. -/
inductive Reaction where
  | more
  | stop
  | ended (ending : Ending)
deriving DecidableEq, Repr

def Ending.reaction : Ending → Reaction
  | done => .more
  | ending => .ended ending

structure Dialogue where
  session : Session
  /-- the lines that wait for a brace to be closed -/
  pending : String
  prompt : Prompt
  /-- what the dialogue itself has written -/
  written : String

namespace Dialogue

def start (session : Session) : Dialogue := ⟨session, "", .primary, ""⟩

def write (d : Dialogue) (line : String) : Dialogue := { d with written := d.written ++ line ++ "\n" }

/-- Adds a line of source, and runs what has been gathered if it is complete. -/
def feed (d : Dialogue) (line : String) : Dialogue × Reaction :=
  let source := d.pending ++ line ++ "\n"
  if isComplete source then
    let (session, ending) := d.session.reset.run source
    ({ d with session := session, pending := "", prompt := .primary }, ending.reaction)
  else ({ d with pending := source, prompt := .continuation }, .more)

/-- Command words with an argument, or within a continuation, are source after all;
only the end of the input always ends the dialogue. -/
def react (d : Dialogue) : Command → Dialogue × Reaction
  | .nothing => (d, .more)
  | .source line => d.feed line
  | .help argument =>
    if argument.isEmpty && d.pending.isEmpty then (d.write helpText, .more)
    else d.feed ("help " ++ argument)
  | .exit argument =>
    if d.pending.isEmpty && (argument.isEmpty || argument == ";") then (d, .stop)
    else d.feed ("exit " ++ argument)
  | .endOfInput => (d.write "", .stop)

def line (d : Dialogue) (text : String) : Dialogue × Reaction := d.react (.ofLine text)

/-- What the dialogue and its programs have written since the last time, and the
reports. -/
def drain (d : Dialogue) : String × String × String × Dialogue :=
  let (out, err, session) := d.session.drain
  (d.written, out, err, { d with session := session, written := "" })

end Dialogue

end Lox
