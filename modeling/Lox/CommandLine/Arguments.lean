import Lox.Text.DecimalDigit
import Lox.Text.Quoted

/-! The words of a command line. Options may stand anywhere before the word `--`;
a long one may be shortened as long as only one option begins with what is left of
it, and several short ones may share a dash. At most one word is a file name. -/

namespace Lox.CommandLine

inductive Flag where
  | help
  | verbose
  | noColor
deriving DecidableEq, Repr

/-- The spellings of the flags, in the order in which they are tried. -/
def spellings : List (String × Flag) :=
  [("-h", .help), ("--help", .help), ("-v", .verbose), ("--verbose", .verbose), ("--no-color", .noColor)]

/-- How messages call a flag. -/
def Flag.title : Flag → String
  | help => "-h/--help"
  | verbose => "-v/--verbose"
  | noColor => "--no-color"

structure Options where
  file : Option String
  verbose : Bool
  color : Bool
deriving DecidableEq, Repr

def Options.initial : Options := ⟨none, false, true⟩

inductive UsageError where
  | ambiguous (word : String) (matching : List String)
  | ignoredValue (flag : Flag) (value : String)
  | unrecognized (words : List String)
deriving DecidableEq, Repr

def UsageError.message : UsageError → String
  | ambiguous word matching =>
    "ambiguous option: " ++ word ++ " could match " ++ ", ".intercalate matching
  | ignoredValue flag value =>
    "argument " ++ flag.title ++ ": ignored explicit argument " ++ Text.quoted value
  | unrecognized words => "unrecognized arguments: " ++ " ".intercalate words

/-- What a command line asks for. -/
inductive Request where
  | run (options : Options)
  | help
  | refuse (error : UsageError)
deriving DecidableEq, Repr

/-- What one word is. The value of a flag is the part of the word behind its
spelling, if there is one. -/
inductive Word where
  | flag (flag : Flag) (short : Bool) (value : Option (List Char))
  | unknown (text : String)
  | plain (text : String)

/-- A word at its first `=`, if it has one. -/
def splitValue (word : List Char) : List Char × Option (List Char) :=
  match word.dropWhile (· != '=') with
  | [] => (word, none)
  | _ :: value => (word.takeWhile (· != '='), some value)

/-- A word without the newline at its end, if it has one there. -/
def dropNewline (word : List Char) : List Char :=
  if word.getLast? == some '\n' then word.dropLast else word

/-- A number below zero is a file name, not an option. -/
def isNegativeNumber (word : List Char) : Bool :=
  match dropNewline word with
  | '-' :: number =>
    match number.dropWhile Text.isDecimalDigit with
    | [] => !number.isEmpty
    | '.' :: fraction => !fraction.isEmpty && fraction.all Text.isDecimalDigit
    | _ => false
  | _ => false

/-- The flags that a word with one dash or two may stand for. -/
def candidates (word : List Char) : List (String × Word) :=
  match word with
  | '-' :: '-' :: _ =>
    let (start, value) := splitValue word
    spellings.filterMap fun (spelling, flag) =>
      if start.isPrefixOf spelling.toList then some (spelling, .flag flag false value) else none
  | _ =>
    spellings.filterMap fun (spelling, flag) =>
      if spelling.toList == word.take 2 then some (spelling, .flag flag true (some (word.drop 2)))
      else if word.isPrefixOf spelling.toList then some (spelling, .flag flag false none)
      else none

def known? (word : List Char) : Option Word :=
  (spellings.lookup (.ofList word)).map fun flag => .flag flag (word[1]? != some '-') none

def knownWithValue? (word : List Char) : Option Word :=
  match splitValue word with
  | (start, some value) =>
    (spellings.lookup (.ofList start)).map fun flag => .flag flag (start[1]? != some '-') (some value)
  | (_, none) => none

/-- Reads one word in front of `--`. -/
def classify (text : String) : Except UsageError Word :=
  let word := text.toList
  if word.head? != some '-' then .ok (.plain text)
  else if let some w := known? word then .ok w
  else if word.length = 1 then .ok (.plain text)
  else if let some w := knownWithValue? word then .ok w
  else
    match candidates word with
    | [(_, w)] => .ok w
    | [] => if isNegativeNumber word || word.contains ' ' then .ok (.plain text) else .ok (.unknown text)
    | several => .error (.ambiguous text (several.map (·.1)))

/-- The flags of a word: its own, and those that follow it behind the same dash. -/
def flagsOf : Flag → Bool → List Char → Except UsageError (List Flag)
  | flag, _, [] => .error (.ignoredValue flag "")
  | flag, false, value => .error (.ignoredValue flag (.ofList value))
  | flag, true, c :: rest =>
    match spellings.lookup (.ofList ['-', c]) with
    | none => .error (.ignoredValue flag (.ofList (c :: rest)))
    | some next =>
      match rest with
      | [] => .ok [flag, next]
      | d :: rest => do
        let more ← flagsOf next true (d :: rest)
        pure (flag :: more)

/-- What has been gathered from the words so far. -/
structure Gathered where
  options : Options
  extra : List String

def Gathered.addPlain (g : Gathered) (text : String) : Gathered :=
  match g.options.file with
  | none => { g with options := { g.options with file := some text } }
  | some _ => { g with extra := g.extra ++ [text] }

/-- Applies flags in order; a request for help ends the reading. -/
def Gathered.addFlags (g : Gathered) : List Flag → Option Gathered
  | [] => some g
  | .help :: _ => none
  | .verbose :: rest => { g with options := { g.options with verbose := true } }.addFlags rest
  | .noColor :: rest => { g with options := { g.options with color := false } }.addFlags rest

/-- The words behind `--` are plain. Where the name of the file has been seen in
front of it, `--` belongs to that name only if it stands right behind it. -/
def finish (g : Gathered) (afterName : Bool) (rest : Option (List String)) : Request :=
  let g := match rest with
    | none => g
    | some words =>
      if g.options.file.isSome && !afterName then { g with extra := g.extra ++ "--" :: words }
      else words.foldl Gathered.addPlain g
  if g.extra.isEmpty then .run g.options else .refuse (.unrecognized g.extra)

/-- Goes through the words in front of `--`, and then through those behind it. -/
def gather (rest : Option (List String)) : Gathered → Bool → List Word → Request
  | g, afterName, [] => finish g afterName rest
  | g, _, .plain text :: words => gather rest (g.addPlain text) g.options.file.isNone words
  | g, _, .unknown text :: words => gather rest { g with extra := g.extra ++ [text] } false words
  | g, _, .flag flag _ none :: words =>
    match g.addFlags [flag] with
    | some g => gather rest g false words
    | none => .help
  | g, _, .flag flag short (some value) :: words =>
    match flagsOf flag short value with
    | .error e => .refuse e
    | .ok flags =>
      match g.addFlags flags with
      | some g => gather rest g false words
      | none => .help

/-- Reads a command line. Every word is classified before any of them has an effect. -/
def request (arguments : List String) : Request :=
  let front := arguments.takeWhile (· != "--")
  let rest := match arguments.dropWhile (· != "--") with
    | [] => none
    | _ :: words => some words
  match front.mapM classify with
  | .error e => .refuse e
  | .ok words => gather rest ⟨.initial, []⟩ false words

end Lox.CommandLine
