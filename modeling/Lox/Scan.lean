import Lox.Diagnostic
import Lox.Piece

/-! The tokens of a source and the problems found while reading it. Whatever a
piece gives rise to is on the line on which the piece ends. -/

namespace Lox

inductive LexicalProblem where
  | unexpectedCharacter
  | unterminatedString
deriving DecidableEq, Repr

namespace LexicalProblem

def message : LexicalProblem → String
  | unexpectedCharacter => "Unexpected character."
  | unterminatedString => "Unterminated string."

end LexicalProblem

structure LexicalError where
  problem : LexicalProblem
  line : Nat
deriving DecidableEq, Repr

/-- No token stands at a lexical error, so only its line is known. -/
def LexicalError.diagnostic (e : LexicalError) : Diagnostic := ⟨e.line, "", e.problem.message⟩

/-- The value of a lexeme: a string without its quotes, or a number. -/
def literalOf : Kind → List Char → Option Literal
  | .string, text => some (.string (.ofList (text.drop 1).dropLast))
  | .number, text => some (.number (Number.read text))
  | _, _ => none

/-- The outcome of reading a source. The last token is the only one of kind `eof`. -/
structure Scan where
  tokens : List Token
  errors : List LexicalError

namespace Scan

/-- What one piece that ends on the given line adds in front of the rest. -/
def add (line : Nat) (p : Piece) (rest : Scan) : Scan :=
  match p with
  | .lexeme kind text => { rest with tokens := ⟨kind, .ofList text, literalOf kind text, line⟩ :: rest.tokens }
  | .openString _ => { rest with errors := ⟨.unterminatedString, line⟩ :: rest.errors }
  | .stray _ => { rest with errors := ⟨.unexpectedCharacter, line⟩ :: rest.errors }
  | .blank _ | .lineComment _ | .blockComment _ => rest

/-- Reads pieces, the first of which starts on the given line. -/
def ofPieces : Nat → List Piece → Scan
  | line, [] => ⟨[.eof line], []⟩
  | line, p :: rest => add (line + p.newlines) p (ofPieces (line + p.newlines) rest)

end Scan

/-- Reads a source, whose lines count from one. -/
def scan (source : String) : Scan := .ofPieces 1 (Piece.segment source.toList)

end Lox
