import Lox.Diagnostic
import Lox.Number

/-! Tokens: what kind of lexeme each is, its text, the value of a literal, and the
line on which the lexeme ends. -/

namespace Lox

inductive Kind where
  | leftParen | rightParen | leftBrace | rightBrace
  | comma | dot | minus | plus | semicolon | slash | star
  | bang | bangEqual | equal | equalEqual | greater | greaterEqual | less | lessEqual
  | identifier | string | number
  | kwAnd | kwClass | kwElse | kwFalse | kwFun | kwFor | kwIf | kwNil | kwOr | kwPrint
  | kwReturn | kwSuper | kwThis | kwTrue | kwVar | kwWhile
  | eof
deriving DecidableEq, Repr

namespace Kind

/-- The name under which token listings show a kind. -/
def label : Kind → String
  | leftParen => "LEFT_PAREN" | rightParen => "RIGHT_PAREN"
  | leftBrace => "LEFT_BRACE" | rightBrace => "RIGHT_BRACE"
  | comma => "COMMA" | dot => "DOT" | minus => "MINUS" | plus => "PLUS"
  | semicolon => "SEMICOLON" | slash => "SLASH" | star => "STAR"
  | bang => "BANG" | bangEqual => "BANG_EQUAL"
  | equal => "EQUAL" | equalEqual => "EQUAL_EQUAL"
  | greater => "GREATER" | greaterEqual => "GREATER_EQUAL"
  | less => "LESS" | lessEqual => "LESS_EQUAL"
  | identifier => "IDENTIFIER" | string => "STRING" | number => "NUMBER"
  | kwAnd => "AND" | kwClass => "CLASS" | kwElse => "ELSE" | kwFalse => "FALSE"
  | kwFun => "FUN" | kwFor => "FOR" | kwIf => "IF" | kwNil => "NIL" | kwOr => "OR"
  | kwPrint => "PRINT" | kwReturn => "RETURN" | kwSuper => "SUPER" | kwThis => "THIS"
  | kwTrue => "TRUE" | kwVar => "VAR" | kwWhile => "WHILE"
  | eof => "EOF"

def all : List Kind :=
  [leftParen, rightParen, leftBrace, rightBrace, comma, dot, minus, plus, semicolon, slash, star,
   bang, bangEqual, equal, equalEqual, greater, greaterEqual, less, lessEqual,
   identifier, string, number,
   kwAnd, kwClass, kwElse, kwFalse, kwFun, kwFor, kwIf, kwNil, kwOr, kwPrint,
   kwReturn, kwSuper, kwThis, kwTrue, kwVar, kwWhile, eof]

theorem mem_all (k : Kind) : k ∈ all := by cases k <;> decide

def ofLabel? (text : String) : Option Kind := all.find? (·.label == text)

/-- The words that are not identifiers. -/
def keywords : List (String × Kind) :=
  [("and", kwAnd), ("class", kwClass), ("else", kwElse), ("false", kwFalse), ("for", kwFor),
   ("fun", kwFun), ("if", kwIf), ("nil", kwNil), ("or", kwOr), ("print", kwPrint),
   ("return", kwReturn), ("super", kwSuper), ("this", kwThis), ("true", kwTrue),
   ("var", kwVar), ("while", kwWhile)]

/-- A word is a keyword only as a whole. -/
def ofWord (word : String) : Kind := (keywords.lookup word).getD identifier

end Kind

/-- The values that a program can write down. -/
inductive Literal where
  | nil
  | bool (b : Bool)
  | number (x : Float)
  | string (s : String)

structure Token where
  kind : Kind
  lexeme : String
  literal : Option Literal
  line : Nat

namespace Token

/-- The token that stands for the end of a source. -/
def eof (line : Nat) : Token := ⟨.eof, "", none, line⟩

def literalText (t : Token) : String :=
  match t.literal with
  | some (.number x) => Number.literalText x
  | some (.string s) => s
  | some (.bool b) => if b then "True" else "False"
  | some .nil | none => "None"

/-- Where a message about a token points to. -/
def place (t : Token) : String :=
  if t.kind == .eof then Diagnostic.atEnd else Diagnostic.atLexeme t.lexeme

/-- A token on no line in particular. -/
def unlined (t : Token) : Token := { t with line := 0 }

/-- The form of a token in a listing. -/
def listing (t : Token) : String := s!"{t.kind.label} {t.lexeme} {t.literalText}"

end Token

end Lox
