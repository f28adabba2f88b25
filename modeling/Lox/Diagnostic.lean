/-! A message about a program: the line it is about, the place on that line if one
is known, and the message itself. -/

namespace Lox

structure Diagnostic where
  line : Int
  place : String
  message : String
deriving DecidableEq, Repr

namespace Diagnostic

def text (d : Diagnostic) : String := s!"[line {d.line}] Error{d.place}: {d.message}"

/-- The place of a lexeme, quoted as it stands in the source. -/
def atLexeme (lexeme : String) : String := s!" at '{lexeme}'"

def atEnd : String := " at end"

end Diagnostic

end Lox
