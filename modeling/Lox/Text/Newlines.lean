/-! Line ends. A carriage return, alone or before a line feed, ends a line just as
a line feed does. -/

namespace Lox.Text

def unifyNewlines : List Char → List Char
  | [] => []
  | '\r' :: '\n' :: rest => '\n' :: unifyNewlines rest
  | '\r' :: rest => '\n' :: unifyNewlines rest
  | c :: rest => c :: unifyNewlines rest

/-- The lines of a text, each of which a line feed ends, except that the last may
be left open if it is not empty. -/
def lines (text : List Char) : List (List Char) := go [] text
where
  go (line : List Char) : List Char → List (List Char)
    | [] => if line.isEmpty then [] else [line.reverse]
    | c :: rest => if c = '\n' then line.reverse :: go [] rest else go (c :: line) rest

theorem not_mem_unifyNewlines (text : List Char) : '\r' ∉ unifyNewlines text := by
  fun_induction unifyNewlines text <;> simp_all [Ne.symm]

end Lox.Text
