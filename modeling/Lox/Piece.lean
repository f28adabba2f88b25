import Lox.Token

/-! A source text as a row of pieces that cover it without gaps. A piece is a
lexeme, one blank character, a comment, a string that is never closed, or one
character that nothing starts with. Each is the longest of its kind, except that
a number never takes a point that no digit follows. -/

namespace Lox

inductive Piece where
  | lexeme (kind : Kind) (text : List Char)
  | blank (c : Char)
  | lineComment (text : List Char)
  | blockComment (text : List Char)
  | openString (text : List Char)
  | stray (c : Char)

namespace Piece

def text : Piece → List Char
  | lexeme _ t | lineComment t | blockComment t | openString t => t
  | blank c | stray c => [c]

def newlines (p : Piece) : Nat := p.text.count '\n'

def isLetter (c : Char) : Bool := ('a' ≤ c && c ≤ 'z') || ('A' ≤ c && c ≤ 'Z') || c == '_'

def isWordChar (c : Char) : Bool := isLetter c || Number.isDigit c

def isBlank (c : Char) : Bool := c == ' ' || c == '\r' || c == '\t' || c == '\n'

/-- Characters that are a lexeme by themselves, whatever follows. -/
def single? : Char → Option Kind
  | '(' => some .leftParen | ')' => some .rightParen
  | '{' => some .leftBrace | '}' => some .rightBrace
  | ',' => some .comma | '.' => some .dot | '-' => some .minus | '+' => some .plus
  | ';' => some .semicolon | '*' => some .star
  | _ => none

/-- Characters that `=` may extend: the kind alone, and the kind with `=`. -/
def extensible? : Char → Option (Kind × Kind)
  | '!' => some (.bang, .bangEqual) | '=' => some (.equal, .equalEqual)
  | '<' => some (.less, .lessEqual) | '>' => some (.greater, .greaterEqual)
  | _ => none

/-- A text up to and including its first `*/`, or all of it if there is none. -/
def closeComment : List Char → List Char × List Char
  | [] => ([], [])
  | '*' :: '/' :: rest => (['*', '/'], rest)
  | c :: rest => (c :: (closeComment rest).1, (closeComment rest).2)

def afterSlash : List Char → Piece × List Char
  | '/' :: rest => (.lineComment ('/' :: '/' :: rest.takeWhile (· != '\n')), rest.dropWhile (· != '\n'))
  | '*' :: rest => (.blockComment ('/' :: '*' :: (closeComment rest).1), (closeComment rest).2)
  | rest => (.lexeme .slash ['/'], rest)

def afterQuote (rest : List Char) : Piece × List Char :=
  match rest.dropWhile (· != '"') with
  | quote :: after => (.lexeme .string ('"' :: rest.takeWhile (· != '"') ++ [quote]), after)
  | [] => (.openString ('"' :: rest), [])

/-- A number goes on behind a point only if a digit follows the point. -/
def afterDigit (c : Char) (rest : List Char) : Piece × List Char :=
  let whole := c :: rest.takeWhile Number.isDigit
  match rest.dropWhile Number.isDigit with
  | '.' :: d :: after =>
    if Number.isDigit d then
      (.lexeme .number (whole ++ '.' :: d :: after.takeWhile Number.isDigit),
        after.dropWhile Number.isDigit)
    else (.lexeme .number whole, '.' :: d :: after)
  | after => (.lexeme .number whole, after)

def afterLetter (c : Char) (rest : List Char) : Piece × List Char :=
  let word := c :: rest.takeWhile isWordChar
  (.lexeme (Kind.ofWord (.ofList word)) word, rest.dropWhile isWordChar)

def afterExtensible (c : Char) (alone extended : Kind) : List Char → Piece × List Char
  | '=' :: rest => (.lexeme extended [c, '='], rest)
  | rest => (.lexeme alone [c], rest)

/-- The first piece of a text, and what is left of the text behind it. -/
def first (c : Char) (rest : List Char) : Piece × List Char :=
  if let some kind := single? c then (.lexeme kind [c], rest)
  else if let some (alone, extended) := extensible? c then afterExtensible c alone extended rest
  else if c = '/' then afterSlash rest
  else if isBlank c then (.blank c, rest)
  else if c = '"' then afterQuote rest
  else if Number.isDigit c then afterDigit c rest
  else if isLetter c then afterLetter c rest
  else (.stray c, rest)

theorem closeComment_append (cs : List Char) : (closeComment cs).1 ++ (closeComment cs).2 = cs := by
  fun_induction closeComment cs <;> simp_all

theorem afterSlash_append (rest : List Char) :
    (afterSlash rest).1.text ++ (afterSlash rest).2 = '/' :: rest := by
  fun_cases afterSlash rest <;> simp [text, List.takeWhile_append_dropWhile, closeComment_append]

theorem afterQuote_append (rest : List Char) :
    (afterQuote rest).1.text ++ (afterQuote rest).2 = '"' :: rest := by
  have whole := List.takeWhile_append_dropWhile (p := (· != '"')) (l := rest)
  unfold afterQuote
  split <;> rename_i h <;> simp_all [text]

theorem afterDigit_append (c : Char) (rest : List Char) :
    (afterDigit c rest).1.text ++ (afterDigit c rest).2 = c :: rest := by
  have whole := List.takeWhile_append_dropWhile (p := Number.isDigit) (l := rest)
  unfold afterDigit
  split <;> rename_i h
  · rename_i d after
    have fraction := List.takeWhile_append_dropWhile (p := Number.isDigit) (l := after)
    split <;> simp_all [text]
  · simp_all [text]

theorem afterLetter_append (c : Char) (rest : List Char) :
    (afterLetter c rest).1.text ++ (afterLetter c rest).2 = c :: rest := by
  simp [afterLetter, text, List.takeWhile_append_dropWhile]

theorem afterExtensible_append (c : Char) (alone extended : Kind) (rest : List Char) :
    (afterExtensible c alone extended rest).1.text ++ (afterExtensible c alone extended rest).2 =
      c :: rest := by
  fun_cases afterExtensible c alone extended rest <;> simp [text]

/-- The character that a text begins with decides how its first piece is found. -/
theorem first_sorts {P : (List Char → Piece × List Char) → Prop} (c : Char)
    (single : ∀ kind, single? c = some kind → P fun rest => (.lexeme kind [c], rest))
    (extensible : ∀ alone extended, extensible? c = some (alone, extended) →
      P (afterExtensible c alone extended))
    (slash : c = '/' → P afterSlash) (blank : isBlank c = true → P fun rest => (.blank c, rest))
    (quote : c = '"' → P afterQuote) (digit : Number.isDigit c = true → P (afterDigit c))
    (letter : isLetter c = true → P (afterLetter c)) (stray : P fun rest => (.stray c, rest)) :
    P (first c) := by
  unfold first
  cases hs : single? c with
  | some kind => exact single kind hs
  | none =>
    cases he : extensible? c with
    | some kinds => exact extensible kinds.1 kinds.2 he
    | none =>
      dsimp only
      split
      · exact slash ‹_›
      split
      · exact blank ‹_›
      split
      · exact quote ‹_›
      split
      · exact digit ‹_›
      split
      · exact letter ‹_›
      · exact stray

/-- As `first_sorts`, where it does not matter which characters are blanks, digits or letters. -/
theorem first_cases {P : (List Char → Piece × List Char) → Prop} (c : Char)
    (single : ∀ kind, single? c = some kind → P fun rest => (.lexeme kind [c], rest))
    (extensible : ∀ alone extended, extensible? c = some (alone, extended) →
      P (afterExtensible c alone extended))
    (slash : c = '/' → P afterSlash) (blank : P fun rest => (.blank c, rest))
    (quote : c = '"' → P afterQuote) (digit : P (afterDigit c)) (letter : P (afterLetter c))
    (stray : P fun rest => (.stray c, rest)) : P (first c) :=
  first_sorts c single extensible slash (fun _ => blank) quote (fun _ => digit) (fun _ => letter) stray

/-- The first piece and the rest make up the text. -/
theorem first_append (c : Char) (rest : List Char) :
    (first c rest).1.text ++ (first c rest).2 = c :: rest := by
  refine first_cases (P := fun cut => (cut rest).1.text ++ (cut rest).2 = c :: rest) c
    ?single ?extensible ?slash ?blank ?quote ?digit ?letter ?stray
  case single => exact fun _ _ => rfl
  case extensible => exact fun _ _ _ => afterExtensible_append ..
  case slash => exact fun e => e ▸ afterSlash_append rest
  case blank => rfl
  case quote => exact fun e => e ▸ afterQuote_append rest
  case digit => exact afterDigit_append c rest
  case letter => exact afterLetter_append c rest
  case stray => rfl

/-- The pieces of a text, given at least as many rounds as it has characters. -/
def cutAll : Nat → List Char → List Piece
  | 0, _ | _, [] => []
  | n + 1, c :: rest => (first c rest).1 :: cutAll n (first c rest).2

/-- All pieces of a text, in order. -/
def segment (source : List Char) : List Piece := cutAll source.length source

end Piece

end Lox
