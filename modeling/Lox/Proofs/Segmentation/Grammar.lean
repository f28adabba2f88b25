import Mathlib.Data.List.TakeWhile
import Lox.Proofs.Joining.Pieces
import Lox.Proofs.Printing.Sources

/-! # The lexical grammar

What texts the pieces of a source may have, said without a word on how a piece is found.
Several pieces may begin at one place (`1`, `1.5`; `a`, `and`, `android`; `/`, `//`), and
then the longest of them counts. -/

namespace Lox

/-- The lexemes of each kind. An operator or keyword has one only, which no name may have. -/
inductive Kind.Spells : Kind → List Char → Prop
  | fixed {kind : Kind} {text : List Char} (h : kind.spelling? = some (.ofList text))
      (some : text ≠ []) : Spells kind text
  | name {c : Char} {rest : List Char} (begins : Piece.isLetter c = true)
      (goes : ∀ d ∈ rest, Piece.isWordChar d = true)
      (free : ∀ kind : Kind, kind.spelling? ≠ some (.ofList (c :: rest))) :
      Spells .identifier (c :: rest)
  | whole {digits : List Char} (some : digits ≠ []) (h : ∀ d ∈ digits, Number.isDigit d = true) :
      Spells .number digits
  | fraction {digits part : List Char} (some : digits ≠ []) (h : ∀ d ∈ digits, Number.isDigit d = true)
      (more : part ≠ []) (hp : ∀ d ∈ part, Number.isDigit d = true) :
      Spells .number (digits ++ '.' :: part)
  | string {body : List Char} (h : '"' ∉ body) : Spells .string ('"' :: body ++ ['"'])

namespace Piece

/-- A piece that is more than a stray character, in front of the rest of a source. Only
what the end of the source cuts short depends on the rest. -/
inductive Regular : Piece → List Char → Prop
  | lexeme {kind : Kind} {text rest : List Char} (h : kind.Spells text) :
      Regular (.lexeme kind text) rest
  | blank {c : Char} {rest : List Char} (h : isBlank c = true) : Regular (.blank c) rest
  | lineComment {body rest : List Char} (h : '\n' ∉ body) :
      Regular (.lineComment ('/' :: '/' :: body)) rest
  | blockComment {body rest : List Char} (h : ¬ ['*', '/'] <:+: body ++ ['*']) :
      Regular (.blockComment ('/' :: '*' :: (body ++ ['*', '/']))) rest
  | openComment {body : List Char} (h : ¬ ['*', '/'] <:+: body) :
      Regular (.blockComment ('/' :: '*' :: body)) []
  | openString {body : List Char} (h : '"' ∉ body) : Regular (.openString ('"' :: body)) []

/-- A character is stray if no other piece begins with it. -/
def Fits : Piece → List Char → Prop
  | .stray c, rest => ∀ (q : Piece) (after : List Char), q.Regular after → q.text ++ after ≠ c :: rest
  | p, rest => p.Regular rest

/-- Of all pieces that fit in its place none is longer. -/
structure Longest (p : Piece) (rest : List Char) : Prop where
  fits : p.Fits rest
  longest : ∀ (q : Piece) (after : List Char), q.Fits after → q.text ++ after = p.text ++ rest →
    q.text.length ≤ p.text.length

/-- A row of pieces that makes up a text, each of them the longest in its place. -/
inductive Segments : List Piece → List Char → Prop
  | nil : Segments [] []
  | cons {p : Piece} {rest : List Char} {ps : List Piece} (h : p.Longest rest)
      (hs : Segments ps rest) : Segments (p :: ps) (p.text ++ rest)

/-! ## Characters and the pieces they begin -/

/-- Letters and digits begin words and numbers only. -/
theorem isWordChar_apart {c : Char} (h : isWordChar c = true) :
    single? c = none ∧ extensible? c = none ∧ c ≠ '/' ∧ isBlank c = false ∧ c ≠ '"' := by
  refine ⟨?_, ?_, fun e => ?_, Bool.eq_false_iff.mpr fun blank => ?_, fun e => ?_⟩
  · cases hs : single? c with
    | none => rfl
    | some kind =>
      unfold single? at hs
      split at hs <;> cases hs <;> cases h
  · cases he : extensible? c with
    | none => rfl
    | some kinds =>
      unfold extensible? at he
      split at he <;> cases he <;> cases h
  · subst e
    cases h
  · simp only [isBlank, Bool.or_eq_true, beq_iff_eq] at blank
    rcases blank with ((rfl | rfl) | rfl) | rfl <;> cases h
  · subst e
    cases h

theorem isLetter_not_digit {c : Char} (h : isLetter c = true) : Number.isDigit c = false := by
  refine Bool.eq_false_iff.mpr fun digit => ?_
  simp only [isLetter, Number.isDigit, Bool.or_eq_true, Bool.and_eq_true, decide_eq_true_eq,
    beq_iff_eq, Char.le_def, UInt32.le_iff_toNat_le] at h digit
  rcases h with (⟨low, -⟩ | ⟨low, -⟩) | rfl
  · exact absurd (Nat.le_trans low digit.2) (by decide)
  · exact absurd (Nat.le_trans low digit.2) (by decide)
  · exact absurd digit.2 (by decide)

theorem first_digit {c : Char} (h : Number.isDigit c = true) : first c = afterDigit c := by
  obtain ⟨single, extensible, slash, blank, quote⟩ :=
    isWordChar_apart (by rw [isWordChar, h, Bool.or_true] : isWordChar c = true)
  unfold first
  simp only [single, extensible, slash, blank, quote, h, if_false, if_true, Bool.false_eq_true]

theorem first_letter {c : Char} (h : isLetter c = true) : first c = afterLetter c := by
  obtain ⟨single, extensible, slash, blank, quote⟩ :=
    isWordChar_apart (by rw [isWordChar, h, Bool.true_or] : isWordChar c = true)
  unfold first
  simp only [single, extensible, slash, blank, quote, isLetter_not_digit h, h, if_false, if_true,
    Bool.false_eq_true]

/-! ## What is found is in the grammar -/

theorem single?_spells {c : Char} {kind : Kind} (h : single? c = some kind) : kind.Spells [c] := by
  unfold single? at h
  split at h
  all_goals cases h
  all_goals exact .fixed rfl (List.cons_ne_nil _ _)

theorem extensible?_spells {c : Char} {alone extended : Kind}
    (h : extensible? c = some (alone, extended)) : alone.Spells [c] ∧ extended.Spells [c, '='] := by
  unfold extensible? at h
  split at h
  all_goals cases h
  all_goals exact ⟨.fixed rfl (List.cons_ne_nil _ _), .fixed rfl (List.cons_ne_nil _ _)⟩

theorem afterExtensible_regular {c : Char} {alone extended : Kind}
    (h : extensible? c = some (alone, extended)) (rest : List Char) :
    (afterExtensible c alone extended rest).1.Regular (afterExtensible c alone extended rest).2 := by
  obtain ⟨one, two⟩ := extensible?_spells h
  unfold afterExtensible
  split
  · exact .lexeme two
  · exact .lexeme one

theorem pair_infix_cons {a b c : Char} {text : List Char} :
    [a, b] <:+: c :: text ↔ (c = a ∧ text.head? = some b) ∨ [a, b] <:+: text := by
  rw [List.infix_cons_iff, List.cons_prefix_cons]
  cases text with
  | nil => simp
  | cons d rest => simp [eq_comm]

/-- A comment is closed by the first `*/` behind its beginning, or not at all. -/
theorem closeComment_regular (text : List Char) :
    (∃ body, (closeComment text).1 = body ++ ['*', '/'] ∧ ¬ ['*', '/'] <:+: body ++ ['*']) ∨
      (closeComment text).1 = text ∧ (closeComment text).2 = [] ∧ ¬ ['*', '/'] <:+: text := by
  fun_induction closeComment text with
  | case1 => exact .inr ⟨rfl, rfl, by decide⟩
  | case2 rest => exact .inl ⟨[], rfl, by decide⟩
  | case3 c rest other ih =>
    have apart (hc : c = '*') : rest.head? ≠ some '/' := fun h => by
      obtain ⟨tail, e⟩ := List.head?_eq_some_iff.mp h
      exact other tail hc e
    rcases ih with ⟨body, e, inside⟩ | ⟨all, none, inside⟩
    · refine .inl ⟨c :: body, congrArg _ e, fun h => ?_⟩
      rcases pair_infix_cons.mp h with ⟨hc, start⟩ | later
      · have whole := closeComment_append rest
        rw [e, List.append_assoc] at whole
        cases body with
        | nil => cases start
        | cons d body => exact apart hc (by rw [← whole]; exact start)
      · exact inside later
    · refine .inr ⟨congrArg _ all, none, fun h => ?_⟩
      rcases pair_infix_cons.mp h with ⟨hc, start⟩ | later
      · exact apart hc start
      · exact inside later

theorem afterSlash_regular (rest : List Char) :
    (afterSlash rest).1.Regular (afterSlash rest).2 := by
  fun_cases afterSlash rest with
  | case1 rest => exact .lineComment fun m => absurd (List.mem_takeWhile_imp m) (by decide)
  | case2 rest =>
    rcases closeComment_regular rest with ⟨body, e, inside⟩ | ⟨all, none, inside⟩
    · rw [e]
      exact .blockComment inside
    · rw [all, none]
      exact .openComment inside
  | case3 => exact .lexeme (.fixed rfl (List.cons_ne_nil _ _))

theorem afterQuote_regular (rest : List Char) :
    (afterQuote rest).1.Regular (afterQuote rest).2 := by
  have body : '"' ∉ rest.takeWhile (· != '"') := fun m => absurd (List.mem_takeWhile_imp m) (by decide)
  have whole := List.takeWhile_append_dropWhile (p := (· != '"')) (l := rest)
  unfold afterQuote
  cases hd : rest.dropWhile (· != '"') with
  | nil =>
    rw [hd, List.append_nil] at whole
    exact .openString (whole ▸ body)
  | cons quote after =>
    have stops := List.head?_dropWhile_not (· != '"') rest
    rw [hd] at stops
    obtain rfl : quote = '"' := by simpa using stops
    exact .lexeme (.string body)

theorem afterDigit_regular {c : Char} (h : Number.isDigit c = true) (rest : List Char) :
    (afterDigit c rest).1.Regular (afterDigit c rest).2 := by
  have run (c : Char) (text : List Char) (h : Number.isDigit c = true) :
      ∀ d ∈ c :: text.takeWhile Number.isDigit, Number.isDigit d = true :=
    List.forall_mem_cons.mpr ⟨h, fun d m => List.mem_takeWhile_imp m⟩
  unfold afterDigit
  dsimp only
  split
  · rename_i d after _
    split
    · rename_i hd
      exact .lexeme (.fraction (List.cons_ne_nil _ _) (run c rest h) (List.cons_ne_nil _ _) (run d after hd))
    · exact .lexeme (.whole (List.cons_ne_nil _ _) (run c rest h))
  · exact .lexeme (.whole (List.cons_ne_nil _ _) (run c rest h))

/-- A kind with a word for its only lexeme is the kind of that word. -/
theorem ofWord_of_spelling {kind : Kind} {c : Char} {rest : List Char}
    (h : kind.spelling? = some (.ofList (c :: rest))) (hc : isLetter c = true) :
    Kind.ofWord (.ofList (c :: rest)) = kind ∧ kind ≠ .identifier ∧ ∀ d ∈ rest, isWordChar d = true := by
  cases kind with
  | identifier | string | number => cases h
  | eof => cases String.ofList_injective (Option.some.inj h)
  | leftParen | rightParen | leftBrace | rightBrace | comma | dot | minus | plus | semicolon | slash
  | star | bang | bangEqual | equal | equalEqual | greater | greaterEqual | less | lessEqual =>
    obtain ⟨rfl, -⟩ := List.cons.inj (String.ofList_injective (Option.some.inj h))
    cases hc
  | kwAnd | kwClass | kwElse | kwFalse | kwFun | kwFor | kwIf | kwNil | kwOr | kwPrint | kwReturn
  | kwSuper | kwThis | kwTrue | kwVar | kwWhile =>
    obtain ⟨rfl, rfl⟩ := List.cons.inj (String.ofList_injective (Option.some.inj h))
    exact ⟨rfl, Kind.noConfusion, List.all_eq_true.mp (by decide)⟩

/-- A word that is not the lexeme of another kind is a name. -/
theorem spelling_of_ofWord {word : String} (h : Kind.ofWord word ≠ .identifier) :
    (Kind.ofWord word).spelling? = some word := by
  have table : ∀ entry ∈ Kind.keywords, entry.2.spelling? = some entry.1 := by decide
  exact table _ (Kind.mem_keywords rfl h)

theorem ofWord_spells {c : Char} {rest : List Char} (hc : isLetter c = true)
    (goes : ∀ d ∈ rest, isWordChar d = true) : (Kind.ofWord (.ofList (c :: rest))).Spells (c :: rest) := by
  by_cases hk : Kind.ofWord (.ofList (c :: rest)) = .identifier
  · rw [hk]
    refine .name hc goes fun kind h => ?_
    obtain ⟨word, other, -⟩ := ofWord_of_spelling h hc
    exact other (word.symm.trans hk)
  · exact .fixed (spelling_of_ofWord hk) (List.cons_ne_nil _ _)

theorem afterLetter_regular {c : Char} (h : isLetter c = true) (rest : List Char) :
    (afterLetter c rest).1.Regular (afterLetter c rest).2 :=
  .lexeme (ofWord_spells h fun _ m => List.mem_takeWhile_imp m)

end Piece

end Lox
