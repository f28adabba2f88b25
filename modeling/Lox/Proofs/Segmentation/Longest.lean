import Lox.Proofs.Segmentation.Grammar
import Lox.Scan

/-! # The longest pieces

Whatever piece of the grammar fits at the beginning of a text, the piece that is found
there is that one or a longer one. So the row of longest pieces is found, and there is
no other. -/

namespace Lox

namespace Piece

/-- A piece that fits is found, or a longer one is. -/
def FoundOrLonger (p : Piece) (rest : List Char) (found : Piece × List Char) : Prop :=
  found = (p, rest) ∨ p.text.length < found.1.text.length

/-- Items in front of a text are the whole run of its first items, or the run is longer. -/
theorem run_or_longer {α : Type} {p : α → Bool} {run : List α} (h : ∀ x ∈ run, p x = true)
    (rest : List α) :
    (run ++ rest).takeWhile p = run ∧ (run ++ rest).dropWhile p = rest ∨
      run.length < ((run ++ rest).takeWhile p).length := by
  rw [List.takeWhile_append_of_pos h, List.dropWhile_append_of_pos h]
  cases rest with
  | nil => exact .inl ⟨List.append_nil _, rfl⟩
  | cons x rest =>
    cases hx : p x with
    | false => exact .inl ⟨by simp [hx], by simp [hx]⟩
    | true => exact .inr (by simp [hx])

theorem closeComment_first {body : List Char} (rest : List Char) (h : ¬ ['*', '/'] <:+: body ++ ['*']) :
    closeComment (body ++ '*' :: '/' :: rest) = (body ++ ['*', '/'], rest) := by
  induction body with
  | nil => rfl
  | cons c body ih =>
    obtain ⟨start, later⟩ := not_or.mp (mt pair_infix_cons.mpr h)
    rw [List.cons_append, closeComment, ih later]
    · rfl
    · intro tail hc e
      cases body with
      | nil => cases e
      | cons d body => exact start ⟨hc, congrArg some (List.cons.inj e).1⟩

theorem closeComment_none {body : List Char} (h : ¬ ['*', '/'] <:+: body) :
    closeComment body = (body, []) := by
  induction body with
  | nil => rfl
  | cons c body ih =>
    obtain ⟨start, later⟩ := not_or.mp (mt pair_infix_cons.mpr h)
    rw [closeComment, ih later]
    exact fun tail hc e => start ⟨hc, by rw [e]; rfl⟩

theorem afterQuote_closed {body : List Char} (rest : List Char) (h : '"' ∉ body) :
    afterQuote (body ++ '"' :: rest) = (.lexeme .string ('"' :: body ++ ['"']), rest) := by
  have other : ∀ c ∈ body, (c != '"') = true := fun c m => bne_iff_ne.mpr fun e => h (e ▸ m)
  rw [afterQuote, List.takeWhile_append_of_pos other, List.dropWhile_append_of_pos other]
  simp

theorem afterQuote_open {body : List Char} (h : '"' ∉ body) : afterQuote body = (.openString ('"' :: body), []) := by
  have other : ∀ c ∈ body, (c != '"') = true := fun c m => bne_iff_ne.mpr fun e => h (e ▸ m)
  rw [afterQuote, List.dropWhile_eq_nil_iff.mpr other]

theorem afterLetter_longer {c : Char} {word : List Char} (rest : List Char)
    (h : ∀ d ∈ word, isWordChar d = true) :
    FoundOrLonger (.lexeme (Kind.ofWord (.ofList (c :: word))) (c :: word)) rest
      (afterLetter c (word ++ rest)) := by
  rw [afterLetter]
  rcases run_or_longer h rest with ⟨run, after⟩ | longer
  · rw [run, after]
    exact .inl rfl
  · exact .inr (Nat.succ_lt_succ longer)

theorem afterDigit_whole {c : Char} {digits : List Char} (rest : List Char)
    (h : ∀ d ∈ digits, Number.isDigit d = true) :
    FoundOrLonger (.lexeme .number (c :: digits)) rest (afterDigit c (digits ++ rest)) := by
  unfold afterDigit
  rcases run_or_longer h rest with ⟨run, after⟩ | longer
  · rw [run, after]
    split
    · split
      · exact .inr (by simp [text])
      · exact .inl rfl
    · exact .inl rfl
  · split
    · split
      · exact .inr (by simp [text]; omega)
      · exact .inr (Nat.succ_lt_succ longer)
    · exact .inr (Nat.succ_lt_succ longer)

theorem afterDigit_fraction {c d : Char} {digits part : List Char} (rest : List Char)
    (h : ∀ x ∈ digits, Number.isDigit x = true) (hd : ∀ x ∈ d :: part, Number.isDigit x = true) :
    FoundOrLonger (.lexeme .number (c :: digits ++ '.' :: d :: part)) rest
      (afterDigit c (digits ++ '.' :: d :: part ++ rest)) := by
  obtain ⟨first, others⟩ := List.forall_mem_cons.mp hd
  rw [afterDigit, List.append_assoc, List.takeWhile_append_of_pos h, List.dropWhile_append_of_pos h]
  have stop : Number.isDigit '.' = false := by decide
  simp only [List.cons_append, List.takeWhile_cons, List.dropWhile_cons, stop, first, Bool.false_eq_true,
    if_false, if_true, List.append_nil]
  rcases run_or_longer others rest with ⟨run, after⟩ | longer
  · rw [run, after]
    exact .inl rfl
  · exact .inr (by simp [text]; omega)

theorem afterExtensible_longer (c : Char) (alone extended : Kind) (rest : List Char) :
    FoundOrLonger (.lexeme alone [c]) rest (afterExtensible c alone extended rest) := by
  fun_cases afterExtensible c alone extended rest with
  | case1 rest => exact .inr (Nat.lt_succ_self 1)
  | case2 => exact .inl rfl

theorem afterSlash_longer (rest : List Char) :
    FoundOrLonger (.lexeme .slash ['/']) rest (afterSlash rest) := by
  fun_cases afterSlash rest with
  | case1 rest => exact .inr (Nat.succ_lt_succ (Nat.succ_pos _))
  | case2 rest => exact .inr (Nat.succ_lt_succ (Nat.succ_pos _))
  | case3 => exact .inl rfl

theorem afterSlash_line {body : List Char} (rest : List Char) (h : '\n' ∉ body) :
    FoundOrLonger (.lineComment ('/' :: '/' :: body)) rest (afterSlash ('/' :: (body ++ rest))) := by
  have inside : ∀ c ∈ body, (c != '\n') = true := fun c m => bne_iff_ne.mpr fun e => h (e ▸ m)
  rw [afterSlash]
  rcases run_or_longer inside rest with ⟨run, after⟩ | longer
  · rw [run, after]
    exact .inl rfl
  · exact .inr (Nat.succ_lt_succ (Nat.succ_lt_succ longer))

theorem afterSlash_closed {body : List Char} (rest : List Char) (h : ¬ ['*', '/'] <:+: body ++ ['*']) :
    afterSlash ('*' :: (body ++ '*' :: '/' :: rest)) =
      (.blockComment ('/' :: '*' :: (body ++ ['*', '/'])), rest) := by
  rw [afterSlash, closeComment_first rest h]

theorem afterSlash_open {body : List Char} (h : ¬ ['*', '/'] <:+: body) :
    afterSlash ('*' :: body) = (.blockComment ('/' :: '*' :: body), []) := by
  rw [afterSlash, closeComment_none h]

theorem operator_longer {kind : Kind} {c : Char} {text : List Char} (rest : List Char)
    (h : kind.spelling? = some (.ofList (c :: text))) (hc : isLetter c = false) :
    FoundOrLonger (.lexeme kind (c :: text)) rest (first c (text ++ rest)) := by
  cases kind with
  | identifier | string | number => cases h
  | eof => cases String.ofList_injective (Option.some.inj h)
  | leftParen | rightParen | leftBrace | rightBrace | comma | dot | minus | plus | semicolon | star
  | bangEqual | equalEqual | greaterEqual | lessEqual =>
    obtain ⟨rfl, rfl⟩ := List.cons.inj (String.ofList_injective (Option.some.inj h))
    exact .inl rfl
  | bang | equal | greater | less =>
    obtain ⟨rfl, rfl⟩ := List.cons.inj (String.ofList_injective (Option.some.inj h))
    exact afterExtensible_longer ..
  | slash =>
    obtain ⟨rfl, rfl⟩ := List.cons.inj (String.ofList_injective (Option.some.inj h))
    exact afterSlash_longer rest
  | kwAnd | kwClass | kwElse | kwFalse | kwFun | kwFor | kwIf | kwNil | kwOr | kwPrint | kwReturn
  | kwSuper | kwThis | kwTrue | kwVar | kwWhile =>
    obtain ⟨rfl, -⟩ := List.cons.inj (String.ofList_injective (Option.some.inj h))
    cases hc

theorem spells_longer {kind : Kind} {text rest : List Char} (h : kind.Spells text) {c : Char}
    {after : List Char} (he : text ++ rest = c :: after) :
    FoundOrLonger (.lexeme kind text) rest (first c after) := by
  cases h with
  | fixed h some =>
    obtain ⟨d, text, rfl⟩ := List.exists_cons_of_ne_nil some
    obtain ⟨rfl, rfl⟩ := List.cons.inj he
    cases letter : isLetter d with
    | false => exact operator_longer rest h letter
    | true =>
      obtain ⟨word, -, goes⟩ := ofWord_of_spelling h letter
      rw [first_letter letter, ← word]
      exact afterLetter_longer rest goes
  | @name d text begins goes free =>
    obtain ⟨rfl, rfl⟩ := List.cons.inj he
    have word : Kind.ofWord (.ofList (d :: text)) = .identifier := by
      by_contra other
      exact free _ (spelling_of_ofWord other)
    rw [first_letter begins, ← word]
    exact afterLetter_longer rest goes
  | whole some h =>
    obtain ⟨d, digits, rfl⟩ := List.exists_cons_of_ne_nil some
    obtain ⟨rfl, rfl⟩ := List.cons.inj he
    obtain ⟨hd, others⟩ := List.forall_mem_cons.mp h
    rw [first_digit hd]
    exact afterDigit_whole rest others
  | fraction some h more hp =>
    obtain ⟨d, digits, rfl⟩ := List.exists_cons_of_ne_nil some
    obtain ⟨e, part, rfl⟩ := List.exists_cons_of_ne_nil more
    obtain ⟨rfl, rfl⟩ := List.cons.inj he
    obtain ⟨hd, others⟩ := List.forall_mem_cons.mp h
    rw [first_digit hd]
    exact afterDigit_fraction rest others hp
  | @string body h =>
    obtain ⟨rfl, rfl⟩ := List.cons.inj he
    refine .inl ?_
    change afterQuote (body ++ ['"'] ++ rest) = _
    rw [List.append_assoc]
    exact afterQuote_closed rest h

/-- A piece of the grammar is found where it fits, or a longer one is. -/
theorem Regular.longer {p : Piece} {rest : List Char} (h : p.Regular rest) {c : Char}
    {after : List Char} (he : p.text ++ rest = c :: after) : FoundOrLonger p rest (first c after) := by
  cases h with
  | lexeme h => exact spells_longer h he
  | blank h =>
    obtain ⟨rfl, rfl⟩ := List.cons.inj he
    rw [first_blank h]
    exact .inl rfl
  | lineComment h =>
    obtain ⟨rfl, rfl⟩ := List.cons.inj he
    exact afterSlash_line rest h
  | @blockComment body rest h =>
    obtain ⟨rfl, rfl⟩ := List.cons.inj he
    refine .inl ?_
    change afterSlash ('*' :: (body ++ ['*', '/'] ++ rest)) = _
    rw [List.append_assoc]
    exact afterSlash_closed rest h
  | openComment h =>
    rw [List.append_nil] at he
    obtain ⟨rfl, rfl⟩ := List.cons.inj he
    exact .inl (afterSlash_open h)
  | openString h =>
    rw [List.append_nil] at he
    obtain ⟨rfl, rfl⟩ := List.cons.inj he
    exact .inl (afterQuote_open h)

theorem Regular.ne_nil {p : Piece} {rest : List Char} (h : p.Regular rest) : p.text ≠ [] := by
  cases h with
  | lexeme h =>
    cases h with
    | fixed _ some => exact some
    | whole some => exact some
    | name | string => exact List.cons_ne_nil _ _
    | fraction some => exact List.append_ne_nil_of_left_ne_nil some _
  | blank | lineComment | blockComment | openComment | openString => exact List.cons_ne_nil _ _

theorem Regular.fits {p : Piece} {rest : List Char} (h : p.Regular rest) : p.Fits rest := by
  cases p with
  | stray c => cases h
  | lexeme | blank | lineComment | blockComment | openString => exact h

/-- What is found fits. -/
theorem first_fits (c : Char) (rest : List Char) : (first c rest).1.Fits (first c rest).2 := by
  refine first_sorts (P := fun cut => first c = cut → (cut rest).1.Fits (cut rest).2) c
    ?single ?extensible ?slash ?blank ?quote ?digit ?letter ?stray rfl
  case single => exact fun _ h _ => .lexeme (single?_spells h)
  case extensible => exact fun _ _ h _ => (afterExtensible_regular h rest).fits
  case slash => exact fun _ _ => (afterSlash_regular rest).fits
  case blank => exact fun h _ => .blank h
  case quote => exact fun _ _ => (afterQuote_regular rest).fits
  case digit => exact fun h _ => (afterDigit_regular h rest).fits
  case letter => exact fun h _ => (afterLetter_regular h rest).fits
  case stray =>
    intro found q after regular he
    have longer := regular.longer he
    rw [found] at longer
    rcases longer with same | longer
    · cases (Prod.mk.inj same).1
      cases regular
    · exact regular.ne_nil (List.eq_nil_of_length_eq_zero (Nat.lt_one_iff.mp longer))

/-- What fits is found, or a longer piece is. -/
theorem Fits.longer {p : Piece} {rest : List Char} (h : p.Fits rest) {c : Char}
    {after : List Char} (he : p.text ++ rest = c :: after) : FoundOrLonger p rest (first c after) := by
  cases p with
  | lexeme | blank | lineComment | blockComment | openString => exact Regular.longer h he
  | stray d =>
    obtain ⟨rfl, rfl⟩ := List.cons.inj he
    have whole := first_append d rest
    have fits := first_fits d rest
    refine .inl (show first d rest = (.stray d, rest) from ?_)
    generalize first d rest = found at whole fits ⊢
    obtain ⟨q, after⟩ := found
    cases q with
    | lexeme | blank | lineComment | blockComment | openString => exact absurd whole (h _ _ fits)
    | stray e =>
      obtain ⟨rfl, rfl⟩ := List.cons.inj whole
      rfl

theorem Fits.ne_nil {p : Piece} {rest : List Char} (h : p.Fits rest) : p.text ≠ [] := by
  cases p with
  | lexeme | blank | lineComment | blockComment | openString => exact Regular.ne_nil h
  | stray => exact List.cons_ne_nil _ _

theorem first_longest (c : Char) (rest : List Char) : (first c rest).1.Longest (first c rest).2 where
  fits := first_fits c rest
  longest q after fits he := by
    rw [first_append] at he
    rcases fits.longer he with same | longer
    · rw [same]
    · exact longer.le

/-- The longest piece is the one that is found. -/
theorem Longest.found {p : Piece} {rest : List Char} (h : p.Longest rest) {c : Char}
    {after : List Char} (he : p.text ++ rest = c :: after) : first c after = (p, rest) := by
  rcases h.fits.longer he with same | longer
  · exact same
  · have bound := h.longest _ _ (first_fits c after) ((first_append c after).trans he.symm)
    exact absurd longer (Nat.not_lt.mpr bound)

/-- The row of longest pieces is there. -/
theorem segments_segment (n : Nat) : ∀ text : List Char, text.length ≤ n → Segments (segment text) text := by
  induction n with
  | zero =>
    intro text short
    rw [List.eq_nil_of_length_eq_zero (Nat.le_zero.mp short)]
    exact .nil
  | succ n ih =>
    intro text short
    cases text with
    | nil => exact .nil
    | cons c rest =>
      have shorter := first_length c rest
      rw [List.length_cons] at short
      have row := Segments.cons (first_longest c rest) (ih _ (by omega))
      rw [first_append] at row
      rw [segment_cons]
      exact row

/-- There is no other row of longest pieces. -/
theorem Segments.eq_segment {ps : List Piece} {text : List Char} (h : Segments ps text) :
    ps = segment text := by
  induction h with
  | nil => rfl
  | @cons p rest ps longest _ ih =>
    obtain ⟨c, after, he⟩ := List.exists_cons_of_ne_nil
      (List.append_ne_nil_of_left_ne_nil longest.fits.ne_nil rest)
    rw [he, segment_cons, longest.found he, ← ih]

end Piece

end Lox
