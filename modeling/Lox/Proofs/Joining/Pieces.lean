import Lox.Piece

/-! # Pieces in front of a blank

No lexeme goes on behind a blank, and no piece goes on behind a line break but strings and
block comments, which end where they are closed. So a text that leaves nothing open is cut
in the same way with a blank and further text behind it. -/

namespace Lox.Piece

/-- A block comment that nothing closes, so that it goes on to the end of its text. -/
def isOpenComment : Piece → Bool
  | .blockComment text => !(['*', '/'].isSuffixOf (text.drop 2))
  | _ => false

/-- A piece that the end of its text cuts short. -/
def isCut : Piece → Bool
  | .openString _ => true
  | p => p.isOpenComment

/-- A piece that does not go on behind the given blank. A line comment ends at a line break only. -/
def endsBefore (x : Char) : Piece → Bool
  | .lineComment _ => x == '\n'
  | p => !p.isCut

theorem endsBefore_newline {p : Piece} (h : p.isCut = false) : p.endsBefore '\n' = true := by
  cases p with
  | lineComment => rfl
  | lexeme | blank | blockComment | openString | stray => exact congrArg (!·) h

section Stops

variable {α : Type} {p : α → Bool} {x : α}

theorem takeWhile_seam (hx : p x = false) (as bs : List α) :
    (as ++ x :: bs).takeWhile p = as.takeWhile p := by
  induction as with
  | nil => simp [hx]
  | cons a as ih => simp only [List.cons_append, List.takeWhile_cons, ih]

theorem dropWhile_seam (hx : p x = false) (as bs : List α) :
    (as ++ x :: bs).dropWhile p = as.dropWhile p ++ x :: bs := by
  induction as with
  | nil => simp [hx]
  | cons a as ih =>
    simp only [List.cons_append, List.dropWhile_cons, ih]
    split <;> rfl

end Stops

/-- The first piece of a text is the same with the given character and further text behind it. -/
def Goes (x : Char) (cut : List Char → Piece × List Char) (as bs : List Char) : Prop :=
  cut (as ++ x :: bs) = ((cut as).1, (cut as).2 ++ x :: bs)

/-- Two characters that end a text end it also without its first character, unless they are
all of it. -/
theorem isSuffixOf_pair_cons {a b c : Char} {cs : List Char} (h : [a, b].isSuffixOf (c :: cs) = true) :
    [a, b].isSuffixOf cs = true ∨ c = a ∧ cs = [b] := by
  rw [List.isSuffixOf_iff_suffix] at h ⊢
  rcases List.suffix_cons_iff.mp h with e | h
  · cases e
    exact .inr ⟨rfl, rfl⟩
  · exact .inl h

theorem closeComment_seam {x : Char} (hx : x ≠ '/') (bs as : List Char)
    (h : ['*', '/'].isSuffixOf (closeComment as).1 = true) :
    closeComment (as ++ x :: bs) = ((closeComment as).1, (closeComment as).2 ++ x :: bs) := by
  fun_induction closeComment as with
  | case1 => cases h
  | case2 rest => rfl
  | case3 c rest other ih =>
    rcases isSuffixOf_pair_cons h with h | ⟨rfl, e⟩
    · have apart (tail : List Char) (hc : c = '*') : rest ++ x :: bs ≠ '/' :: tail := by
        intro e
        cases rest with
        | nil => exact hx (List.cons.inj e).1
        | cons d rest => exact other rest hc (by rw [(List.cons.inj e).1])
      rw [List.cons_append, closeComment, ih h]
      exact apart
    · have whole := closeComment_append rest
      rw [e] at whole
      exact absurd whole.symm (other _ rfl)

section Blanks

theorem ne_of_isBlank {x c : Char} (hx : isBlank x = true) (hc : isBlank c = false) : x ≠ c := by
  rintro rfl
  rw [hc] at hx
  cases hx

theorem isWordChar_of_isBlank {x : Char} (hx : isBlank x = true) : isWordChar x = false := by
  simp only [isBlank, Bool.or_eq_true, beq_iff_eq] at hx
  rcases hx with ((rfl | rfl) | rfl) | rfl <;> decide

theorem isDigit_of_isBlank {x : Char} (hx : isBlank x = true) : Number.isDigit x = false :=
  (Bool.or_eq_false_iff.mp (isWordChar_of_isBlank hx)).2

variable {x : Char} (hx : isBlank x = true)
include hx

theorem afterSlash_seam (as bs : List Char) (h : (afterSlash as).1.endsBefore x = true) :
    Goes x afterSlash as bs := by
  unfold Goes
  fun_cases afterSlash as with
  | case1 rest =>
    obtain rfl : x = '\n' := beq_iff_eq.mp h
    simp only [List.cons_append, afterSlash, takeWhile_seam (p := (· != '\n')) (x := '\n') rfl,
      dropWhile_seam (p := (· != '\n')) (x := '\n') rfl]
  | case2 rest =>
    have closed : ['*', '/'].isSuffixOf (closeComment rest).1 = true := by
      simpa [afterSlash, endsBefore, isCut, isOpenComment] using h
    simp only [List.cons_append, afterSlash, closeComment_seam (ne_of_isBlank hx rfl) bs rest closed]
  | case3 _ noLine noBlock =>
    cases as with
    | nil =>
      rw [List.nil_append, afterSlash]
      · exact fun tail e => ne_of_isBlank hx (by decide) (List.cons.inj e).1
      · exact fun tail e => ne_of_isBlank hx (by decide) (List.cons.inj e).1
    | cons c rest =>
      rw [List.cons_append, afterSlash]
      · exact fun tail e => noLine rest (by rw [(List.cons.inj e).1])
      · exact fun tail e => noBlock rest (by rw [(List.cons.inj e).1])

omit hx in
theorem afterQuote_seam (as bs : List Char) (h : (afterQuote as).1.endsBefore x = true) :
    Goes x afterQuote as bs := by
  unfold Goes
  unfold afterQuote at h ⊢
  cases hd : as.dropWhile (· != '"') with
  | nil =>
    rw [hd] at h
    cases h
  | cons quote after =>
    have shorter : (as.takeWhile (· != '"')).length ≠ as.length := fun e => by
      have whole := congrArg List.length (List.takeWhile_append_dropWhile (p := (· != '"')) (l := as))
      rw [hd, List.length_append, List.length_cons] at whole
      omega
    have drop : (as ++ x :: bs).dropWhile (· != '"') = quote :: (after ++ x :: bs) := by
      rw [List.dropWhile_append, hd, List.isEmpty_cons, if_neg (by decide), List.cons_append]
    have take : (as ++ x :: bs).takeWhile (· != '"') = as.takeWhile (· != '"') := by
      rw [List.takeWhile_append, if_neg shorter]
    rw [drop, take]

/-- A point at the end of a text does not belong to the number before it, and neither does a
point in front of a blank. -/
theorem afterDigit_seam (c : Char) (as bs : List Char) : Goes x (afterDigit c) as bs := by
  have stop : Number.isDigit x = false := isDigit_of_isBlank hx
  have other : x ≠ '.' := ne_of_isBlank hx (by decide)
  unfold Goes afterDigit
  rw [takeWhile_seam stop, dropWhile_seam stop]
  dsimp only
  cases as.dropWhile Number.isDigit with
  | nil => simp [other]
  | cons point tail =>
    by_cases hp : point = '.'
    · subst hp
      cases tail with
      | nil => simp [stop]
      | cons d after =>
        simp only [List.cons_append, takeWhile_seam stop, dropWhile_seam stop]
        split
        · rfl
        · rfl
    · simp [hp]

theorem afterLetter_seam (c : Char) (as bs : List Char) : Goes x (afterLetter c) as bs := by
  have stop : isWordChar x = false := isWordChar_of_isBlank hx
  simp only [Goes, afterLetter, takeWhile_seam stop, dropWhile_seam stop]

theorem afterExtensible_seam (c : Char) (alone extended : Kind) (as bs : List Char) :
    Goes x (afterExtensible c alone extended) as bs := by
  unfold Goes
  fun_cases afterExtensible c alone extended as with
  | case1 rest => rfl
  | case2 _ other =>
    cases as with
    | nil =>
      rw [List.nil_append, afterExtensible]
      exact fun tail e => ne_of_isBlank hx (by decide) (List.cons.inj e).1
    | cons d rest =>
      rw [List.cons_append, afterExtensible]
      exact fun tail e => other rest (by rw [(List.cons.inj e).1])

theorem first_seam (c : Char) (as bs : List Char) :
    (first c as).1.endsBefore x = true → Goes x (first c) as bs := by
  refine first_cases (P := fun cut => (cut as).1.endsBefore x = true → Goes x cut as bs) c
    ?single ?extensible ?slash ?blank ?quote ?digit ?letter ?stray
  case single => exact fun _ _ _ => rfl
  case extensible => exact fun _ _ _ _ => afterExtensible_seam hx ..
  case slash => exact fun _ => afterSlash_seam hx as bs
  case blank => exact fun _ => rfl
  case quote => exact fun _ => afterQuote_seam as bs
  case digit => exact fun _ => afterDigit_seam hx ..
  case letter => exact fun _ => afterLetter_seam hx ..
  case stray => exact fun _ => rfl

end Blanks

/-! ## Rows of pieces -/

theorem first_text_ne_nil (c : Char) (rest : List Char) : (first c rest).1.text ≠ [] := by
  refine first_cases (P := fun cut => (cut rest).1.text ≠ []) c
    ?single ?extensible ?slash ?blank ?quote ?digit ?letter ?stray
  case single => exact fun _ _ => List.cons_ne_nil _ _
  case extensible =>
    intro alone extended _
    unfold afterExtensible
    split <;> exact List.cons_ne_nil _ _
  case slash =>
    intro _
    unfold afterSlash
    split <;> exact List.cons_ne_nil _ _
  case blank => exact List.cons_ne_nil _ _
  case quote =>
    intro _
    unfold afterQuote
    split <;> exact List.cons_ne_nil _ _
  case digit =>
    unfold afterDigit
    dsimp only
    split
    · split <;> exact List.cons_ne_nil _ _
    · exact List.cons_ne_nil _ _
  case letter => exact List.cons_ne_nil _ _
  case stray => exact List.cons_ne_nil _ _

theorem first_blank {c : Char} (h : isBlank c = true) : first c = fun rest => (.blank c, rest) := by
  simp only [isBlank, Bool.or_eq_true, beq_iff_eq] at h
  rcases h with ((rfl | rfl) | rfl) | rfl <;> rfl

theorem first_length (c : Char) (rest : List Char) : (first c rest).2.length ≤ rest.length := by
  have whole := congrArg List.length (first_append c rest)
  have some := List.length_pos_iff.mpr (first_text_ne_nil c rest)
  rw [List.length_append, List.length_cons] at whole
  omega

/-- With enough rounds it does not matter how many there are. -/
theorem cutAll_enough : ∀ (n m : Nat) (text : List Char), text.length ≤ n → text.length ≤ m →
    cutAll n text = cutAll m text
  | 0, 0, _, _, _ => rfl
  | 0, _ + 1, [], _, _ => rfl
  | _ + 1, 0, [], _, _ => rfl
  | _ + 1, _ + 1, [], _, _ => rfl
  | n + 1, m + 1, c :: rest, hn, hm => by
    have shorter := first_length c rest
    rw [List.length_cons] at hn hm
    rw [cutAll, cutAll, cutAll_enough n m _ (by omega) (by omega)]

theorem segment_cons (c : Char) (rest : List Char) :
    segment (c :: rest) = (first c rest).1 :: segment (first c rest).2 := by
  rw [segment, List.length_cons, cutAll, cutAll_enough _ _ _ (first_length c rest) (Nat.le_refl _)]
  rfl

/-- A text that leaves nothing open is cut in the same way in front of a blank. -/
theorem segment_seam {x : Char} (hx : isBlank x = true) (bs : List Char) (n : Nat) :
    ∀ as : List Char, as.length ≤ n → (∀ p ∈ segment as, p.endsBefore x = true) →
      segment (as ++ x :: bs) = segment as ++ .blank x :: segment bs := by
  have blank : segment (x :: bs) = .blank x :: segment bs := by
    rw [segment_cons, first_blank hx]
  induction n with
  | zero =>
    intro as short _
    rw [List.eq_nil_of_length_eq_zero (Nat.le_zero.mp short), List.nil_append, blank]
    rfl
  | succ n ih =>
    intro as short h
    cases as with
    | nil => exact blank
    | cons c as =>
      rw [segment_cons] at h ⊢
      obtain ⟨first, others⟩ := List.forall_mem_cons.mp h
      have shorter := first_length c as
      rw [List.length_cons] at short
      rw [List.cons_append, segment_cons, first_seam hx c as bs first, ih _ (by omega) others,
        List.cons_append]

theorem closeComment_open (text : List Char) (h : ['*', '/'].isSuffixOf (closeComment text).1 = false) :
    (closeComment text).2 = [] := by
  fun_induction closeComment text with
  | case1 => rfl
  | case2 rest => cases h
  | case3 c rest other ih =>
    refine ih (Bool.eq_false_iff.mpr fun closed => Bool.eq_false_iff.mp h ?_)
    rw [List.isSuffixOf_iff_suffix] at closed ⊢
    exact closed.trans (List.suffix_cons _ _)

theorem first_open (c : Char) (rest : List Char) :
    (first c rest).1.isOpenComment = true → (first c rest).2 = [] := by
  refine first_cases (P := fun cut => (cut rest).1.isOpenComment = true → (cut rest).2 = []) c
    ?single ?extensible ?slash ?blank ?quote ?digit ?letter ?stray
  case slash =>
    intro _ h
    unfold afterSlash at h ⊢
    split at h
    · cases h
    · exact closeComment_open _ (by simpa [isOpenComment] using h)
    · cases h
  case extensible =>
    intro _ _ _ h
    unfold afterExtensible at h
    split at h <;> cases h
  case quote =>
    intro _ h
    unfold afterQuote at h
    split at h <;> cases h
  case digit =>
    intro h
    unfold afterDigit at h
    dsimp only at h
    split at h
    · split at h <;> cases h
    · cases h
  case single => exact fun _ _ h => by cases h
  case blank | letter | stray => exact fun h => by cases h

/-- A comment that is not closed is the last piece. -/
theorem getLast?_of_open {p : Piece} (n : Nat) : ∀ text : List Char, text.length ≤ n → p ∈ segment text →
    p.isOpenComment = true → (segment text).getLast? = some p := by
  induction n with
  | zero =>
    intro text short m
    rw [List.eq_nil_of_length_eq_zero (Nat.le_zero.mp short)] at m
    exact absurd m List.not_mem_nil
  | succ n ih =>
    intro text short m h
    cases text with
    | nil => exact absurd m List.not_mem_nil
    | cons c rest =>
      have shorter := first_length c rest
      rw [List.length_cons] at short
      rw [segment_cons] at m ⊢
      rcases List.mem_cons.mp m with rfl | later
      · rw [first_open c rest h]
        rfl
      · have last := ih _ (by omega) later h
        rw [List.getLast?_cons, last]
        rfl

/-- The pieces of a text make it up. -/
theorem segment_text (n : Nat) : ∀ as : List Char, as.length ≤ n → (segment as).flatMap text = as := by
  induction n with
  | zero =>
    intro as short
    rw [List.eq_nil_of_length_eq_zero (Nat.le_zero.mp short)]
    rfl
  | succ n ih =>
    intro as short
    cases as with
    | nil => rfl
    | cons c as =>
      have shorter := first_length c as
      rw [List.length_cons] at short
      rw [segment_cons, List.flatMap_cons, ih _ (by omega), first_append]

end Lox.Piece
