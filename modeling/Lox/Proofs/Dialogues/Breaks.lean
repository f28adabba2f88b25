import Lox.Proofs.Segmentation.Longest

/-! # A text that ends at a line break

The text in front of a line break is cut into the pieces of the whole text, as far as
these do not go on behind the break. What does go on is a string or a comment. -/

namespace Lox.Piece

def kind? : Piece → Option Kind
  | .lexeme kind _ => some kind
  | _ => none

/-- The kinds of the lexemes among some pieces. -/
def kinds (ps : List Piece) : List Kind := ps.filterMap kind?

/-- How many characters some pieces take up. -/
def size (ps : List Piece) : Nat := (ps.flatMap text).length

variable {p : Piece} {ps qs : List Piece}

@[simp] theorem size_nil : size [] = 0 := rfl

@[simp] theorem size_cons : size (p :: ps) = p.text.length + size ps := by
  rw [size, List.flatMap_cons, List.length_append]
  rfl

@[simp] theorem size_append : size (ps ++ qs) = size ps + size qs := by
  rw [size, List.flatMap_append, List.length_append]
  rfl

theorem size_segment (text : List Char) : size (segment text) = text.length :=
  congrArg List.length (segment_text _ text (Nat.le_refl _))

theorem kinds_append : kinds (ps ++ qs) = kinds ps ++ kinds qs := List.filterMap_append

theorem Segments.ne_nil {text : List Char} (h : Segments ps text) : ∀ p ∈ ps, p.text ≠ [] := by
  induction h with
  | nil => exact fun _ m => absurd m List.not_mem_nil
  | cons longest _ ih => exact List.forall_mem_cons.mpr ⟨longest.fits.ne_nil, ih⟩

theorem text_ne_nil {text : List Char} (m : p ∈ segment text) : p.text ≠ [] :=
  (segments_segment _ text (Nat.le_refl _)).ne_nil p m

/-- A piece that opens no brace and closes none. -/
def IsPlain (p : Piece) : Prop := p.kind? ≠ some .leftBrace ∧ p.kind? ≠ some .rightBrace

theorem IsPlain.of_none (h : p.kind? = none) : p.IsPlain := ⟨by simp [h], by simp [h]⟩

/-- What has no end in a text has none in front of the line break behind it. -/
theorem closeComment_over (bs as : List Char) (h : ['*', '/'].isSuffixOf (closeComment as).1 = false) :
    as.length + 1 ≤ (closeComment (as ++ '\n' :: bs)).1.length := by
  fun_induction closeComment as with
  | case1 => simp [closeComment]
  | case2 rest => cases h
  | case3 c rest other ih =>
    have inner : ['*', '/'].isSuffixOf (closeComment rest).1 = false := by
      refine Bool.eq_false_iff.mpr fun closed => Bool.eq_false_iff.mp h ?_
      rw [List.isSuffixOf_iff_suffix] at closed ⊢
      exact closed.trans (List.suffix_cons _ _)
    have apart (tail : List Char) (hc : c = '*') : rest ++ '\n' :: bs ≠ '/' :: tail := by
      intro e
      cases rest with
      | nil => cases e
      | cons d rest => exact other rest hc (by rw [(List.cons.inj e).1])
    rw [List.cons_append, closeComment, List.length_cons, List.length_cons]
    · exact Nat.succ_le_succ (ih inner)
    · exact apart

/-- What a piece that its text cuts short becomes in front of a line break and more text. -/
structure GoesOn (cut : List Char → Piece × List Char) (as bs : List Char) : Prop where
  rest : (cut as).2 = []
  kind : (cut as).1.kind? = none
  plain : (cut (as ++ '\n' :: bs)).1.IsPlain
  longer : as.length + 2 ≤ (cut (as ++ '\n' :: bs)).1.text.length

theorem afterSlash_goesOn (as bs : List Char) :
    (afterSlash as).1.isCut = true → GoesOn afterSlash as bs := by
  fun_cases afterSlash as with
  | case1 rest => exact fun h => by cases h
  | case2 rest =>
    intro h
    have unclosed : ['*', '/'].isSuffixOf (closeComment rest).1 = false := by
      simpa [isCut, isOpenComment] using h
    have longer := closeComment_over bs rest unclosed
    refine ⟨closeComment_open rest unclosed, rfl, .of_none rfl, ?_⟩
    simp only [List.cons_append, afterSlash, text, List.length_cons]
    omega
  | case3 => exact fun h => by cases h

theorem afterQuote_goesOn (as bs : List Char) (h : (afterQuote as).1.isCut = true) :
    GoesOn afterQuote as bs := by
  unfold afterQuote at h
  split at h
  · cases h
  · rename_i ends
    have unquoted : ∀ c ∈ as, (c != '"') = true := List.dropWhile_eq_nil_iff.mp ends
    have drop : (as ++ '\n' :: bs).dropWhile (· != '"') = bs.dropWhile (· != '"') := by
      rw [List.dropWhile_append_of_pos unquoted]
      simp
    have take : (as ++ '\n' :: bs).takeWhile (· != '"') = as ++ '\n' :: bs.takeWhile (· != '"') := by
      rw [List.takeWhile_append_of_pos unquoted]
      simp
    refine ⟨?rest, ?kind, ?plain, ?longer⟩
    case rest => simp only [afterQuote, ends]
    case kind => simp only [afterQuote, ends, kind?]
    case plain =>
      simp only [afterQuote, drop]
      split <;> exact ⟨by simp [kind?], by simp [kind?]⟩
    case longer =>
      simp only [afterQuote, drop, take]
      split <;> simp only [text, List.length_append, List.length_cons] <;> omega

theorem first_goesOn (c : Char) (as bs : List Char) :
    (first c as).1.isCut = true → GoesOn (first c) as bs := by
  refine first_cases (P := fun cut => (cut as).1.isCut = true → GoesOn cut as bs) c
    ?single ?extensible ?slash ?blank ?quote ?digit ?letter ?stray
  case slash => exact fun _ => afterSlash_goesOn as bs
  case quote => exact fun _ => afterQuote_goesOn as bs
  case single => exact fun _ _ h => by cases h
  case extensible =>
    intro _ _ _ h
    unfold afterExtensible at h
    split at h <;> cases h
  case digit =>
    intro h
    unfold afterDigit at h
    dsimp only at h
    split at h
    · split at h <;> cases h
    · cases h
  case blank | letter | stray => exact fun h => by cases h

/-- The pieces of a text in front of a line break, and what may follow: the piece that takes
up the line break is no brace. -/
theorem segment_break (n : Nat) : ∀ as : List Char, as.length ≤ n →
    ∃ ps cut, segment as = ps ++ cut ∧ kinds cut = [] ∧ ∀ bs, ∃ torn later,
      segment (as ++ '\n' :: bs) = ps ++ torn :: later ∧ torn.IsPlain ∧
      as.length + 1 ≤ size ps + torn.text.length := by
  induction n with
  | zero =>
    intro as short
    rw [List.eq_nil_of_length_eq_zero (Nat.le_zero.mp short)]
    exact ⟨[], [], rfl, rfl, fun bs => ⟨.blank '\n', segment bs, segment_cons _ _, ⟨nofun, nofun⟩,
      Nat.le_refl _⟩⟩
  | succ n ih =>
    intro as short
    cases as with
    | nil =>
      exact ⟨[], [], rfl, rfl, fun bs => ⟨.blank '\n', segment bs, segment_cons _ _, ⟨nofun, nofun⟩,
        Nat.le_refl _⟩⟩
    | cons c as =>
      cases whole : (first c as).1.isCut with
      | true =>
        refine ⟨[], [(first c as).1], ?_, ?_, fun bs => ?_⟩
        · rw [segment_cons, (first_goesOn c as [] whole).rest]
          rfl
        · rw [kinds, List.filterMap_cons, (first_goesOn c as [] whole).kind]
          rfl
        · have goesOn := first_goesOn c as bs whole
          refine ⟨_, _, segment_cons _ _, goesOn.plain, ?_⟩
          rw [size_nil, Nat.zero_add]
          exact goesOn.longer
      | false =>
        have shorter := first_length c as
        rw [List.length_cons] at short
        obtain ⟨ps, cut, e, none, further⟩ := ih (first c as).2 (by omega)
        refine ⟨(first c as).1 :: ps, cut, by rw [segment_cons, e]; rfl, none, fun bs => ?_⟩
        obtain ⟨torn, later, e', plain, enough⟩ := further bs
        refine ⟨torn, later, ?_, plain, ?_⟩
        · rw [List.cons_append, segment_cons, first_seam rfl c as bs (endsBefore_newline whole), e', List.cons_append]
        · have parts := congrArg List.length (first_append c as)
          rw [List.length_append] at parts
          rw [size_cons]
          omega

/-- Whether one part of a text ends at a line break, or the other one begins with it. -/
def AtBreak (front back : List Char) : Prop := front.getLast? = some '\n' ∨ back.head? = some '\n'

/-- A text that is cut at a line break has the same braces in front of the cut, cut or not. -/
theorem segment_atBreak {front back : List Char} (h : AtBreak front back) : ∃ ps torn later more,
    segment (front ++ back) = ps ++ torn :: later ∧ torn.IsPlain ∧
      (kinds (segment front) = kinds ps ++ more ∧ ∀ k ∈ more, k ≠ .leftBrace ∧ k ≠ .rightBrace) ∧
      size ps ≤ front.length ∧ front.length ≤ size ps + torn.text.length := by
  rcases h with last | next
  · obtain ⟨as, rfl⟩ := List.getLast?_eq_some_iff.mp last
    obtain ⟨ps, cut, e, -, further⟩ := segment_break _ as (Nat.le_refl _)
    obtain ⟨torn, later, whole, plain, enough⟩ := further back
    obtain ⟨torn', later', whole', plain', enough'⟩ := further []
    have total := size_segment (as ++ ['\n'])
    have within := size_segment as
    rw [whole', size_append, size_cons, List.length_append, List.length_singleton] at total
    rw [e, size_append] at within
    have nothing : later' = [] := by
      cases later' with
      | nil => rfl
      | cons p later' =>
        have m : p ∈ segment (as ++ ['\n']) := by simp [whole']
        have solid := List.length_pos_iff.mpr (text_ne_nil m)
        rw [size_cons] at total
        omega
    refine ⟨ps, torn, later, kinds [torn'], by simpa using whole, plain, ⟨?_, ?_⟩, ?_, ?_⟩
    · rw [whole', nothing, kinds_append]
    · intro k hk
      obtain ⟨p, m, hp⟩ := List.mem_filterMap.mp hk
      obtain rfl := List.mem_singleton.mp m
      exact ⟨fun e => plain'.1 (e ▸ hp), fun e => plain'.2 (e ▸ hp)⟩
    · simp only [List.length_append, List.length_singleton]
      omega
    · simpa using enough
  · obtain ⟨bs, rfl⟩ := List.head?_eq_some_iff.mp next
    obtain ⟨ps, cut, e, none, further⟩ := segment_break _ front (Nat.le_refl _)
    obtain ⟨torn, later, whole, plain, enough⟩ := further bs
    have within := size_segment front
    rw [e, size_append] at within
    refine ⟨ps, torn, later, [], whole, plain, ⟨?_, nofun⟩, by omega, by omega⟩
    rw [e, kinds_append, none]

end Lox.Piece
