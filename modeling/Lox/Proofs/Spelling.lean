import Lox.Scan

/-! # Words are spelled as their kinds say

A scan takes every word whole, so the kind of a word token is read off its lexeme:
an identifier is never spelled like a keyword, and `this` and `super` are spelled in
one way only. Scopes rely on it, because they bind `this` and `super` by name. -/

namespace Lox

/-- The kinds that a word can have. -/
def Kind.isWord (k : Kind) : Bool := k == .identifier || Kind.keywords.any (·.2 == k)

/-- The kind of a word is the one its lexeme has. -/
def Token.Spelled (t : Token) : Prop := t.kind.isWord = true → Kind.ofWord t.lexeme = t.kind

namespace Kind

/-- A word that is no identifier is one of the keywords. -/
theorem mem_keywords {word : String} {k : Kind} (h : ofWord word = k) (hk : k ≠ identifier) :
    (word, k) ∈ keywords := by
  unfold ofWord at h
  cases hl : keywords.lookup word with
  | none => rw [hl] at h; exact absurd h.symm hk
  | some found =>
    rw [hl] at h
    obtain rfl : found = k := h
    obtain ⟨before, after, he, _⟩ := List.lookup_eq_some_iff.mp hl
    simp [he]

end Kind

namespace Token.Spelled

variable {t : Token}

theorem identifier_ne (h : t.Spelled) (hk : t.kind = .identifier) :
    t.lexeme ≠ "this" ∧ t.lexeme ≠ "super" := by
  have hw : Kind.ofWord t.lexeme = .identifier := hk ▸ h (by rw [hk]; rfl)
  constructor
  · intro he; rw [he] at hw; revert hw; decide
  · intro he; rw [he] at hw; revert hw; decide

theorem this_eq (h : t.Spelled) (hk : t.kind = .kwThis) : t.lexeme = "this" := by
  have hw : Kind.ofWord t.lexeme = t.kind := h (by rw [hk]; rfl)
  simpa [Kind.keywords] using Kind.mem_keywords (hw.trans hk) (by decide)

theorem super_eq (h : t.Spelled) (hk : t.kind = .kwSuper) : t.lexeme = "super" := by
  have hw : Kind.ofWord t.lexeme = t.kind := h (by rw [hk]; rfl)
  simpa [Kind.keywords] using Kind.mem_keywords (hw.trans hk) (by decide)

end Token.Spelled

namespace Piece

/-- A lexeme of a word's kind is that word. -/
def Spelled : Piece → Prop
  | .lexeme kind text => kind.isWord = true → Kind.ofWord (.ofList text) = kind
  | _ => True

theorem single?_not_word {c : Char} {k : Kind} (h : single? c = some k) : k.isWord = false := by
  unfold single? at h
  split at h <;> cases h <;> decide

theorem extensible?_not_word {c : Char} {alone extended : Kind}
    (h : extensible? c = some (alone, extended)) :
    alone.isWord = false ∧ extended.isWord = false := by
  unfold extensible? at h
  split at h <;> cases h <;> decide

theorem afterExtensible_spelled {c : Char} {alone extended : Kind}
    (ha : alone.isWord = false) (he : extended.isWord = false) (rest : List Char) :
    (afterExtensible c alone extended rest).1.Spelled := by
  unfold afterExtensible
  split
  · exact fun hw => absurd hw (by simp [he])
  · exact fun hw => absurd hw (by simp [ha])

theorem afterSlash_spelled (rest : List Char) : (afterSlash rest).1.Spelled := by
  unfold afterSlash
  split
  · trivial
  · trivial
  · exact fun hw => absurd hw (by decide)

theorem afterQuote_spelled (rest : List Char) : (afterQuote rest).1.Spelled := by
  unfold afterQuote
  split
  · exact fun hw => absurd hw (by decide)
  · trivial

theorem afterDigit_spelled (c : Char) (rest : List Char) : (afterDigit c rest).1.Spelled := by
  unfold afterDigit
  dsimp only
  split
  · split <;> exact fun hw => absurd hw (by decide)
  · exact fun hw => absurd hw (by decide)

theorem first_spelled (c : Char) (rest : List Char) : (first c rest).1.Spelled := by
  refine first_cases (P := fun cut => (cut rest).1.Spelled) c
    ?single ?extensible ?slash ?blank ?quote ?digit ?letter ?stray
  case single => exact fun _ h hw => absurd hw (by simp [single?_not_word h])
  case extensible =>
    intro alone extended h
    obtain ⟨ha, he⟩ := extensible?_not_word h
    exact afterExtensible_spelled ha he rest
  case slash => exact fun _ => afterSlash_spelled rest
  case blank => trivial
  case quote => exact fun _ => afterQuote_spelled rest
  case digit => exact afterDigit_spelled c rest
  case letter => exact fun _ => rfl
  case stray => trivial

theorem cutAll_spelled (n : Nat) (text : List Char) : ∀ p ∈ cutAll n text, p.Spelled := by
  fun_induction cutAll n text with
  | case1 | case2 => simp
  | case3 n c rest ih =>
    intro p hp
    rcases List.mem_cons.mp hp with rfl | hp
    · exact first_spelled c rest
    · exact ih p hp

end Piece

theorem Scan.ofPieces_spelled {pieces : List Piece} (h : ∀ p ∈ pieces, p.Spelled) (line : Nat) :
    ∀ t ∈ (Scan.ofPieces line pieces).tokens, t.Spelled := by
  induction pieces generalizing line with
  | nil =>
    intro t ht
    obtain rfl := List.mem_singleton.mp ht
    exact fun hw => absurd hw (by simp [Token.eof, Kind.isWord, Kind.keywords])
  | cons p rest ih =>
    have hrest := ih (fun q hq => h q (List.mem_cons_of_mem _ hq)) (line + p.newlines)
    intro t ht
    cases p with
    | lexeme kind text =>
      rcases List.mem_cons.mp ht with rfl | ht
      · exact h _ List.mem_cons_self
      · exact hrest t ht
    | blank | lineComment | blockComment | openString | stray => exact hrest t ht

/-- Every token of a scan is spelled as its kind says. -/
theorem scan_spelled (source : String) : ∀ t ∈ (scan source).tokens, t.Spelled :=
  Scan.ofPieces_spelled (Piece.cutAll_spelled _ _) 1

end Lox
