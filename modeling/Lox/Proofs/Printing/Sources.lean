import Lox.Proofs.Printing.Normal
import Lox.Proofs.Spelling

/-! # The tokens of a source

The kind of a lexeme that is no name and no literal has only that lexeme, and a literal has
a value of its kind. The end stands behind all lexemes. -/

namespace Lox

namespace Piece

/-- A lexeme is the only one of its kind, if its kind has only one. -/
def Proper : Piece → Prop
  | .lexeme kind text => kind ≠ .eof ∧ ∀ s ∈ kind.spelling?, String.ofList text = s
  | _ => True

/-- A lexeme whose kind and text are known. -/
theorem Proper.fixed {kind : Kind} {text : List Char} (h : kind.spelling? = some (.ofList text))
    (he : text ≠ []) : (lexeme kind text).Proper := by
  refine ⟨fun e => ?_, fun s hs => ?_⟩
  · rw [e] at h
    exact he (by simpa using congrArg String.toList (Option.some.inj h).symm)
  · rw [h] at hs
    exact Option.some.inj hs

/-- A lexeme of a kind that has many. -/
theorem Proper.free {kind : Kind} (text : List Char) (h : kind.spelling? = none) :
    (lexeme kind text).Proper := by
  refine ⟨fun e => ?_, fun s hs => ?_⟩
  · rw [e] at h
    cases h
  · rw [h] at hs
    cases hs

theorem single?_proper {c : Char} {k : Kind} (h : single? c = some k) : (lexeme k [c]).Proper := by
  unfold single? at h
  split at h
  all_goals cases h
  all_goals exact .fixed rfl (List.cons_ne_nil _ _)

theorem afterExtensible_proper {c : Char} {alone extended : Kind}
    (h : extensible? c = some (alone, extended)) (rest : List Char) :
    (afterExtensible c alone extended rest).1.Proper := by
  unfold extensible? at h
  unfold afterExtensible
  split at h
  all_goals cases h
  all_goals split
  all_goals exact .fixed rfl (List.cons_ne_nil _ _)

theorem afterSlash_proper (rest : List Char) : (afterSlash rest).1.Proper := by
  unfold afterSlash
  split
  · trivial
  · trivial
  · exact .fixed rfl (List.cons_ne_nil _ _)

theorem afterQuote_proper (rest : List Char) : (afterQuote rest).1.Proper := by
  unfold afterQuote
  split
  · exact .free _ rfl
  · trivial

theorem afterDigit_proper (c : Char) (rest : List Char) : (afterDigit c rest).1.Proper := by
  unfold afterDigit
  dsimp only
  split
  · split
    · exact .free _ rfl
    · exact .free _ rfl
  · exact .free _ rfl

/-- A keyword is spelled as the table of keywords has it. -/
theorem afterLetter_proper (c : Char) (rest : List Char) : (afterLetter c rest).1.Proper := by
  have table : ∀ entry ∈ Kind.keywords, entry.2.spelling? = some entry.1 := by decide
  unfold afterLetter
  dsimp only
  by_cases hk : Kind.ofWord (.ofList (c :: rest.takeWhile isWordChar)) = .identifier
  · rw [hk]
    exact .free _ rfl
  · exact .fixed (table _ (Kind.mem_keywords rfl hk)) (List.cons_ne_nil _ _)

theorem first_proper (c : Char) (rest : List Char) : (first c rest).1.Proper := by
  refine first_cases (P := fun cut => (cut rest).1.Proper) c
    ?single ?extensible ?slash ?blank ?quote ?digit ?letter ?stray
  case single => exact fun _ h => single?_proper h
  case extensible => exact fun _ _ h => afterExtensible_proper h rest
  case slash => exact fun _ => afterSlash_proper rest
  case blank => trivial
  case quote => exact fun _ => afterQuote_proper rest
  case digit => exact afterDigit_proper c rest
  case letter => exact afterLetter_proper c rest
  case stray => trivial

theorem cutAll_proper (n : Nat) (text : List Char) : ∀ p ∈ cutAll n text, p.Proper := by
  fun_induction cutAll n text with
  | case1 | case2 => simp
  | case3 n c rest ih => exact List.forall_mem_cons.mpr ⟨first_proper c rest, ih⟩

end Piece

namespace Scan

/-- The end stands behind the tokens of the lexemes. -/
theorem ofPieces_tokens {pieces : List Piece} (h : ∀ p ∈ pieces, p.Proper) : ∀ line, ∃ body last,
    (ofPieces line pieces).tokens = body ++ [.eof last] ∧ Inside body ∧ ∀ t ∈ body, t.Proper := by
  induction pieces with
  | nil => exact fun line => ⟨[], line, rfl, .nil, fun _ m => absurd m List.not_mem_nil⟩
  | cons p rest ih =>
    intro line
    obtain ⟨hp, h⟩ := List.forall_mem_cons.mp h
    obtain ⟨body, last, e, inside, proper⟩ := ih h (line + p.newlines)
    cases p with
    | lexeme kind text =>
      refine ⟨⟨kind, .ofList text, literalOf kind text, line + (Piece.lexeme kind text).newlines⟩ :: body,
        last, congrArg _ e, List.forall_mem_cons.mpr ⟨hp.1, inside⟩,
        List.forall_mem_cons.mpr ⟨⟨hp.2, fun e => ?_, fun e => ?_⟩, proper⟩⟩
      · obtain rfl : kind = .number := e
        exact ⟨_, rfl⟩
      · obtain rfl : kind = .string := e
        exact ⟨_, rfl⟩
    | blank | lineComment | blockComment | openString | stray => exact ⟨body, last, e, inside, proper⟩

end Scan

theorem scan_tokens (source : String) : ∃ body last, (scan source).tokens = body ++ [.eof last] ∧
    Inside body ∧ ∀ t ∈ body, t.Proper :=
  Scan.ofPieces_tokens (Piece.cutAll_proper _ _) 1

end Lox
