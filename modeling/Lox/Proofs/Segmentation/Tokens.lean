import Lox.Proofs.Segmentation.Longest

/-! # What a scan makes of a source

A scan goes through the row of longest pieces. Each lexeme gives a token, and each piece
that has no place in a program gives an error. -/

namespace Lox

/-- Alone, a lexeme is found whole. -/
theorem Kind.Spells.first_eq {kind : Kind} {c : Char} {after : List Char} (h : kind.Spells (c :: after)) :
    Piece.first c after = (.lexeme kind (c :: after), []) := by
  have whole := congrArg List.length (Piece.first_append c after)
  rw [List.length_append] at whole
  rcases Piece.spells_longer h (List.append_nil (c :: after)) with same | longer
  · exact same
  · exact absurd longer (Nat.not_lt.mpr (Nat.le_of_add_right_le whole.le))

theorem Kind.Spells.ne_nil {kind : Kind} {text : List Char} (h : kind.Spells text) : text ≠ [] :=
  Piece.Regular.ne_nil (Piece.Regular.lexeme h : (Piece.lexeme kind text).Regular [])

/-- Alone, a lexeme is one piece. -/
theorem Kind.Spells.segment_eq {kind : Kind} {text : List Char} (h : kind.Spells text) :
    Piece.segment text = [.lexeme kind text] := by
  obtain ⟨c, after, rfl⟩ := List.exists_cons_of_ne_nil h.ne_nil
  rw [Piece.segment_cons, h.first_eq]
  rfl

/-- No text is a lexeme of two kinds. -/
theorem Kind.Spells.unique {kind other : Kind} {text : List Char} (h : kind.Spells text)
    (ho : other.Spells text) : other = kind := by
  obtain ⟨c, after, rfl⟩ := List.exists_cons_of_ne_nil h.ne_nil
  cases h.first_eq.symm.trans ho.first_eq
  rfl

theorem Kind.Spells.ne_eof {kind : Kind} {text : List Char} (h : kind.Spells text) : kind ≠ .eof := by
  cases h with
  | fixed h some =>
    rintro rfl
    exact some (String.ofList_injective (Option.some.inj h)).symm
  | name | whole | fraction | string => exact Kind.noConfusion

namespace Piece

def lexeme? : Piece → Option (Kind × List Char)
  | .lexeme kind text => some (kind, text)
  | .blank _ | .lineComment _ | .blockComment _ | .openString _ | .stray _ => none

/-- What is said about a piece that has no place in a program. -/
def complaint? : Piece → Option String
  | .openString _ => some "Unterminated string."
  | .stray _ => some "Unexpected character."
  | .lexeme _ _ | .blank _ | .lineComment _ | .blockComment _ => none

/-- Each piece of a row fits where it is. -/
theorem Segments.fits {ps : List Piece} {text : List Char} (h : Segments ps text) :
    ∀ p ∈ ps, ∃ rest, p.Fits rest := by
  induction h with
  | nil => exact fun _ m => absurd m List.not_mem_nil
  | cons longest _ ih => exact List.forall_mem_cons.mpr ⟨⟨_, longest.fits⟩, ih⟩

end Piece

/-- A token as its lexeme has it. The kind is the only one that the lexeme has. -/
structure Token.Lexical (t : Token) : Prop where
  spells : t.kind.Spells t.lexeme.toList
  only : ∀ kind : Kind, kind.Spells t.lexeme.toList → kind = t.kind
  string : t.kind = .string → ∃ body : String, '"' ∉ body.toList ∧
    t.lexeme = "\"" ++ body ++ "\"" ∧ t.literal = some (.string body)
  number : t.kind = .number → t.literal = some (.number (Number.read t.lexeme.toList))
  other : t.kind ≠ .string → t.kind ≠ .number → t.literal = none

theorem Token.lexical_of_spells {kind : Kind} {text : List Char} (h : kind.Spells text) (line : Nat) :
    Token.Lexical ⟨kind, .ofList text, literalOf kind text, line⟩ := by
  have lexeme : (String.ofList text).toList = text := String.toList_ofList
  constructor
  case spells => exact lexeme.symm ▸ h
  case only => exact fun _ ho => h.unique (lexeme ▸ ho)
  case string =>
    intro e
    obtain rfl : kind = .string := e
    cases h with
    | fixed h => cases h
    | @string body inside =>
      refine ⟨.ofList body, String.toList_ofList.symm ▸ inside, String.toList_injective ?_, ?_⟩
      · simp [String.toList_append]
      · simp [literalOf]
  case number =>
    intro e
    obtain rfl : kind = .number := e
    exact congrArg (fun text => some (Literal.number (Number.read text))) lexeme.symm
  case other =>
    intro string number
    dsimp only at string number ⊢
    exact literalOf.eq_3 kind text string number

namespace Scan

theorem ofPieces_lexical {pieces : List Piece} (h : ∀ p ∈ pieces, ∃ rest, p.Fits rest) :
    ∀ line, ∃ body last, (ofPieces line pieces).tokens = body ++ [.eof last] ∧
      body.map (fun t => (t.kind, t.lexeme.toList)) = pieces.filterMap Piece.lexeme? ∧
      ∀ t ∈ body, t.Lexical := by
  induction pieces with
  | nil => exact fun line => ⟨[], line, rfl, rfl, fun _ m => absurd m List.not_mem_nil⟩
  | cons p rest ih =>
    intro line
    obtain ⟨⟨after, fits⟩, h⟩ := List.forall_mem_cons.mp h
    obtain ⟨body, last, tokens, lexemes, lexical⟩ := ih h (line + p.newlines)
    cases p with
    | lexeme kind text =>
      cases fits with
      | lexeme spells =>
        refine ⟨_ :: body, last, congrArg _ tokens, ?_,
          List.forall_mem_cons.mpr ⟨Token.lexical_of_spells spells _, lexical⟩⟩
        rw [List.map_cons, lexemes, String.toList_ofList]
        rfl
    | blank | lineComment | blockComment | openString | stray =>
      exact ⟨body, last, tokens, lexemes, lexical⟩

theorem ofPieces_errors (pieces : List Piece) : ∀ line,
    (ofPieces line pieces).errors.map (·.diagnostic.message) = pieces.filterMap Piece.complaint? := by
  induction pieces with
  | nil => exact fun _ => rfl
  | cons p rest ih =>
    intro line
    have later := ih (line + p.newlines)
    cases p with
    | openString | stray => exact congrArg _ later
    | lexeme | blank | lineComment | blockComment => exact later

end Scan

theorem scan_lexical (source : String) : ∃ body last, (scan source).tokens = body ++ [.eof last] ∧
    body.map (fun t => (t.kind, t.lexeme.toList)) = (Piece.segment source.toList).filterMap Piece.lexeme? ∧
    ∀ t ∈ body, t.Lexical :=
  Scan.ofPieces_lexical (Piece.segments_segment _ source.toList (Nat.le_refl _)).fits 1

/-- A source is a row of pieces, each of which is the longest that fits in its place, and
there is one such row only. The tokens are its lexemes, in order and with the end behind
them, and the errors are its open strings and stray characters. -/
theorem scan_longest_pieces (source : String) : ∃ pieces : List Piece,
    (∀ row, Piece.Segments row source.toList ↔ row = pieces) ∧
    (∃ body last, (scan source).tokens = body ++ [.eof last] ∧
      body.map (fun t => (t.kind, t.lexeme.toList)) = pieces.filterMap Piece.lexeme? ∧
      ∀ t ∈ body, t.kind ≠ .eof ∧ t.Lexical) ∧
    (scan source).errors.map (·.diagnostic.message) = pieces.filterMap Piece.complaint? := by
  have row := Piece.segments_segment _ source.toList (Nat.le_refl _)
  obtain ⟨body, last, tokens, lexemes, lexical⟩ := scan_lexical source
  exact ⟨Piece.segment source.toList, fun other => ⟨Piece.Segments.eq_segment, fun e => e ▸ row⟩,
    ⟨body, last, tokens, lexemes, fun t ht => ⟨(lexical t ht).spells.ne_eof, lexical t ht⟩⟩,
    Scan.ofPieces_errors _ 1⟩

example : (scan "1..2===/*/").tokens.map (·.lexeme) = ["1", ".", ".", "2", "==", "=", ""] := by
  decide +kernel

end Lox
