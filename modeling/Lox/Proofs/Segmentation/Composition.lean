import Lox.Proofs.Joining.Scanning
import Lox.Proofs.Segmentation.Tokens

/-! # Sources that are put together

A line break ends every piece but a string or a comment that is open, so two sources with
one between them are scanned one after the other. Any blank ends a lexeme, whatever comes
behind it, so the lexemes of a source with blanks between them are a source of the same
tokens. -/

namespace Lox

/-! ## Line breaks -/

/-- The end is behind all the line breaks. -/
theorem Scan.ofPieces_eof (line : Nat) (pieces : List Piece) : (ofPieces line pieces).tokens =
    (ofPieces line pieces).tokens.dropLast ++ [.eof (line + (pieces.flatMap Piece.text).count '\n')] := by
  have behind := ofPieces_append pieces [] line
  rw [List.append_nil] at behind
  exact congrArg Scan.tokens behind

/-- Behind a source that leaves no string and no comment open a line break takes other sources
to lines of their own. They give the tokens and errors that they give alone, as many lines
further down as there are line breaks before them, and the end of the first source goes. -/
theorem scan_goes_on_behind_break {a b : String}
    (strings : ∀ e ∈ (scan a).errors, e.problem ≠ .unterminatedString) (comments : endsInComment a = false) :
    ∃ body, (scan a).tokens = body ++ [.eof (lineBreaks a)] ∧ (∀ t ∈ body, t.kind ≠ .eof) ∧
      (scan (a ++ "\n" ++ b)).tokens = body ++ (scan b).tokens.map (·.lowered (lineBreaks a)) ∧
      (scan (a ++ "\n" ++ b)).errors = (scan a).errors ++ (scan b).errors.map (·.lowered (lineBreaks a)) := by
  have tokens : (scan a).tokens = (scan a).tokens.dropLast ++ [.eof (lineBreaks a)] := by
    have behind := Scan.ofPieces_eof 1 (Piece.segment a.toList)
    rwa [Piece.segment_text _ _ (Nat.le_refl _)] at behind
  obtain ⟨body, last, whole, -, lexical⟩ := scan_lexical a
  have others : (scan a).tokens.dropLast = body := (congrArg List.dropLast whole).trans List.dropLast_concat
  rw [others] at tokens
  rw [scan_joined strings comments, scan_underLines, Scan.followedBy, others]
  exact ⟨body, tokens, fun t m => (lexical t m).spells.ne_eof, rfl, rfl⟩

/-- No number goes on over a line break, though it goes on with a point and a digit. -/
theorem scan_goes_on_behind_break_number :
    (∀ e ∈ (scan "\n@ 1").errors, e.problem ≠ .unterminatedString) ∧
      endsInComment "\n@ 1" = false ∧
      ∃ body, (scan "\n@ 1").tokens = body ++ [.eof 2] ∧ (∀ t ∈ body, t.kind ≠ .eof) ∧
        (scan "\n@ 1\n.5 \"").tokens = body ++ (scan ".5 \"").tokens.map (·.lowered 2) ∧
        (scan "\n@ 1\n.5 \"").errors = (scan "\n@ 1").errors ++ (scan ".5 \"").errors.map (·.lowered 2) := by
  have strings : ∀ e ∈ (scan "\n@ 1").errors, e.problem ≠ .unterminatedString := by decide +kernel
  have comments : endsInComment "\n@ 1" = false := by decide +kernel
  have lines : lineBreaks "\n@ 1" = 2 := by decide +kernel
  have joined : "\n@ 1" ++ "\n" ++ ".5 \"" = "\n@ 1\n.5 \"" := by decide +kernel
  have whole := scan_goes_on_behind_break (b := ".5 \"") strings comments
  rw [lines, joined] at whole
  exact ⟨strings, comments, whole⟩

/-! ## Blanks -/

namespace Piece

/-- A row of lexemes with one blank between each two. -/
def spaced : List (Kind × List Char) → List Piece
  | [] => []
  | [e] => [.lexeme e.1 e.2]
  | e :: f :: rest => .lexeme e.1 e.2 :: .blank ' ' :: spaced (f :: rest)

theorem Fits.spells {p : Piece} {rest : List Char} (h : p.Fits rest) {e : Kind × List Char}
    (he : p.lexeme? = some e) : e.1.Spells e.2 := by
  cases p with
  | lexeme kind text =>
    cases he
    cases h with
    | lexeme spells => exact spells
  | blank | lineComment | blockComment | openString | stray => cases he

/-- No lexeme goes on behind a blank, and none is cut short by what follows there. -/
theorem segment_spaced {row : List (Kind × List Char)} (h : ∀ e ∈ row, e.1.Spells e.2) :
    segment ([' '].intercalate (row.map (·.2))) = spaced row := by
  fun_induction spaced row with
  | case1 => rfl
  | case2 e => simpa [List.intercalate] using (h e List.mem_cons_self).segment_eq
  | case3 e f rest ih =>
    obtain ⟨spells, others⟩ := List.forall_mem_cons.mp h
    have alone : segment e.2 = [.lexeme e.1 e.2] := spells.segment_eq
    have ends : ∀ p ∈ segment e.2, p.endsBefore ' ' = true := by
      rw [alone]
      exact fun p m => List.mem_singleton.mp m ▸ rfl
    have text : [' '].intercalate ((e :: f :: rest).map (·.2)) =
        e.2 ++ ' ' :: [' '].intercalate ((f :: rest).map (·.2)) := by
      simp [List.intercalate]
    rw [text, segment_seam rfl _ _ _ (Nat.le_refl _) ends, ih others, alone]
    rfl

theorem lexeme?_spaced (row : List (Kind × List Char)) : (spaced row).filterMap lexeme? = row := by
  fun_induction spaced row with
  | case1 | case2 => rfl
  | case3 e f rest ih => exact congrArg (e :: ·) ih

theorem complaint?_spaced (row : List (Kind × List Char)) : (spaced row).filterMap complaint? = [] := by
  fun_induction spaced row with
  | case1 | case2 => rfl
  | case3 e f rest ih => exact ih

end Piece

/-- What a token is, wherever it stands. -/
def Token.content (t : Token) : Kind × String × Option Literal := (t.kind, t.lexeme, t.literal)

/-- The lexemes of a source, in order and without the end, with one blank between each two. -/
def respaced (source : String) : String :=
  " ".intercalate ((scan source).tokens.dropLast.map (·.lexeme))

namespace Scan

theorem ofPieces_content (pieces : List Piece) : ∀ line, (ofPieces line pieces).tokens.map Token.content =
    (pieces.filterMap Piece.lexeme?).map (fun e => (e.1, .ofList e.2, literalOf e.1 e.2)) ++
      [(.eof, "", none)] := by
  induction pieces with
  | nil => exact fun _ => rfl
  | cons p rest ih =>
    intro line
    have later := ih (line + p.newlines)
    cases p with
    | lexeme kind text => exact congrArg _ later
    | blank | lineComment | blockComment | openString | stray => exact later

end Scan

theorem respaced_toList (source : String) : (respaced source).toList =
    [' '].intercalate (((Piece.segment source.toList).filterMap Piece.lexeme?).map (·.2)) := by
  have content := congrArg List.dropLast (Scan.ofPieces_content (Piece.segment source.toList) 1)
  rw [← List.map_dropLast, List.dropLast_concat] at content
  have lexemes := congrArg (List.map fun c => c.2.1.toList) content
  rw [List.map_map, List.map_map] at lexemes
  rw [respaced, String.toList_intercalate, List.map_map]
  refine congrArg (List.intercalate [' ']) (lexemes.trans (List.map_congr_left fun e _ => ?_))
  exact String.toList_ofList

/-- The lexemes of any source, set apart by blanks, are a source without errors and with
the same tokens, whatever separated them or stood between them before. -/
theorem scan_respaced (source : String) : (scan (respaced source)).errors = [] ∧
    (scan (respaced source)).tokens.map Token.content = (scan source).tokens.map Token.content := by
  have spells : ∀ e ∈ (Piece.segment source.toList).filterMap Piece.lexeme?, e.1.Spells e.2 := by
    intro e m
    obtain ⟨p, mp, he⟩ := List.mem_filterMap.mp m
    obtain ⟨rest, fits⟩ := (Piece.segments_segment _ source.toList (Nat.le_refl _)).fits p mp
    exact fits.spells he
  have pieces := Piece.segment_spaced spells
  rw [← respaced_toList] at pieces
  constructor
  · have errors := Scan.ofPieces_errors (Piece.segment (respaced source).toList) 1
    rw [pieces, Piece.complaint?_spaced] at errors
    rw [scan, pieces]
    exact List.map_eq_nil_iff.mp errors
  · rw [scan, scan, pieces, Scan.ofPieces_content, Scan.ofPieces_content, Piece.lexeme?_spaced]

example : respaced "1..2===/ /*/ \"*/@\"/*\"and1" = "1 . . 2 == = / \"/*\" and1" := by
  decide +kernel

end Lox
