import Lox.Proofs.Segmentation.Tokens

/-! # The lines of tokens and errors

A piece carries the line on which it ends, which is found by counting the newlines of
the pieces up to it. Since the pieces make up the source, these are the newlines of the
source up to there, whatever kinds of pieces they stand in. -/

namespace Lox

/-- The line on which a source stands behind the given text. -/
def lineAfter (text : List Char) : Nat := 1 + text.count '\n'

theorem lineAfter_append (before text : List Char) :
    lineAfter (before ++ text) = lineAfter before + text.count '\n' := by
  rw [lineAfter, lineAfter, List.count_append, Nat.add_assoc]

namespace Piece

/-- The token that a piece is, if it is one, on the given line. -/
def token? (line : Nat) : Piece → Option Token
  | .lexeme kind text => some ⟨kind, .ofList text, literalOf kind text, line⟩
  | .blank _ | .lineComment _ | .blockComment _ | .openString _ | .stray _ => none

/-- The error that a piece is, if it is one. A stray character is on the line of the text
before it, and a string that is never closed is on the last line of the whole source. -/
def error? (before whole : List Char) : Piece → Option LexicalError
  | .stray _ => some ⟨.unexpectedCharacter, lineAfter before⟩
  | .openString _ => some ⟨.unterminatedString, lineAfter whole⟩
  | .lexeme _ _ | .blank _ | .lineComment _ | .blockComment _ => none

/-- The pieces of a row, each with all the text before it. -/
def places (before : List Char) : List Piece → List (List Char × Piece)
  | [] => []
  | p :: rest => (before, p) :: places (before ++ p.text) rest

/-- A newline is a blank, and so it is not stray. -/
theorem Longest.ne_newline {c : Char} {rest : List Char} (h : (stray c).Longest rest) : c ≠ '\n' :=
  fun newline => h.fits (.blank c) rest (.blank (newline ▸ rfl)) rfl

theorem Longest.error?_eq {p : Piece} {rest : List Char} (h : p.Longest rest) (before : List Char) :
    p.error? before (before ++ (p.text ++ rest)) =
      match p with
      | .stray _ => some ⟨.unexpectedCharacter, lineAfter (before ++ p.text)⟩
      | .openString _ => some ⟨.unterminatedString, lineAfter (before ++ p.text)⟩
      | _ => none := by
  cases p with
  | stray c =>
    have line : lineAfter (before ++ (stray c).text) = lineAfter before := by
      rw [lineAfter_append]
      exact congrArg (lineAfter before + ·) (List.count_eq_zero.mpr fun m =>
        h.ne_newline (List.mem_singleton.mp m).symm)
    rw [error?, line]
  | openString text =>
    -- nothing stands behind it
    cases h.fits
    rw [error?, List.append_nil]
  | lexeme | blank | lineComment | blockComment => rfl

theorem mem_places {pieces : List Piece} {text : List Char} (h : Segments pieces text) :
    ∀ {before front : List Char} {p : Piece}, (front, p) ∈ places before pieces →
      ∃ after, before ++ text = front ++ p.text ++ after := by
  induction h with
  | nil => exact fun m => absurd m List.not_mem_nil
  | cons longest row ih =>
    intro before front q m
    rcases List.mem_cons.mp m with here | later
    · cases here
      exact ⟨_, (List.append_assoc _ _ _).symm⟩
    · obtain ⟨after, whole⟩ := ih later
      exact ⟨after, (List.append_assoc _ _ _).symm.trans whole⟩

end Piece

namespace Scan

theorem ofPieces_places {pieces : List Piece} {text : List Char} (h : Piece.Segments pieces text) :
    ∀ before : List Char,
      (ofPieces (lineAfter before) pieces).tokens =
          (Piece.places before pieces).filterMap (fun e => e.2.token? (lineAfter (e.1 ++ e.2.text))) ++
            [.eof (lineAfter (before ++ text))] ∧
        (ofPieces (lineAfter before) pieces).errors =
          (Piece.places before pieces).filterMap fun e => e.2.error? e.1 (before ++ text) := by
  induction h with
  | nil =>
    intro before
    rw [List.append_nil]
    exact ⟨rfl, rfl⟩
  | @cons p rest ps longest row ih =>
    intro before
    have mine := longest.error?_eq before
    obtain ⟨tokens, errors⟩ := ih (before ++ p.text)
    rw [List.append_assoc] at tokens errors
    have line : lineAfter before + p.newlines = lineAfter (before ++ p.text) :=
      (lineAfter_append before p.text).symm
    rw [ofPieces, line, Piece.places, List.filterMap_cons, List.filterMap_cons, mine]
    cases p with
    | lexeme kind text => exact ⟨congrArg _ tokens, errors⟩
    | openString text | stray c => exact ⟨tokens, congrArg _ errors⟩
    | blank c | lineComment text | blockComment text => exact ⟨tokens, errors⟩

theorem ofPieces_ordered (pieces : List Piece) : ∀ line,
    (∀ t ∈ (ofPieces line pieces).tokens, line ≤ t.line) ∧
      (ofPieces line pieces).tokens.Pairwise fun t u => t.line ≤ u.line := by
  induction pieces with
  | nil =>
    intro line
    exact ⟨fun t m => List.mem_singleton.mp m ▸ Nat.le_refl line, List.pairwise_singleton _ _⟩
  | cons p rest ih =>
    intro line
    obtain ⟨above, ordered⟩ := ih (line + p.newlines)
    have later : ∀ t ∈ (ofPieces (line + p.newlines) rest).tokens, line ≤ t.line :=
      fun t m => Nat.le_trans (Nat.le_add_right line p.newlines) (above t m)
    cases p with
    | lexeme kind text =>
      exact ⟨List.forall_mem_cons.mpr ⟨Nat.le_add_right _ _, later⟩, List.pairwise_cons.mpr ⟨above, ordered⟩⟩
    | blank | lineComment | blockComment | openString | stray => exact ⟨later, ordered⟩

end Scan

/-- A source is one row of longest pieces, each with its place in the source. A token is on
the line that its lexeme ends on, and the end on that of the whole source. A stray character
is on the line of what stands before it, an open string on that of the end. So the lines of
the tokens never decrease. -/
theorem scan_lines_exact (source : String) : ∃ pieces : List Piece,
    (∀ row, Piece.Segments row source.toList ↔ row = pieces) ∧
    (∀ before p, (before, p) ∈ Piece.places [] pieces →
      ∃ after, source.toList = before ++ p.text ++ after) ∧
    (scan source).tokens =
      (Piece.places [] pieces).filterMap (fun (before, p) => p.token? (lineAfter (before ++ p.text))) ++
        [.eof (lineAfter source.toList)] ∧
    (scan source).errors =
      (Piece.places [] pieces).filterMap (fun (before, p) => p.error? before source.toList) ∧
    (scan source).tokens.Pairwise fun t u => t.line ≤ u.line := by
  have row := Piece.segments_segment _ source.toList (Nat.le_refl _)
  obtain ⟨tokens, errors⟩ := Scan.ofPieces_places row []
  exact ⟨Piece.segment source.toList, fun other => ⟨Piece.Segments.eq_segment, fun e => e ▸ row⟩,
    fun before p m => Piece.mem_places row m, tokens, errors, (Scan.ofPieces_ordered _ 1).2⟩

example : ((scan "a /*\n*/ \"\n\" // c\n@ b \"\n").tokens.map (·.line),
    (scan "a /*\n*/ \"\n\" // c\n@ b \"\n").errors.map (·.line)) = ([1, 3, 4, 5], [4, 5]) := by
  decide +kernel

end Lox
