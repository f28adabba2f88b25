import Lox.Proofs.Joining.Pieces
import Lox.Scan

/-! # The scan of a source behind another

Two sources with a line break between them are scanned as the first one and then the
second one, with the lines of the second one counted on. -/

namespace Lox

/-- The same token that many lines further down. -/
def Token.lowered (k : Nat) (t : Token) : Token := { t with line := t.line + k }

def LexicalError.lowered (k : Nat) (e : LexicalError) : LexicalError := { e with line := e.line + k }

/-- A source with that many line breaks in front of it. -/
def underLines (k : Nat) (source : String) : String := .ofList (List.replicate k '\n') ++ source

/-- Whether a source ends inside a block comment. -/
def endsInComment (source : String) : Bool :=
  (Piece.segment source.toList).getLast?.any Piece.isOpenComment

/-- The number of the line breaks up to and including the one behind a source. -/
def lineBreaks (source : String) : Nat := 1 + source.toList.count '\n'

namespace Scan

def lowered (k : Nat) (s : Scan) : Scan := ⟨s.tokens.map (·.lowered k), s.errors.map (·.lowered k)⟩

/-- What has been read up to the end, and then more. -/
def followedBy (s rest : Scan) : Scan := ⟨s.tokens.dropLast ++ rest.tokens, s.errors ++ rest.errors⟩

theorem add_lowered (k line : Nat) (p : Piece) (s : Scan) :
    add (line + k) p (s.lowered k) = (add line p s).lowered k := by
  cases p <;> rfl

theorem ofPieces_lowered (k : Nat) (pieces : List Piece) : ∀ line,
    ofPieces (line + k) pieces = (ofPieces line pieces).lowered k := by
  induction pieces with
  | nil => exact fun _ => rfl
  | cons p rest ih =>
    intro line
    rw [ofPieces, ofPieces, Nat.add_right_comm, ih, add_lowered]

theorem ofPieces_ne_nil (pieces : List Piece) : ∀ line, (ofPieces line pieces).tokens ≠ [] := by
  induction pieces with
  | nil => exact fun _ => List.cons_ne_nil _ _
  | cons p rest ih =>
    intro line
    cases p with
    | lexeme kind text => exact List.cons_ne_nil _ _
    | blank | lineComment | blockComment | openString | stray => exact ih _

theorem add_followedBy (line : Nat) (p : Piece) {s : Scan} (h : s.tokens ≠ []) (rest : Scan) :
    add line p (s.followedBy rest) = (add line p s).followedBy rest := by
  cases p with
  | lexeme kind text => simp only [add, followedBy, List.dropLast_cons_of_ne_nil h, List.cons_append]
  | blank | lineComment | blockComment | openString | stray => rfl

/-- The end of the first pieces gives way to the tokens of the others. -/
theorem ofPieces_append (ps qs : List Piece) : ∀ line, ofPieces line (ps ++ qs) =
    (ofPieces line ps).followedBy (ofPieces (line + (ps.flatMap Piece.text).count '\n') qs) := by
  induction ps with
  | nil => exact fun _ => rfl
  | cons p rest ih =>
    intro line
    rw [List.cons_append, ofPieces, ofPieces, ih, add_followedBy _ _ (ofPieces_ne_nil rest _)]
    rw [List.flatMap_cons, List.count_append, Piece.newlines, Nat.add_assoc]

/-- A string that is never closed is an error. -/
theorem exists_unterminated {pieces : List Piece} {text : List Char} (h : .openString text ∈ pieces) :
    ∀ line, ∃ e ∈ (ofPieces line pieces).errors, e.problem = .unterminatedString := by
  induction pieces with
  | nil => exact absurd h List.not_mem_nil
  | cons p rest ih =>
    intro line
    rcases List.mem_cons.mp h with e | later
    · exact e ▸ ⟨_, List.mem_cons_self, rfl⟩
    · obtain ⟨e, m, he⟩ := ih later (line + p.newlines)
      cases p with
      | openString | stray => exact ⟨e, List.mem_cons_of_mem _ m, he⟩
      | lexeme | blank | lineComment | blockComment => exact ⟨e, m, he⟩

end Scan

namespace Piece

theorem segment_replicate (k : Nat) (text : List Char) :
    segment (List.replicate k '\n' ++ text) = List.replicate k (.blank '\n') ++ segment text := by
  induction k with
  | zero => rfl
  | succ k ih =>
    rw [List.replicate_succ, List.cons_append, segment_cons, List.replicate_succ, List.cons_append, ← ih]
    rfl

end Piece

theorem scan_underLines (k : Nat) (source : String) : scan (underLines k source) = (scan source).lowered k := by
  have lines : ∀ line pieces,
      Scan.ofPieces line (List.replicate k (.blank '\n') ++ pieces) = Scan.ofPieces (line + k) pieces := by
    induction k with
    | zero => exact fun _ _ => rfl
    | succ k ih => exact fun line pieces => (ih (line + 1) pieces).trans (by rw [Nat.add_right_comm, Nat.add_assoc])
  rw [scan, underLines, String.toList_append, String.toList_ofList, Piece.segment_replicate, lines,
    Scan.ofPieces_lowered, scan]

/-- Behind a source that leaves no string and no comment open another source is scanned as by
itself. -/
theorem scan_joined {a b : String} (strings : ∀ e ∈ (scan a).errors, e.problem ≠ .unterminatedString)
    (comments : endsInComment a = false) :
    scan (a ++ "\n" ++ b) = (scan a).followedBy (scan (underLines (lineBreaks a) b)) := by
  have whole : ∀ p ∈ Piece.segment a.toList, p.endsBefore '\n' = true := by
    intro p m
    refine Piece.endsBefore_newline ?_
    cases p with
    | openString =>
      obtain ⟨e, me, he⟩ := Scan.exists_unterminated m 1
      exact absurd he (strings e me)
    | blockComment text =>
      refine Bool.eq_false_iff.mpr fun h => ?_
      rw [endsInComment, Piece.getLast?_of_open _ _ (Nat.le_refl _) m h] at comments
      exact absurd h (Bool.eq_false_iff.mp comments)
    | lexeme | blank | lineComment | stray => rfl
  have joined : (a ++ "\n" ++ b).toList = a.toList ++ '\n' :: b.toList := by
    simp [String.toList_append]
  rw [scan_underLines, scan, joined, Piece.segment_seam rfl _ _ _ (Nat.le_refl _) whole, Scan.ofPieces_append,
    Piece.segment_text _ _ (Nat.le_refl _)]
  refine congrArg (Scan.followedBy _) ?_
  rw [scan, ← Scan.ofPieces_lowered, lineBreaks, ← Nat.add_assoc, Nat.add_right_comm]
  rfl

end Lox
