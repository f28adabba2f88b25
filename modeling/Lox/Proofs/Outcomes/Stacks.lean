import Lox.Proofs.Sessions

/-! # What uses up a stack

Each sign in front of an expression is read by a call within that for the sign before it. So
no stack of a certain size holds all sources, although nothing is wrong with them. -/

namespace Lox

namespace Token

variable (needed : Kind → Nat)

/-- No row that comes later takes away from what the present one needs. -/
theorem le_callsFor (tokens : List Token) : ∀ row most, row ≤ callsFor needed row most tokens := by
  suffices both : ∀ row most, max row most ≤ callsFor needed row most tokens from
    fun row most => Nat.le_trans (Nat.le_max_left row most) (both row most)
  induction tokens with
  | nil => exact fun _ _ => Nat.le_refl _
  | cons t rest ih =>
    intro row most
    rw [callsFor]
    split
    · exact Nat.le_trans (Nat.le_max_right 0 _) (ih 0 (max row most))
    · exact Nat.le_trans (by omega) (ih _ most)

/-- A row of tokens needs a call for each of them. -/
theorem le_callsFor_row (t : Token) (h : needed t.kind = 1) (n : Nat) (rest : List Token) : ∀ row most,
    row + n ≤ callsFor needed row most (List.replicate n t ++ rest) := by
  induction n with
  | zero => exact fun row most => le_callsFor needed rest row most
  | succ n ih =>
    intro row most
    have more := ih (row + 1) most
    rw [List.replicate_succ, List.cons_append, callsFor, h]
    rwa [Nat.add_assoc, Nat.add_comm 1] at more

end Token

/-- Signs are lexemes of their own. -/
theorem Piece.segment_signs (n : Nat) (rest : List Char) :
    segment (List.replicate n '-' ++ rest) = List.replicate n (.lexeme .minus ['-']) ++ segment rest := by
  induction n with
  | zero => rfl
  | succ n ih => exact congrArg (Piece.lexeme .minus ['-'] :: ·) ih

theorem Scan.ofPieces_signs (line n : Nat) (rest : List Piece) :
    (ofPieces line (List.replicate n (.lexeme .minus ['-']) ++ rest)).tokens =
      List.replicate n ⟨.minus, "-", none, line⟩ ++ (ofPieces line rest).tokens := by
  induction n with
  | zero => rfl
  | succ n ih => exact congrArg (Token.mk .minus "-" none line :: ·) ih

/-- A source that begins with more signs than there can be calls is not read. -/
theorem Stack.not_reads_signs {calls n : Nat} (h : calls < n) (rest : List Char) :
    (Stack.ofCalls calls).reads (scan (.ofList (List.replicate n '-' ++ rest))).bare = false := by
  have row := Token.le_callsFor_row Kind.callsInExpression ⟨.minus, "-", none, 0⟩ rfl n
    (Scan.ofPieces 1 (Piece.segment rest)).bare 0 0
  rw [scan, String.toList_ofList, Piece.segment_signs, Scan.bare, Scan.ofPieces_signs, List.map_append,
    List.map_replicate]
  have beyond : ¬ Token.callsFor Kind.callsInExpression 0 0 (List.replicate n ⟨.minus, "-", none, 0⟩ ++
      (Scan.ofPieces 1 (Piece.segment rest)).bare) ≤ calls := by omega
  exact Bool.and_eq_false_iff.mpr (.inl (decide_eq_false beyond))

end Lox
