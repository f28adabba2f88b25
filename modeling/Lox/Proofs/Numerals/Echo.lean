import Lox.Proofs.Numerals.Reading

/-! # The text of a number as a program

A printed number is one literal, behind a minus sign if it is negative. As an expression it
evaluates to the number, so a program that prints it prints the same text. -/

namespace Lox

namespace Piece

/-! ## Pieces -/

/-- Digits are taken up to whatever is no digit. -/
theorem digits_run {digits rest : List Char} (h : ∀ d ∈ digits, Number.isDigit d = true)
    (stop : ∀ c ∈ rest.head?, Number.isDigit c = false) :
    (digits ++ rest).takeWhile Number.isDigit = digits ∧ (digits ++ rest).dropWhile Number.isDigit = rest := by
  rw [List.takeWhile_append_of_pos h, List.dropWhile_append_of_pos h]
  cases rest with
  | nil => simp
  | cons c after =>
    have here : ¬ Number.isDigit c = true := by simp [stop c rfl]
    simp [List.takeWhile_cons_of_neg here, List.dropWhile_cons_of_neg here]

/-- A numeral is found whole in front of anything that does not go on with it. -/
theorem segment_numeral {numeral : List Char} (h : Kind.Spells .number numeral) {rest : List Char}
    (stop : ∀ c ∈ rest.head?, Number.isDigit c = false ∧ c ≠ '.') :
    segment (numeral ++ rest) = .lexeme .number numeral :: segment rest := by
  have ends : ∀ c ∈ rest.head?, Number.isDigit c = false := fun c hc => (stop c hc).1
  cases h with
  | fixed h => cases h
  | whole some h =>
    obtain ⟨c, digits, rfl⟩ := List.exists_cons_of_ne_nil some
    obtain ⟨first, h⟩ := List.forall_mem_cons.mp h
    obtain ⟨taken, left⟩ := digits_run h ends
    rw [List.cons_append, segment_cons, first_digit first, afterDigit, taken, left]
    split
    · exact absurd rfl (stop '.' rfl).2
    · rfl
  | @fraction whole part some h more hp =>
    obtain ⟨c, digits, rfl⟩ := List.exists_cons_of_ne_nil some
    obtain ⟨d, part, rfl⟩ := List.exists_cons_of_ne_nil more
    obtain ⟨first, h⟩ := List.forall_mem_cons.mp h
    obtain ⟨second, hp⟩ := List.forall_mem_cons.mp hp
    have point : ∀ x ∈ ('.' :: d :: (part ++ rest)).head?, Number.isDigit x = false := by simp; decide
    obtain ⟨taken, left⟩ := digits_run h point
    obtain ⟨takenPart, leftPart⟩ := digits_run hp ends
    have shape : c :: digits ++ '.' :: d :: part ++ rest = c :: (digits ++ '.' :: d :: (part ++ rest)) := by simp
    rw [shape, segment_cons, first_digit first, afterDigit, taken, left]
    simp only [second, if_true, takenPart, leftPart]

theorem segment_sign (x : Float) (text : List Char) : segment (Number.signText x ++ text) =
    (if Number.isNegative x then [.lexeme .minus ['-']] else []) ++ segment text := by
  unfold Number.signText
  split
  · exact segment_cons '-' text
  · rfl

theorem segment_print (text : List Char) :
    segment ('p' :: 'r' :: 'i' :: 'n' :: 't' :: ' ' :: text) =
      .lexeme .kwPrint ['p', 'r', 'i', 'n', 't'] :: .blank ' ' :: segment text := by
  rw [segment_cons, first_letter (by decide)]
  change .lexeme (Kind.ofWord (.ofList ['p', 'r', 'i', 'n', 't'])) ['p', 'r', 'i', 'n', 't'] :: segment (' ' :: text) = _
  rw [segment_cons]
  rfl

end Piece

namespace Number

variable {x : Float} {numeral : List Char}

/-! ## Tokens -/

def minusToken : Token := ⟨.minus, "-", none, 1⟩

def numberToken (numeral : List Char) : Token :=
  ⟨.number, .ofList numeral, some (.number (read numeral)), 1⟩

/-- The token of a sign, if there is one. -/
def signTokens (x : Float) : List Token := if isNegative x then [minusToken] else []

theorem newlines_numeral (h : Kind.Spells .number numeral) : (Piece.lexeme .number numeral).newlines = 0 :=
  List.count_eq_zero.mpr (h.unbroken (by decide))

/-- A number in front of some pieces that are on the first line. -/
theorem ofPieces_number (x : Float) (h : Kind.Spells .number numeral) (rest : List Piece) :
    Scan.ofPieces 1 ((if isNegative x then [.lexeme .minus ['-']] else []) ++ .lexeme .number numeral :: rest) =
      { Scan.ofPieces 1 rest with tokens := signTokens x ++ numberToken numeral :: (Scan.ofPieces 1 rest).tokens } := by
  have number : Scan.ofPieces 1 (.lexeme .number numeral :: rest) =
      { Scan.ofPieces 1 rest with tokens := numberToken numeral :: (Scan.ofPieces 1 rest).tokens } := by
    rw [Scan.ofPieces, newlines_numeral h]
    rfl
  rw [signTokens]
  split
  · change Scan.add 1 (.lexeme .minus ['-']) (Scan.ofPieces 1 (.lexeme .number numeral :: rest)) = _
    rw [number]
    rfl
  · exact number

theorem scan_display (hd : display x = .ofList (signText x ++ numeral)) (h : Kind.Spells .number numeral) :
    scan (display x) = ⟨signTokens x ++ [numberToken numeral, .eof 1], []⟩ := by
  rw [scan, hd, String.toList_ofList, Piece.segment_sign, h.segment_eq, ofPieces_number x h]
  rfl

def printToken : Token := ⟨.kwPrint, "print", none, 1⟩

def semicolonToken : Token := ⟨.semicolon, ";", none, 1⟩

theorem scan_print (hd : display x = .ofList (signText x ++ numeral)) (h : Kind.Spells .number numeral) :
    scan ("print " ++ display x ++ ";") =
      ⟨printToken :: (signTokens x ++ [numberToken numeral, semicolonToken]) ++ [.eof 1], []⟩ := by
  have text : ("print " ++ display x ++ ";").toList =
      'p' :: 'r' :: 'i' :: 'n' :: 't' :: ' ' :: (signText x ++ (numeral ++ [';'])) := by
    rw [hd]
    simp [String.toList_append]
  have pieces : Piece.segment (numeral ++ [';']) = [.lexeme .number numeral, .lexeme .semicolon [';']] :=
    Piece.segment_numeral h (by simp; decide)
  rw [scan, text, Piece.segment_print, Piece.segment_sign, pieces]
  change Scan.add 1 (.lexeme .kwPrint ['p', 'r', 'i', 'n', 't']) (Scan.ofPieces 1
    ((if isNegative x then [.lexeme .minus ['-']] else []) ++ [.lexeme .number numeral, .lexeme .semicolon [';']])) = _
  rw [ofPieces_number x h]
  simp only [List.append_assoc, List.cons_append]
  rfl

/-! ## Trees -/

/-- The expression that a number is written as. -/
def written (x : Float) (numeral : List Char) : Expr Unit :=
  if isNegative x then .unary minusToken (.literal (.number (read numeral))) else .literal (.number (read numeral))

theorem written_writes (x : Float) (numeral : List Char) :
    (written x numeral).Writes (signTokens x ++ [numberToken numeral]) := by
  have number : (Expr.literal (.number (read numeral))).Writes [numberToken numeral] := .literal rfl
  unfold written signTokens
  split
  · exact .unary (by decide) number (Nat.zero_le 1)
  · exact number

/-- It is evaluated to the number in any state. -/
theorem evaluate_written {m : Machine} (hx : x.isFinite = true)
    (hr : read numeral = Float.ofBits (.ofNat (unsignedBits x))) (rounds n k : Nat) :
    (Level.ofDepth rounds (n + 2)).expr ((written x numeral).number k).1 m = .ok (.number x) m := by
  have whole := signed_eq ((isFinite_iff x).mp hx)
  unfold written
  rw [hr]
  split
  · rename_i negative
    rw [if_pos negative] at whole
    change EStateM.Result.ok (Value.number (-Float.ofBits (.ofNat (unsignedBits x)))) m = _
    rw [whole]
  · rename_i positive
    rw [if_neg positive] at whole
    rw [whole]
    rfl

theorem parse_print (x : Float) (numeral : List Char) :
    parse (printToken :: (signTokens x ++ [numberToken numeral, semicolonToken]) ++ [.eof 1]) =
      ⟨[.print (written x numeral)], [], 1⟩ := by
  have statement : Stmt.Writes true (.print (written x numeral))
      (printToken :: (signTokens x ++ [numberToken numeral] ++ [semicolonToken])) :=
    .print rfl (written_writes x numeral) rfl
  have row : Row (Stmt.Writes true) [.print (written x numeral)]
      (printToken :: (signTokens x ++ [numberToken numeral] ++ [semicolonToken])) := by
    simpa using Row.cons statement .nil
  have inside : Inside (printToken :: (signTokens x ++ [numberToken numeral] ++ [semicolonToken])) := by
    unfold Inside signTokens
    split <;> simp [printToken, minusToken, numberToken, semicolonToken]
  have read := parse_row row inside (rfl : (Token.eof 1).kind = .eof)
  rwa [List.append_assoc] at read

/-- Printing a number adds its text and a line break to the output, and that is all. -/
theorem program_print {v : Float} {e : Expr Nat} {m : Machine} {rounds n : Nat}
    (h : (Level.ofDepth rounds n).expr e m = .ok (.number v) m) : Run.program (.ofDepth rounds (n + 1)) [.print e] m =
      .ok () { m with output := m.output ++ display v ++ "\n", current := Machine.globals } := by
  have printed : (Level.ofDepth rounds (n + 1)).stmt (.print e) m =
      .ok .completed { m with output := m.output ++ display v ++ "\n" } := by
    change Level.execute (Level.ofDepth rounds n) rounds (.print e) m = _
    rw [Level.execute]
    exact Run.bind_ok h
  have ran : Run.statements (.ofDepth rounds (n + 1)) [.print e] m =
      .ok () { m with output := m.output ++ display v ++ "\n" } := by
    rw [Run.statements]
    exact Run.bind_ok printed
  exact Run.ensuring_ok ran

/-- Running the program that prints the number adds its text to the output, and nothing else. -/
theorem attempt_print (h : Plain x) (i : Interpreter) (deep : 3 ≤ i.limits.depth) (resolving : Bool) :
    (i.attempt ("print " ++ display x ++ ";") resolving).1 = ⟨[], [], none⟩ ∧
      (i.attempt ("print " ++ display x ++ ";") resolving).2.machine.output =
        i.machine.output ++ display x ++ "\n" := by
  obtain ⟨numeral, text, spells, reads⟩ := display_spec h
  obtain ⟨n, hn⟩ : ∃ n, i.limits.depth = n + 3 := ⟨i.limits.depth - 3, by omega⟩
  have ran (m : Machine) := program_print (e := ((written x numeral).number i.nextMark).1)
    (evaluate_written (m := m) h.finite reads i.limits.rounds n i.nextMark)
  rw [← hn] at ran
  have quiet : resolve [.print ((written x numeral).number i.nextMark).1] = ⟨[], []⟩ := by
    unfold written
    split <;> rfl
  unfold Interpreter.attempt
  rw [scan_print text spells, parse_print]
  dsimp only [Interpreter.number, Stmt.numberAll, Stmt.number]
  rw [quiet, ite_self, Interpreter.execute, Level.ofLimits]
  dsimp only [Interpreter.learn]
  rw [ran]
  exact ⟨rfl, rfl⟩

/-- A number that is integral or not too close to zero is printed as a literal, behind a minus if
it is negative, and as an expression this text is the number itself, bit by bit. So the number
is printed again as it was, and no two such numbers are printed alike. -/
theorem display_reads_back (x : Float) (h : Plain x) :
    (∃ number : Token, number.kind = .number ∧ scan (display x) =
      ⟨(if isNegative x then [⟨.minus, "-", none, 1⟩] else []) ++ [number, .eof 1], []⟩) ∧
    (∃ e : Expr Unit, Parse.wholeExpression (scan (display x)).tokens = ⟨some e, [.eof 1], []⟩ ∧
      ∀ rounds n k m, (Level.ofDepth rounds (n + 2)).expr (e.number k).1 m = .ok (.number x) m) ∧
    (∀ (i : Interpreter) (resolving : Bool), 3 ≤ i.limits.depth →
      (i.attempt ("print " ++ display x ++ ";") resolving).1 = ⟨[], [], none⟩ ∧
        (i.attempt ("print " ++ display x ++ ";") resolving).2.machine.output =
          i.machine.output ++ display x ++ "\n") ∧
    ∀ y, Plain y → display y = display x → y = x := by
  have reading {x : Float} (h : Plain x) : ∃ e : Expr Unit,
      Parse.wholeExpression (scan (display x)).tokens = ⟨some e, [.eof 1], []⟩ ∧
        ∀ rounds n k m, (Level.ofDepth rounds (n + 2)).expr (e.number k).1 m = .ok (.number x) m := by
    obtain ⟨numeral, text, spells, reads⟩ := display_spec h
    refine ⟨written x numeral, ?_, fun rounds n k m => evaluate_written h.finite reads rounds n k⟩
    have reply := Parse.wholeExpression_reply (written_writes x numeral) (t := .eof 1) (by decide) []
    rw [scan_display text spells]
    rwa [List.append_assoc] at reply
  refine ⟨?_, reading h, fun i resolving deep => attempt_print h i deep resolving, fun y hy same => ?_⟩
  · obtain ⟨numeral, text, spells, -⟩ := display_spec h
    exact ⟨numberToken numeral, rfl, scan_display text spells⟩
  · obtain ⟨e, here, value⟩ := reading h
    obtain ⟨f, there, other⟩ := reading hy
    rw [same, here] at there
    obtain rfl : e = f := by
      cases there
      rfl
    have both := (other 0 0 0 (.start (fun _ => x) false)).symm.trans (value 0 0 0 _)
    cases both
    rfl

/-- The text of the double next to a tenth below zero is no other number's. -/
theorem display_reads_back_tenth : Plain (Float.ofBits 0xBFB999999999999A) ∧
    (∃ number : Token, number.kind = .number ∧
      scan "-0.1" = ⟨[⟨.minus, "-", none, 1⟩, number, .eof 1], []⟩) ∧
    ∀ y, Plain y → display y = "-0.1" → y = Float.ofBits 0xBFB999999999999A := by
  have plain : Plain (Float.ofBits 0xBFB999999999999A) := by
    have bits : unsignedBits (Float.ofBits 0xBFB999999999999A) = 0x3FB999999999999A := by decide
    refine ⟨by decide, .inr ?_⟩
    rw [size, bits]
    norm_num [Decimal.Magnitude.ofBits, Decimal.Magnitude.value]
  have text : display (Float.ofBits 0xBFB999999999999A) = "-0.1" := by decide +kernel
  have negative : isNegative (Float.ofBits 0xBFB999999999999A) = true := by decide
  obtain ⟨tokens, -, -, only⟩ := display_reads_back _ plain
  rw [text, if_pos negative] at tokens
  exact ⟨plain, tokens, text ▸ only⟩

end Number

end Lox
