import Mathlib.Algebra.Ring.Nat
import Lox.Proofs.Likeness.Passing
import Lox.Proofs.Outcomes.Verdicts
import Lox.Proofs.Segmentation.Tokens

/-! # How many lines an error takes

An error is reported with the text of the token that it is at. Of all tokens only strings may
go over several lines, and they are no tokens in a tree. So an error takes one line unless the
parser has found a string where it expects something else. -/

namespace Lox

/-- The line breaks in a text. -/
def breaks (text : String) : Nat := text.toList.count '\n'

@[simp] theorem breaks_append (a b : String) : breaks (a ++ b) = breaks a + breaks b := by
  rw [breaks, String.toList_append, List.count_append]
  rfl

theorem breaks_eq_zero {text : String} : breaks text = 0 ↔ '\n' ∉ text.toList := List.count_eq_zero

@[simp] theorem breaks_nat (n : Nat) : breaks n.repr = 0 := by
  refine breaks_eq_zero.mpr fun m => ?_
  rw [Nat.toList_repr] at m
  exact absurd (Nat.isDigit_of_mem_toDigits (by decide) (by decide) m) (by decide)

@[simp] theorem breaks_int (n : Int) : breaks n.repr = 0 := by
  cases n with
  | ofNat n => exact breaks_nat n
  | negSucc n =>
    have sign : breaks "-" = 0 := by decide
    exact (breaks_append "-" _).trans (by rw [sign, breaks_nat])

/-! ## The texts of tokens -/

theorem Kind.Spells.unbroken {kind : Kind} {text : List Char} (h : kind.Spells text)
    (plain : kind ≠ .string) : '\n' ∉ text := by
  have noDigit {digits : List Char} (h : ∀ d ∈ digits, Number.isDigit d = true) : '\n' ∉ digits :=
    fun m => absurd (h _ m) (by decide)
  cases h with
  | fixed h =>
    have table : Kind.all.all (fun k => k.spelling?.all fun s => breaks s == 0) = true := by decide +kernel
    have mine := List.all_eq_true.mp table kind kind.mem_all
    rw [h] at mine
    simpa [breaks_eq_zero] using mine
  | @name c rest begins goes =>
    intro m
    rcases List.mem_cons.mp m with rfl | m
    · exact absurd begins (by decide)
    · exact absurd (goes _ m) (by decide)
  | whole _ h => exact noDigit h
  | fraction _ h _ hp =>
    intro m
    rcases List.mem_append.mp m with m | m
    · exact noDigit h m
    · exact noDigit hp ((List.mem_cons.mp m).resolve_left (by decide))
  | string => exact absurd rfl plain

/-- A token with a line break in it is a string. -/
theorem unbroken_passes (source : String) : PassesIn (fun t => breaks t.lexeme = 0) source := by
  obtain ⟨body, last, tokens, -, lexical⟩ := scan_lexical source
  intro t m plain
  rw [tokens] at m
  rcases List.mem_append.mp m with m | m
  · exact breaks_eq_zero.mpr ((lexical t m).spells.unbroken plain)
  · rw [List.mem_singleton.mp m]
    rfl

/-! ## The texts of errors -/

theorem Diagnostic.breaks_text (d : Diagnostic) : breaks d.text = breaks d.place + breaks d.message := by
  have fixed : breaks "[line " = 0 ∧ breaks "] Error" = 0 ∧ breaks ": " = 0 := by decide
  simp [text_eq, fixed]

theorem Diagnostic.breaks_atLexeme (lexeme : String) : breaks (atLexeme lexeme) = breaks lexeme := by
  have parts : atLexeme lexeme = " at '" ++ lexeme ++ "'" := rfl
  have fixed : breaks " at '" = 0 ∧ breaks "'" = 0 := by decide
  simp [parts, fixed]

theorem Token.breaks_place {t : Token} (h : breaks t.lexeme = 0) : breaks t.place = 0 := by
  unfold Token.place
  split
  · decide
  · rw [Diagnostic.breaks_atLexeme, h]

theorem SyntaxProblem.breaks_message (problem : SyntaxProblem) : breaks problem.message = 0 := by
  cases problem with
  | noRoutineName kind | noParameterList kind | noRoutineBody kind => cases kind <;> decide +kernel
  | tooMany what => cases what <;> decide +kernel
  | _ => decide +kernel

theorem Misuse.breaks_message (misuse : Misuse) : breaks misuse.message = 0 := by
  cases misuse <;> decide +kernel

theorem LexicalProblem.breaks_message (problem : LexicalProblem) : breaks problem.message = 0 := by
  cases problem <;> decide +kernel

theorem LexicalError.breaks_text (e : LexicalError) : breaks e.diagnostic.text = 0 := by
  rw [Diagnostic.breaks_text, diagnostic, LexicalProblem.breaks_message]
  rfl

theorem MisuseError.breaks_text {e : MisuseError} (h : breaks e.token.lexeme = 0) :
    breaks e.diagnostic.text = 0 := by
  rw [Diagnostic.breaks_text, diagnostic, Token.breaks_place h, Misuse.breaks_message]

theorem RuntimeError.breaks_message {e : RuntimeError} (h : breaks e.token.lexeme = 0) :
    breaks e.message = 0 := by
  obtain ⟨token, problem⟩ := e
  have h : breaks token.lexeme = 0 := h
  have about : breaks "Undefined variable '" = 0 ∧ breaks "Undefined property '" = 0 ∧
    breaks "Unknown operator '" = 0 ∧ breaks "'." = 0 := by decide +kernel
  cases problem with
  | undefinedVariable | undefinedProperty | unknownOperator => simp [message, about, h]
  | wrongCount expected got =>
    have parts : message ⟨token, .wrongCount expected got⟩ =
      "Expected " ++ expected.repr ++ " arguments but got " ++ got.repr ++ "." := rfl
    have fixed : breaks "Expected " = 0 ∧ breaks " arguments but got " = 0 ∧ breaks "." = 0 := by decide +kernel
    simp [parts, fixed]
  | operandNotNumber | operandsNotNumbers | operandsNotAddable | divisionByZero | notCallable | noProperties
  | noFields | parentNotClass =>
    dsimp only [message]
    decide +kernel

theorem RuntimeError.breaks_text {e : RuntimeError} (h : breaks e.token.lexeme = 0) :
    breaks e.diagnostic.text = 0 := by
  rw [Diagnostic.breaks_text, diagnostic, Diagnostic.breaks_atLexeme, h, breaks_message h]

/-- The line breaks in the string that an error is at, if it is at one. -/
def SyntaxError.breaks (e : SyntaxError) : Nat :=
  match e.token with
  | some t => if t.kind = .string then Lox.breaks t.lexeme else 0
  | none => 0

theorem SyntaxError.breaks_text {source : String} {e : SyntaxError}
    (m : e ∈ (parse (scan source).tokens).errors) (line : Nat) :
    Lox.breaks (e.diagnostic line).text = e.breaks := by
  have found := syntaxError_mem e m
  obtain ⟨problem, token⟩ := e
  rw [Diagnostic.breaks_text, breaks.eq_def]
  cases token with
  | none =>
    dsimp only [diagnostic]
    rw [SyntaxProblem.breaks_message]
    rfl
  | some t =>
    dsimp only [diagnostic]
    rw [SyntaxProblem.breaks_message, Nat.add_zero]
    split
    · rename_i quoted
      rw [Token.place, quoted]
      exact Diagnostic.breaks_atLexeme t.lexeme
    · rename_i plain
      exact Token.breaks_place (unbroken_passes source t (found t rfl) plain)

theorem misuse_breaks (source : String) : ∀ e ∈ (resolution source).errors, breaks e.diagnostic.text = 0 :=
  fun e m => MisuseError.breaks_text ((unbroken_passes source).misuses e m)

/-! ## The lines of a report -/

namespace Reporter

/-- Each line ends with a line break. -/
theorem breaks_extended (text : String) (lines : List String) :
    breaks (extended text lines) = breaks text + (lines.length + (lines.map breaks).sum) := by
  induction lines generalizing text with
  | nil => rfl
  | cons line rest ih =>
    have newline : breaks "\n" = 1 := by decide
    have later := ih (text ++ line ++ "\n")
    rw [breaks_append, breaks_append, newline] at later
    rw [List.map_cons, List.sum_cons, List.length_cons]
    refine later.trans ?_
    omega

end Reporter

namespace Verdict

/-- The errors that are reported. -/
def errors (source : String) : Verdict → List Diagnostic
  | refused => staticErrors source
  | failed error => [error.diagnostic]
  | completed | overflowed | exhausted => []

/-- What is reported besides, though it is no error of the source. -/
def internal : Verdict → List String
  | overflowed => ["[internal] Stack overflow."]
  | refused | completed | failed _ | exhausted => []

theorem breaks_internal (v : Verdict) : (v.internal.map breaks).sum = 0 := by
  cases v with
  | overflowed => decide
  | refused | completed | failed _ | exhausted => rfl

end Verdict

/-! ## The lines of static errors -/

/-- The text of a static error has line breaks only as a syntax error has them. -/
theorem staticError_breaks {source : String} {d : Diagnostic} (m : d ∈ staticErrors source) :
    breaks d.text = 0 ∨ ∃ e ∈ (parse (scan source).tokens).errors,
      d = e.diagnostic (parse (scan source).tokens).endLine ∧ breaks d.text = e.breaks := by
  cases early : (earlyErrors source).isEmpty with
  | true =>
    rw [staticErrors_of_early early] at m
    obtain ⟨e, me, rfl⟩ := List.mem_map.mp m
    exact .inl (misuse_breaks source e me)
  | false =>
    rw [staticErrors_of_late early] at m
    rcases List.mem_append.mp m with lexical | syntactic
    · obtain ⟨e, -, rfl⟩ := List.mem_map.mp lexical
      exact .inl e.breaks_text
    · obtain ⟨e, me, rfl⟩ := List.mem_map.mp syntactic
      exact .inr ⟨e, me, rfl, SyntaxError.breaks_text me _⟩

theorem sum_breaks_eq_zero {ds : List Diagnostic} (h : ∀ d ∈ ds, breaks d.text = 0) :
    (ds.map fun d => breaks d.text).sum = 0 := by
  refine List.sum_eq_zero_iff_forall_eq_nat.mpr fun n m => ?_
  obtain ⟨d, md, rfl⟩ := List.mem_map.mp m
  exact h d md

theorem staticErrors_breaks (source : String) : ((staticErrors source).map fun d => breaks d.text).sum =
    ((parse (scan source).tokens).errors.map SyntaxError.breaks).sum := by
  cases early : (earlyErrors source).isEmpty with
  | true =>
    have read := early
    rw [earlyErrors_isEmpty, Bool.and_eq_true, List.isEmpty_iff, List.isEmpty_iff] at read
    rw [staticErrors_of_early early, read.2]
    refine sum_breaks_eq_zero fun d m => ?_
    obtain ⟨e, me, rfl⟩ := List.mem_map.mp m
    exact misuse_breaks source e me
  | false =>
    have lexical : (((scan source).errors.map (·.diagnostic)).map fun d => breaks d.text).sum = 0 := by
      refine sum_breaks_eq_zero fun d m => ?_
      obtain ⟨e, -, rfl⟩ := List.mem_map.mp m
      exact e.breaks_text
    have syntactic : (parse (scan source).tokens).diagnostics.map (fun d => breaks d.text) =
        (parse (scan source).tokens).errors.map SyntaxError.breaks := by
      rw [Parsed.diagnostics, List.map_map]
      exact List.map_congr_left fun e me => SyntaxError.breaks_text me _
    rw [staticErrors_of_late early, earlyErrors, List.map_append, List.sum_append, lexical, syntactic, Nat.zero_add]

namespace Session

variable {s : Session} {source : String} {v : Verdict}

theorem Executed.reports {code : List (Stmt Nat)} {i : Interpreter} {last : Machine} {lines : List String}
    (h : s.Executed source code i last lines) : ∃ before after, (s.run source).1.reporter.stream =
      Reporter.extended s.reporter.stream (s.listed before ++ lines ++ s.listed after) := by
  have none : s.listed [] = [] := ite_self _
  refine ⟨s.readingNote source :: resolvingNote (resolution source) ::
    (s.interpreter.perform source).1.takeEvents.1.toList.map Event.line, [], ?_⟩
  rw [h.stream, none, List.append_nil]
  rfl

theorem Refused.reports (h : s.Refused source) : ∃ before after, (s.run source).1.reporter.stream =
    Reporter.extended s.reporter.stream
      (s.listed before ++ (staticErrors source).map s.reporter.rendering ++ s.listed after) := by
  have none : s.listed [] = [] := ite_self _
  rw [h.stream, refusal]
  split
  · refine ⟨[s.readingNote source, resolvingNote (resolution source)], [], ?_⟩
    rw [none, List.append_nil]
  · refine ⟨[], [s.readingNote source], ?_⟩
    rw [none, List.nil_append]

theorem Exhausted.reports (h : s.Exhausted source) : ∃ before after, (s.run source).1.reporter.stream =
    Reporter.extended s.reporter.stream (s.listed before ++ s.listed after) := by
  have none : s.listed [] = [] := ite_self _
  rw [h.stream, dropping]
  split
  · exact ⟨[s.readingNote source], [], by rw [none, List.append_nil]⟩
  · exact ⟨[], [], by rw [none]; rfl⟩

/-- Between notes, if such are asked for, each error is reported by its text. -/
theorem Ends.reports (plain : s.reporter.paint = none) (h : s.Ends source v) : ∃ before after,
    (s.run source).1.reporter.stream = Reporter.extended s.reporter.stream
      (s.listed before ++ ((v.errors source).map Diagnostic.text ++ v.internal) ++ s.listed after) := by
  have text := Reporter.rendering_plain plain
  cases v with
  | refused =>
    have reports := Refused.reports h
    rw [text] at reports
    dsimp only [Verdict.errors, Verdict.internal]
    rwa [List.append_nil]
  | completed =>
    obtain ⟨_, _, _, executed, -⟩ := h
    exact executed.reports
  | failed error =>
    obtain ⟨_, _, _, executed, -⟩ := h
    have reports := executed.reports
    rwa [text] at reports
  | overflowed =>
    obtain ⟨_, _, _, executed, -⟩ := h
    have line : s.reporter.internalRendering "Stack overflow." = "[internal] Stack overflow." := by
      rw [Reporter.internalRendering, Reporter.painted, plain]
      decide +kernel
    have reports := executed.reports
    rwa [line] at reports
  | exhausted =>
    obtain ⟨before, after, stream⟩ := Exhausted.reports h
    refine ⟨before, after, ?_⟩
    rw [stream, Verdict.errors, Verdict.internal, List.map_nil, List.append_nil, List.append_nil]

/-- A run fails at a token that takes one line. -/
theorem Ends.error_breaks (reachable : s.Reachable) {error : RuntimeError} (h : s.Ends source (.failed error)) :
    breaks error.diagnostic.text = 0 := by
  rcases h.cause with ⟨exhausted, -⟩ | ⟨refused, -⟩ | ⟨-, -, -, cause⟩
  · cases exhausted
  · cases refused
  · have passes := reachable.passes unbroken_passes
    exact RuntimeError.breaks_text ((passes.perform (unbroken_passes source)).2 error cause)

theorem Ends.sum_breaks (reachable : s.Reachable) (h : s.Ends source v) (held : s.stack.holds source = true) :
    ((v.errors source).map fun d => breaks d.text).sum =
      ((parse (scan source).tokens).errors.map SyntaxError.breaks).sum := by
  have static := staticErrors_breaks source
  rcases h.cause with ⟨-, dropped⟩ | ⟨rfl, -⟩ | ⟨run, -, quiet, -⟩
  · exact absurd held (ne_true_of_eq_false dropped)
  · exact static
  -- what is run has no syntax error either
  · rw [quiet] at static
    rw [← static]
    refine sum_breaks_eq_zero fun d m => ?_
    cases v with
    | refused | exhausted => cases run
    | completed | overflowed => exact absurd m List.not_mem_nil
    | failed error => exact List.mem_singleton.mp m ▸ h.error_breaks reachable

/-- Where colors are off each error is reported on a line of its own, but for one that the
parser finds at a string. There the string is written out, over as many lines as it takes. -/
theorem errors_take_lines (reachable : s.Reachable) (plain : s.reporter.paint = none) (ends : s.Ends source v) :
    (∃ before after, (s.run source).1.reporter.stream = Reporter.extended s.reporter.stream
      (s.listed before ++ ((v.errors source).map Diagnostic.text ++ v.internal) ++ s.listed after)) ∧
    (∀ d ∈ v.errors source, breaks d.text = 0 ∨ ∃ e ∈ (parse (scan source).tokens).errors,
      d = e.diagnostic (parse (scan source).tokens).endLine ∧ breaks d.text = e.breaks) ∧
    (s.verbose = false → s.stack.holds source = true → breaks (s.run source).1.reporter.stream =
      breaks s.reporter.stream + ((v.errors source).length + v.internal.length) +
        ((parse (scan source).tokens).errors.map SyntaxError.breaks).sum) := by
  have reports := ends.reports plain
  refine ⟨reports, fun d m => ?_, fun quiet held => ?_⟩
  · cases v with
    | refused => exact staticError_breaks m
    | completed | overflowed | exhausted => exact absurd m List.not_mem_nil
    | failed error => exact .inl (List.mem_singleton.mp m ▸ ends.error_breaks reachable)
  · obtain ⟨before, after, stream⟩ := reports
    have none (lines : List String) : s.listed lines = [] := if_neg (by simp [quiet])
    rw [none, none, List.append_nil, List.nil_append] at stream
    rw [stream, Reporter.breaks_extended, ← ends.sum_breaks reachable held, List.length_append, List.length_map,
      List.map_append, List.map_map, List.sum_append, Verdict.breaks_internal, Nat.add_zero, ← Nat.add_assoc]
    rfl

/-- A string with a line break in it stands where the end of a statement is expected. -/
theorem errors_take_lines_string :
    let s := Session.start Session.interactiveName false false fun _ => 0
    s.Reachable ∧ s.Ends "@ x \"a\nb\";" .refused ∧
      breaks (s.run "@ x \"a\nb\";").1.reporter.stream = 3 := by
  intro s
  have reachable : s.Reachable := .start .standard _ false false _
  have held : s.stack.holds "@ x \"a\nb\";" = true := by decide +kernel
  have ends : s.Ends "@ x \"a\nb\";" .refused := refused_of rfl held (by decide +kernel)
  have lines := (errors_take_lines reachable rfl ends).2.2 rfl held
  have errors : (staticErrors "@ x \"a\nb\";").length = 2 := by decide +kernel
  have syntactic : ((parse (scan "@ x \"a\nb\";").tokens).errors.map SyntaxError.breaks).sum = 1 := by
    decide +kernel
  rw [Verdict.errors, errors, syntactic] at lines
  exact ⟨reachable, ends, lines⟩

/-- One error is reported, on two lines. -/
theorem error_takes_two_lines :
    let s := Session.start Session.interactiveName false false fun _ => 0
    (staticErrors "x \"a\nb\";").length = 1 ∧ breaks (s.run "x \"a\nb\";").1.reporter.stream = 2 := by
  decide +kernel

end Session

end Lox
