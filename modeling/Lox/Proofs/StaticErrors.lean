import Lox.Proofs.Likeness.Resolving
import Lox.Proofs.Reports

/-! # Errors that are found without running

Whether a source is run depends on the source alone, not on the session: the marks of
its references decide nothing. Here is what a session does with a source that it does
not run, to the letter of what it reports, and with one that it does. -/

namespace Lox

/-- The errors in the tokens of a source, and then those in its syntax. -/
def earlyErrors (source : String) : List Diagnostic :=
  (scan source).errors.map (·.diagnostic) ++ (parse (scan source).tokens).diagnostics

/-- What the resolver finds out about a source by itself. -/
def resolution (source : String) : Resolution :=
  resolve (Stmt.numberAll (parse (scan source).tokens).statements 0).1

/-- The errors for which a source is not run. Those of the resolver are looked for only
if there are no others. -/
def staticErrors (source : String) : List Diagnostic :=
  if (earlyErrors source).isEmpty then (resolution source).errors.map (·.diagnostic)
  else earlyErrors source

theorem staticErrors_of_early {source : String} (h : (earlyErrors source).isEmpty = true) :
    staticErrors source = (resolution source).errors.map (·.diagnostic) := if_pos h

theorem staticErrors_of_late {source : String} (h : (earlyErrors source).isEmpty = false) :
    staticErrors source = earlyErrors source := if_neg (by simp [h])

theorem earlyErrors_isEmpty (source : String) : (earlyErrors source).isEmpty =
    ((scan source).errors.isEmpty && (parse (scan source).tokens).errors.isEmpty) := by
  rw [earlyErrors, Parsed.diagnostics]
  cases (scan source).errors with
  | nil => exact List.isEmpty_map
  | cons _ _ => rfl

/-- From wherever a program is numbered, the resolver finds the same. -/
theorem resolve_number (program : List (Stmt Unit)) (n : Nat) :
    (resolve (Stmt.numberAll program n).1).errors = (resolve (Stmt.numberAll program 0).1).errors ∧
      (resolve (Stmt.numberAll program n).1).entries.length =
        (resolve (Stmt.numberAll program 0).1).entries.length := by
  have numbered := (Stmt.numberAll_like (M := fun _ _ => True) (d := n) program (Stmt.allLike_same program) 0).like
    fun _ _ _ => trivial
  rw [Nat.zero_add] at numbered
  obtain ⟨entries, errors⟩ := resolve_like Token.sameText_of_eq numbered
  refine ⟨?_, entries.length_eq.symm⟩
  rw [← List.forall₂_eq_eq_eq]
  refine errors.flip.imp fun e e' h => ?_
  obtain ⟨misuse, token⟩ := h
  cases e
  cases e'
  exact congr (congrArg MisuseError.mk misuse) token.symm

theorem staticErrors_isEmpty (source : String) : (staticErrors source).isEmpty =
    ((earlyErrors source).isEmpty && (resolution source).errors.isEmpty) := by
  cases early : (earlyErrors source).isEmpty with
  | true => rw [staticErrors_of_early early, List.isEmpty_map, Bool.true_and]
  | false => rw [staticErrors_of_late early, early, Bool.false_and]

variable {s t : Session} {source : String} {I : Interpreter → Interpreter → Prop}

namespace Session

/-- The note on what has been read of a source. -/
def readingNote (s : Session) (source : String) : String :=
  s!"lox.lang.session: {s.name}: {(scan source).tokens.length} token(s), " ++
    s!"{(parse (scan source).tokens).statements.length} statement(s)"

theorem Twins.readingNote (h : s.Twins I t) (source : String) :
    t.readingNote source = s.readingNote source := by
  unfold Session.readingNote
  rw [h.name]

/-- The note on what the resolver has found out. -/
def resolvingNote (found : Resolution) : String :=
  s!"lox.core.resolver: resolved {found.entries.length} local reference(s), " ++
    s!"{found.errors.length} error(s)"

/-- What a session writes about a source that it does not run. -/
def refusal (s : Session) (source : String) : List String :=
  let errors := (staticErrors source).map s.reporter.rendering
  if (earlyErrors source).isEmpty then s.listed [s.readingNote source, resolvingNote (resolution source)] ++ errors
  else errors ++ s.listed [s.readingNote source]

/-- Reading a source, up to where it is resolved or given up. -/
theorem run_reading (h : s.reporter.fatal = false) (reads : s.stack.reads (scan source).bare = true) :
    s.run source =
    let t := s.tell ((earlyErrors source).map s.reporter.rendering ++ s.listed [s.readingNote source])
      !(earlyErrors source).isEmpty
    if (earlyErrors source).isEmpty then
      if s.stack.resolves (scan source).bare then t.resolveAndRun (parse (scan source).tokens).statements
      else (t, .passedOn .stackExhausted)
    else (t, .done) := by
  rw [run]
  dsimp only
  rw [if_pos reads, ← earlyErrors_isEmpty, ← earlyErrors, report_eq h]
  dsimp only
  rw [note_eq, tell, tell, Reporter.tell_tell, Bool.or_false]
  rfl

theorem resolveAndRun_eq {program : List (Stmt Unit)} (h : s.reporter.fatal = false)
    (hp : (parse (scan source).tokens).statements = program) :
    s.resolveAndRun program =
      let t := s.tell (s.listed [resolvingNote (resolution source)]) false
      let code := (s.interpreter.number program).1
      let i := (s.interpreter.number program).2.learn (resolve code).entries
      if (resolution source).errors.isEmpty then t.finish (i.execute code).1 (i.execute code).2
      else (t.tell (((resolution source).errors.map (·.diagnostic)).map s.reporter.rendering) true, .done) := by
  obtain ⟨errors, count⟩ := resolve_number program s.interpreter.nextMark
  rw [← hp, ← resolution, hp] at errors count
  unfold resolveAndRun Interpreter.number resolvingNote
  dsimp only
  simp only [errors, count, note_eq]
  cases quiet : (resolution source).errors.isEmpty with
  | true => rw [if_pos rfl, if_pos rfl]
  | false =>
    rw [if_neg (by decide), if_neg (by decide), report_eq (s := s.tell _ false) h, List.isEmpty_map, quiet]
    rfl

theorem resolves_of_holds (held : s.stack.holds source = true) (early : (earlyErrors source).isEmpty = true) :
    s.stack.resolves (scan source).bare = true :=
  Stack.resolves_of_holds held ((earlyErrors_isEmpty source).symm.trans early)

/-- What a session writes about a source that its stack does not hold. -/
def dropping (s : Session) (source : String) : List String :=
  if s.stack.reads (scan source).bare then s.listed [s.readingNote source] else []

/-- A source that the stack does not hold may be told of, and leaves no other trace. -/
theorem run_dropped_eq (h : s.reporter.fatal = false) (dropped : s.stack.holds source = false) :
    s.run source = (s.tell (s.dropping source) false, .passedOn .stackExhausted) := by
  rw [dropping]
  cases reads : s.stack.reads (scan source).bare with
  | false =>
    rw [run_of_not_reads reads]
    simp only [tell, Reporter.tell, Reporter.extended, Bool.false_eq_true, if_false, List.foldl_nil, Bool.or_false]
  | true =>
    simp only [Stack.holds, reads, Bool.true_and, Bool.or_eq_false_iff, Bool.not_eq_false',
      ← earlyErrors_isEmpty] at dropped
    rw [run_reading h reads]
    dsimp only
    rw [if_pos dropped.1, if_pos rfl, dropped.1, List.isEmpty_iff.mp dropped.1]
    exact if_neg (ne_true_of_eq_false dropped.2)

/-- A source with a static error is reported, and leaves no other trace. -/
theorem run_refused (h : s.reporter.fatal = false) (held : s.stack.holds source = true)
    (he : staticErrors source ≠ []) : s.run source = (s.tell (s.refusal source) true, .done) := by
  rw [run_reading h (Stack.reads_of_holds held), refusal]
  dsimp only
  cases early : (earlyErrors source).isEmpty with
  | true =>
    rw [staticErrors_of_early early] at he ⊢
    have found : (resolution source).errors.isEmpty = false := by
      cases hr : (resolution source).errors with
      | nil => exact absurd (by rw [hr]; rfl) he
      | cons _ _ => rfl
    rw [if_pos rfl, if_pos rfl, if_pos (resolves_of_holds held early), resolveAndRun_eq (s := s.tell _ _) h rfl]
    dsimp only
    rw [found, if_neg (by decide), List.isEmpty_iff.mp early, tell_tell, tell_tell,
      listed_cons (s.readingNote source) [_], List.append_assoc (s.listed [_])]
    rfl
  | false =>
    rw [if_neg (by decide), if_neg (by decide), staticErrors_of_late early]
    rfl

end Session

/-- Numbers and resolves the program of a source and runs it. -/
def Interpreter.perform (i : Interpreter) (source : String) : Interpreter × Option Fault :=
  let numbered := i.number (parse (scan source).tokens).statements
  (numbered.2.learn (resolve numbered.1).entries).execute numbered.1

namespace Session

/-- What a session writes about a source that it runs. -/
def account (s : Session) (source : String) : List String :=
  let ran := s.interpreter.perform source
  s.listed (s.readingNote source :: resolvingNote (resolution source) ::
    ran.1.takeEvents.1.toList.map Event.line) ++ s.reporter.closing (ran.2.map (·.raised))

/-- A source without static errors is run, and its run is accounted for. -/
theorem run_accepted_eq (h : s.reporter.fatal = false) (held : s.stack.holds source = true)
    (he : staticErrors source = []) : s.run source =
      let ran := s.interpreter.perform source
      let raised := ran.2.map (·.raised)
      ({ s with
        interpreter := ran.1.takeEvents.2
        reporter := { s.reporter with
          stream := Reporter.extended s.reporter.stream (s.account source)
          hadRuntimeError := s.reporter.hadRuntimeError || !(s.reporter.closing raised).isEmpty } },
        Raised.ending raised) := by
  obtain ⟨early, quiet⟩ : (earlyErrors source).isEmpty = true ∧ (resolution source).errors.isEmpty = true := by
    rw [← Bool.and_eq_true, ← staticErrors_isEmpty, he]
    rfl
  rw [run_reading h (Stack.reads_of_holds held), account, Interpreter.perform]
  dsimp only
  generalize hp : (parse (scan source).tokens).statements = program
  rw [if_pos early, if_pos (resolves_of_holds held early), resolveAndRun_eq (s := s.tell _ _) h hp]
  dsimp only
  rw [if_pos quiet, early, List.isEmpty_iff.mp early, tell_tell, finish_eq (s := s.tell _ _) h,
    listed_cons (s.readingNote source) (_ :: _), listed_cons (resolvingNote _) (List.map _ _)]
  simp only [tell, Reporter.tell, Bool.not_true, Bool.or_false, Reporter.extended, List.foldl_append]
  rfl

/-- A run leaves the interpreter alone, or it performs a source without static errors. -/
theorem run_performs (h : s.reporter.fatal = false) (source : String) :
    (s.run source).1.interpreter = s.interpreter ∨
      s.stack.holds source = true ∧ staticErrors source = [] ∧
        (s.run source).1.interpreter = (s.interpreter.perform source).1.takeEvents.2 := by
  cases held : s.stack.holds source with
  | false =>
    rw [run_dropped_eq h held]
    exact .inl rfl
  | true =>
    by_cases he : staticErrors source = []
    · rw [run_accepted_eq h held he]
      exact .inr ⟨rfl, he, rfl⟩
    · rw [run_refused h held he]
      exact .inl rfl

end Session

end Lox
