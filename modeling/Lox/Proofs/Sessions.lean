import Lox.Proofs.Lexical
import Lox.Session

/-! # Sessions and what is asked of them

First what a session does with a source that is accepted and with one that is not.
Then a session beside which the real one can be put: it reads and checks its sources
in the same way, and runs them on a reference state. -/

namespace Lox

/-- What one can ask of a session. -/
inductive Request where
  | run (source : String)
  | reset

namespace Session

def answerAll (s : Session) : List Request → Session × List Ending
  | [] => (s, [])
  | .run source :: rest =>
    let (s, ending) := s.run source
    let (s, endings) := s.answerAll rest
    (s, ending :: endings)
  | .reset :: rest => s.reset.answerAll rest

inductive Reachable : Session → Prop
  | start (host : Host) (name : String) (color verbose : Bool) (reading : Nat → Float) :
      Reachable (.startOn host name color verbose reading)
  | run {s : Session} (h : Reachable s) (source : String) : Reachable (s.run source).1
  | reset {s : Session} (h : Reachable s) : Reachable s.reset

end Session

/-- The stack is not used up by reading a source, and neither by resolving its program if
it comes to that. -/
def Stack.holds (stack : Stack) (source : String) : Bool :=
  let scanned := scan source
  stack.reads scanned.bare &&
    (!(scanned.errors.isEmpty && (parse scanned.tokens).errors.isEmpty) || stack.resolves scanned.bare)

variable {stack : Stack} {source : String}

theorem Stack.reads_of_holds (h : stack.holds source = true) : stack.reads (scan source).bare = true :=
  (Bool.and_eq_true_iff.mp h).1

theorem Stack.resolves_of_holds (h : stack.holds source = true)
    (quiet : ((scan source).errors.isEmpty && (parse (scan source).tokens).errors.isEmpty) = true) :
    stack.resolves (scan source).bare = true := by
  simpa only [quiet, Bool.not_true, Bool.false_or] using (Bool.and_eq_true_iff.mp h).2

theorem Stack.holds_of_not_reads (h : stack.reads (scan source).bare = false) : stack.holds source = false :=
  Bool.and_eq_false_iff.mpr (.inl h)

@[simp] theorem Stack.ample_holds (source : String) : Stack.ample.holds source = true := by
  rw [holds]
  exact Bool.or_true _

namespace Interpreter

/-- The program of a source, numbered and resolved as a unit that is run next. There
is none if the source has an error that can be found without running it. -/
def prepare? (i : Interpreter) (source : String) : Option (List (Stmt Nat) × Interpreter) :=
  let scanned := scan source
  let parsed := parse scanned.tokens
  let (program, i) := i.number parsed.statements
  let resolution := resolve program
  if scanned.errors.isEmpty && parsed.errors.isEmpty && resolution.errors.isEmpty then
    some (program, i.learn resolution.entries)
  else none

end Interpreter

namespace Reporter

variable {r : Reporter}

theorem reportAll_done (ds : List Diagnostic) : ∀ {r : Reporter}, r.fatal = false →
    (r.reportAll ds).2 = .done ∧ (r.reportAll ds).1.fatal = false := by
  induction ds with
  | nil => exact fun h => ⟨rfl, h⟩
  | cons d rest ih =>
    intro r h
    have first : (r.report d).2 = .done := by
      rw [Reporter.report, Reporter.ending, h]
      rfl
    have step : r.reportAll (d :: rest) = (r.report d).1.reportAll rest := by
      rw [reportAll, ← Prod.eta (r.report d), first]
    rw [step]
    exact ih h

end Reporter

namespace Session

variable {s : Session} {source : String}

@[simp] theorem note_interpreter (line : String) : (s.note line).interpreter = s.interpreter := by
  unfold note
  split <;> rfl

@[simp] theorem note_stack (line : String) : (s.note line).stack = s.stack := by
  unfold note
  split <;> rfl

@[simp] theorem note_fatal (line : String) : (s.note line).reporter.fatal = s.reporter.fatal := by
  unfold note
  split <;> rfl

theorem report_spec (h : s.reporter.fatal = false) (ds : List Diagnostic) :
    (s.report ds).2 = .done ∧ (s.report ds).1.reporter.fatal = false ∧
      (s.report ds).1.interpreter = s.interpreter := by
  obtain ⟨done, fatal⟩ := Reporter.reportAll_done ds h
  exact ⟨done, fatal, rfl⟩

theorem noteEvents_spec (events : Array Event) :
    (s.noteEvents events).interpreter = s.interpreter ∧
      (s.noteEvents events).reporter.fatal = s.reporter.fatal := by
  rw [noteEvents, ← Array.foldl_toList]
  generalize events.toList = rest
  induction rest generalizing s with
  | nil => exact ⟨rfl, rfl⟩
  | cons e rest ih =>
    obtain ⟨hi, hf⟩ := ih (s := s.note e.line)
    exact ⟨hi.trans (note_interpreter _), hf.trans (note_fatal _)⟩

/-- A source without an error of its own goes to the resolver. -/
theorem run_eq (h : s.reporter.fatal = false) (reads : s.stack.reads (scan source).bare = true) :
    ∃ t : Session, t.interpreter = s.interpreter ∧ t.reporter.fatal = false ∧ s.run source =
      if (scan source).errors.isEmpty && (parse (scan source).tokens).errors.isEmpty then
        if s.stack.resolves (scan source).bare then t.resolveAndRun (parse (scan source).tokens).statements
        else (t, .passedOn .stackExhausted)
      else (t, .done) := by
  obtain ⟨done, fatal, same⟩ := report_spec h
    ((scan source).errors.map (·.diagnostic) ++ (parse (scan source).tokens).diagnostics)
  rw [run]
  dsimp only
  rw [if_pos reads, ← Prod.eta (s.report _), done]
  simp only [note_stack]
  exact ⟨_, (note_interpreter _).trans same, (note_fatal _).trans fatal, rfl⟩

theorem run_of_not_reads (h : s.stack.reads (scan source).bare = false) :
    s.run source = (s, .passedOn .stackExhausted) := by
  rw [run]
  exact if_neg (ne_true_of_eq_false h)

/-- A source that the stack does not hold changes nothing but the notes. -/
theorem run_dropped (h : s.reporter.fatal = false) (dropped : s.stack.holds source = false) :
    (s.run source).1.interpreter = s.interpreter ∧ (s.run source).2 = .passedOn .stackExhausted := by
  cases reads : s.stack.reads (scan source).bare with
  | false =>
    rw [run_of_not_reads reads]
    exact ⟨rfl, rfl⟩
  | true =>
    obtain ⟨t, same, -, e⟩ := run_eq h reads
    simp only [Stack.holds, reads, Bool.true_and, Bool.or_eq_false_iff, Bool.not_eq_false'] at dropped
    rw [e, if_pos dropped.1, dropped.2]
    exact ⟨same, rfl⟩

/-- A source that is not accepted changes nothing but the reports. -/
theorem run_rejected (h : s.reporter.fatal = false) (held : s.stack.holds source = true)
    (hp : s.interpreter.prepare? source = none) :
    (s.run source).1.interpreter = s.interpreter ∧ (s.run source).2 = .done := by
  obtain ⟨t, hi, hf, e⟩ := run_eq h (Stack.reads_of_holds held)
  rw [e]
  split
  · rename_i quiet
    have errors : (resolve (t.interpreter.number (parse (scan source).tokens).statements).1).errors.isEmpty
        = false := by
      simp only [Interpreter.prepare?, quiet, Bool.true_and, ite_eq_right_iff, reduceCtorEq,
        imp_false, Bool.not_eq_true] at hp
      rw [hi]
      exact hp
    rw [if_pos (Stack.resolves_of_holds held quiet), resolveAndRun]
    dsimp only
    rw [errors, if_neg (by decide)]
    obtain ⟨done, -, same⟩ := report_spec ((note_fatal _).trans hf) _
    exact ⟨same.trans ((note_interpreter _).trans hi), done⟩
  · exact ⟨hi, rfl⟩

/-- An accepted program is executed, and what cuts it short is reported. -/
theorem run_accepted (h : s.reporter.fatal = false) (held : s.stack.holds source = true)
    {code : List (Stmt Nat)} {i : Interpreter} (hp : s.interpreter.prepare? source = some (code, i)) :
    ∃ r : Reporter, r.fatal = false ∧
      (s.run source).1.interpreter = (i.execute code).1.takeEvents.2 ∧
      (s.run source).2 = (r.handle ((i.execute code).2.map (·.raised))).2 := by
  obtain ⟨t, hi, hf, e⟩ := run_eq h (Stack.reads_of_holds held)
  simp only [Interpreter.prepare?, Option.ite_none_right_eq_some, Bool.and_eq_true,
    Option.some.injEq, Prod.mk.injEq] at hp
  obtain ⟨⟨quiet, clean⟩, rfl, rfl⟩ := hp
  have quiet := Bool.and_eq_true_iff.mpr quiet
  rw [e, if_pos quiet, if_pos (Stack.resolves_of_holds held quiet), resolveAndRun]
  dsimp only
  rw [hi, if_pos clean, finish]
  dsimp only
  refine ⟨_, ?_, ?_, rfl⟩
  · rw [(noteEvents_spec _).2]
    dsimp only
    rw [note_fatal, hf]
  · rw [(noteEvents_spec _).1]

/-- A run leaves the interpreter alone, or it is that of an accepted program. -/
theorem run_interpreter (h : s.reporter.fatal = false) (source : String) :
    (s.run source).1.interpreter = s.interpreter ∨
      s.stack.holds source = true ∧ ∃ code i, s.interpreter.prepare? source = some (code, i) ∧
        (s.run source).1.interpreter = (i.execute code).1.takeEvents.2 := by
  cases held : s.stack.holds source with
  | false => exact .inl (run_dropped h held).1
  | true =>
    cases hp : s.interpreter.prepare? source with
    | none => exact .inl (run_rejected h held hp).1
    | some ready =>
      obtain ⟨_, -, after, -⟩ := run_accepted h held hp
      exact .inr ⟨rfl, ready.1, ready.2, rfl, after⟩

end Session

namespace Lexical

structure Session where
  reporter : Reporter
  limits : Limits
  stack : Stack
  state : State Nat
  /-- the references of a program are numbered for the check of the program only -/
  nextMark : Nat

namespace Session

def startOn (host : Host) (color : Bool) (reading : Nat → Float) : Session :=
  ⟨.begin (if color then some host.paint else none) false, host.limits, host.stack, .start reading, 0⟩

def reset (t : Session) : Session := { t with reporter := t.reporter.reset }

def report (t : Session) (ds : List Diagnostic) : Session × Ending :=
  let (reporter, ending) := t.reporter.reportAll ds
  ({ t with reporter := reporter }, ending)

def finish (t : Session) (fault : Option Fault) : Session × Ending :=
  let (reporter, ending) := t.reporter.handle (fault.map (·.raised))
  ({ t with reporter := reporter }, ending)

def checkAndRun (t : Session) (program : List (Stmt Unit)) : Session × Ending :=
  let (program, next) := Stmt.numberAll program t.nextMark
  let errors := (resolve program).errors
  if errors.isEmpty then
    match Run.program (.ofLimits t.limits) program t.state with
    | .ok _ state => { t with state := state, nextMark := next }.finish none
    | .error fault state => { t with state := state, nextMark := next }.finish (some fault)
  else t.report (errors.map (·.diagnostic))

def run (t : Session) (source : String) : Session × Ending :=
  let scanned := scan source
  if t.stack.reads scanned.bare then
    let parsed := parse scanned.tokens
    match t.report (scanned.errors.map (·.diagnostic) ++ parsed.diagnostics) with
    | (t, .done) =>
      if scanned.errors.isEmpty && parsed.errors.isEmpty then
        if t.stack.resolves scanned.bare then t.checkAndRun parsed.statements
        else (t, .passedOn .stackExhausted)
      else (t, .done)
    | ended => ended
  else (t, .passedOn .stackExhausted)

def answerAll (t : Session) : List Request → Session × List Ending
  | [] => (t, [])
  | .run source :: rest =>
    let (t, ending) := t.run source
    let (t, endings) := t.answerAll rest
    (t, ending :: endings)
  | .reset :: rest => t.reset.answerAll rest

end Session

end Lexical

end Lox
