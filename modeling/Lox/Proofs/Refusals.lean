import Lox.Proofs.StaticErrors

/-! # Sources that are not run leave no trace

A session is followed step by step through whatever it is asked for. Leaving out the
sources with static errors, each other step begins and ends with the same interpreter,
and writes and ends the same. -/

namespace Lox

/-- Whether a source is asked for that is not run. -/
def Request.isRefused : Request → Bool
  | .run source => !(staticErrors source).isEmpty
  | .reset => false

theorem Request.isRefused_run {source : String} :
    (Request.run source).isRefused = true ↔ staticErrors source ≠ [] := by
  rw [isRefused, Bool.not_eq_true', List.isEmpty_eq_false_iff]

namespace Session

/-- One request and what comes of it. -/
structure Step where
  before : Session
  request : Request
  after : Session
  ending : Ending

def steps (s : Session) : List Request → List Step
  | [] => []
  | .run source :: rest =>
    ⟨s, .run source, (s.run source).1, (s.run source).2⟩ :: (s.run source).1.steps rest
  | .reset :: rest => ⟨s, .reset, s.reset, .done⟩ :: s.reset.steps rest

/-- Steps that do the same, although more errors may have been reported before one of them. -/
structure Step.Matches (a b : Step) : Prop where
  request : b.request = a.request
  before : b.before.interpreter = a.before.interpreter
  after : b.after.interpreter = a.after.interpreter
  ending : b.ending = a.ending
  reports : ∃ text, a.after.reporter.stream = a.before.reporter.stream ++ text ∧
    b.after.reporter.stream = b.before.reporter.stream ++ text
  hadRuntimeError : b.after.reporter.hadRuntimeError = a.after.reporter.hadRuntimeError
  hadError : b.before.reporter.hadError = a.before.reporter.hadError →
    b.after.reporter.hadError = a.after.reporter.hadError

/-- A step that reports the errors of a source and does nothing else. The output of the
programs is a part of the interpreter. -/
structure Step.Refuses (a : Step) (source : String) : Prop where
  request : a.request = .run source
  interpreter : a.after.interpreter = a.before.interpreter
  ending : a.ending = .done
  stream : a.after.reporter.stream =
    Reporter.extended a.before.reporter.stream (a.before.refusal source)
  hadError : a.after.reporter.hadError = true
  hadRuntimeError : a.after.reporter.hadRuntimeError = a.before.reporter.hadRuntimeError

variable {s t : Session} {source : String}

/-- Twins run a source without static errors in the same way. -/
theorem Twins.run (h : s.Twins Eq t) (he : staticErrors source = []) :
    Step.Matches ⟨s, .run source, (s.run source).1, (s.run source).2⟩
        ⟨t, .run source, (t.run source).1, (t.run source).2⟩ ∧
      (s.run source).1.Twins Eq (t.run source).1 := by
  cases held : s.stack.holds source with
  | false =>
    have lines : t.dropping source = s.dropping source := by
      rw [dropping, dropping, h.stack, h.listed, h.readingNote]
    rw [run_dropped_eq h.left held, run_dropped_eq h.right (h.stack ▸ held), lines]
    refine ⟨⟨rfl, h.interpreter.symm, h.interpreter.symm, rfl, ?_, h.hadRuntimeError, fun same => ?_⟩, { h with }⟩
    · exact ⟨_, Reporter.extended_eq .., Reporter.extended_eq ..⟩
    · exact congrArg (· || false) same
  | true =>
    have lines : t.account source = s.account source := by
      unfold account
      dsimp only
      rw [← h.interpreter, h.listed, h.readingNote, Reporter.closing_congr h.paint]
    rw [run_accepted_eq h.left held he, run_accepted_eq h.right (h.stack ▸ held) he, ← h.interpreter, lines]
    generalize s.account source = written
    generalize s.interpreter.perform source = ran
    dsimp only
    rw [Reporter.closing_congr h.paint, h.hadRuntimeError]
    refine ⟨⟨rfl, h.interpreter.symm, rfl, rfl, ?_, rfl, id⟩, { h with hadRuntimeError := rfl, interpreter := rfl }⟩
    exact ⟨_, Reporter.extended_eq .., Reporter.extended_eq ..⟩

theorem Twins.matchesReset (h : s.Twins Eq t) :
    Step.Matches ⟨s, .reset, s.reset, .done⟩ ⟨t, .reset, t.reset, .done⟩ where
  request := rfl
  before := h.interpreter.symm
  after := h.interpreter.symm
  ending := rfl
  reports := ⟨"", (String.append_empty).symm, (String.append_empty).symm⟩
  hadRuntimeError := rfl
  hadError _ := rfl

theorem run_refuses (h : s.reporter.fatal = false) (held : s.stack.holds source = true)
    (he : staticErrors source ≠ []) :
    Step.Refuses ⟨s, .run source, (s.run source).1, (s.run source).2⟩ source := by
  rw [run_refused h held he]
  dsimp only [tell, Reporter.tell]
  exact ⟨rfl, rfl, rfl, rfl, Bool.or_true _, rfl⟩

/-- What a run leaves as it is, whatever comes of it. -/
theorem run_keeps (h : s.reporter.fatal = false) (source : String) :
    (s.run source).1.reporter.fatal = false ∧ (s.run source).1.stack = s.stack := by
  cases held : s.stack.holds source with
  | false =>
    rw [run_dropped_eq h held]
    exact ⟨h, rfl⟩
  | true =>
    by_cases he : staticErrors source = []
    · rw [run_accepted_eq h held he]
      dsimp only
      exact ⟨h, rfl⟩
    · rw [run_refused h held he]
      exact ⟨h, rfl⟩

theorem Reachable.fatal (h : s.Reachable) : s.reporter.fatal = false := by
  induction h with
  | start _ _ _ _ _ => rfl
  | run _ source ih => exact (run_keeps ih source).1
  | reset _ ih => exact ih

theorem answerAll_stack (h : s.reporter.fatal = false) {requests : List Request} :
    (s.answerAll requests).1.stack = s.stack := by
  induction requests generalizing s with
  | nil => rfl
  | cons request rest ih =>
    cases request with
    | reset => exact ih (s := s.reset) h
    | run source =>
      obtain ⟨fatal, stack⟩ := run_keeps h source
      exact (ih fatal).trans stack

/-- Every source with static errors is refused at its step, unless the stack does not hold it. -/
theorem steps_refuse {stack : Stack} (hk : s.stack = stack) (h : s.reporter.fatal = false)
    (requests : List Request) : ∀ step ∈ s.steps requests, step.request = .run source →
      stack.holds source = true → staticErrors source ≠ [] → step.Refuses source := by
  induction requests generalizing s with
  | nil => exact fun _ hs => absurd hs List.not_mem_nil
  | cons request rest ih =>
    intro step hs hr held he
    cases request with
    | reset =>
      rcases List.mem_cons.mp hs with rfl | later
      · cases hr
      · exact ih (s := s.reset) hk h step later hr held he
    | run other =>
      obtain ⟨fatal, same⟩ := run_keeps h other
      rcases List.mem_cons.mp hs with rfl | later
      · cases hr
        exact run_refuses h (hk ▸ held) he
      · exact ih (same.trans hk) fatal step later hr held he

theorem answerAll_run (s : Session) (source : String) (rest : List Request) :
    (s.answerAll (.run source :: rest)).1 = ((s.run source).1.answerAll rest).1 := by
  rw [answerAll]

theorem answerAll_append (s : Session) (first second : List Request) :
    (s.answerAll (first ++ second)).1 = ((s.answerAll first).1.answerAll second).1 := by
  induction first generalizing s with
  | nil => rfl
  | cons request rest ih =>
    cases request with
    | run source => rw [List.cons_append, answerAll_run, answerAll_run, ih]
    | reset => exact ih s.reset

theorem Reachable.answerAll (h : s.Reachable) (requests : List Request) : (s.answerAll requests).1.Reachable := by
  induction requests generalizing s with
  | nil => exact h
  | cons request rest ih =>
    cases request with
    | run source =>
      rw [answerAll_run]
      exact ih (h.run source)
    | reset => exact ih h.reset

/-- To run a source with static errors makes no difference to a twin. -/
theorem Twins.run_left (h : s.Twins Eq t) (he : staticErrors source ≠ []) : (s.run source).1.Twins Eq t := by
  cases held : s.stack.holds source with
  | false =>
    rw [run_dropped_eq h.left held]
    exact { h with }
  | true =>
    rw [run_refused h.left held he]
    exact { h with }

/-- Leaving out the sources that are refused, a session takes the same steps. -/
theorem Twins.steps (h : s.Twins Eq t) (requests : List Request) :
    let kept := requests.filter (!·.isRefused)
    List.Forall₂ Step.Matches ((s.steps requests).filter (!·.request.isRefused)) (t.steps kept) ∧
      (s.answerAll requests).1.Twins Eq (t.answerAll kept).1 := by
  induction requests generalizing s t with
  | nil => exact ⟨.nil, h⟩
  | cons request rest ih =>
    cases request with
    | reset => exact ⟨.cons h.matchesReset (ih h.reset).1, (ih h.reset).2⟩
    | run source =>
      by_cases he : staticErrors source = []
      · have accepted : (Request.run source).isRefused = false := by rw [Request.isRefused, he]; rfl
        obtain ⟨same, after⟩ := h.run he
        simp only [Session.steps, List.filter_cons, accepted, Bool.not_false, if_true, answerAll_run]
        exact ⟨.cons same (ih after).1, (ih after).2⟩
      · have refused : (Request.run source).isRefused = true := Request.isRefused_run.mpr he
        simp only [Session.steps, List.filter_cons, refused, Bool.not_true, Bool.false_eq_true, if_false,
          answerAll_run]
        exact ih (h.run_left he)

/-- Sources with static errors could as well not have been asked for: without them every other
step is the same. Each of them that the stack holds is reported and changes nothing. -/
theorem refused_sources_leave_no_trace (h : s.reporter.fatal = false) (requests : List Request) :
    let kept := requests.filter (!·.isRefused)
    List.Forall₂ Step.Matches ((s.steps requests).filter (!·.request.isRefused)) (s.steps kept) ∧
      (s.answerAll kept).1.interpreter = (s.answerAll requests).1.interpreter ∧
      (s.answerAll kept).1.reporter.hadRuntimeError =
        (s.answerAll requests).1.reporter.hadRuntimeError ∧
      ∀ step ∈ s.steps requests, ∀ source, step.request = .run source → s.stack.holds source = true →
        staticErrors source ≠ [] → step.Refuses source := by
  have self : s.Twins Eq s := ⟨rfl, rfl, rfl, rfl, h, h, rfl, rfl⟩
  obtain ⟨same, after⟩ := self.steps requests
  refine ⟨same, after.interpreter.symm, after.hadRuntimeError, fun step hs source hr held he => ?_⟩
  exact steps_refuse rfl h requests step hs hr held he

/-- A stray character is typed between two units. -/
theorem refused_sources_leave_no_trace_stray :
    let s := Session.start interactiveName false false fun _ => 0
    let requests := [.run "var a;", .run "@", .run "a;"]
    s.reporter.fatal = false ∧ requests.filter (!·.isRefused) = [.run "var a;", .run "a;"] ∧
      (s.answerAll [.run "var a;", .run "a;"]).1.interpreter = (s.answerAll requests).1.interpreter ∧
      ∀ step ∈ s.steps requests, step.request = .run "@" → step.Refuses "@" := by
  intro s requests
  have first : (Request.run "var a;").isRefused = false := by decide +kernel
  have stray : (Request.run "@").isRefused = true := by decide +kernel
  have last : (Request.run "a;").isRefused = false := by decide +kernel
  have kept : requests.filter (!·.isRefused) = [.run "var a;", .run "a;"] := by
    simp only [requests, List.filter_cons, List.filter_nil, first, stray, last, Bool.not_false,
      Bool.not_true, Bool.false_eq_true, if_true, if_false]
  obtain ⟨-, interpreter, -, refuses⟩ := refused_sources_leave_no_trace (s := s) rfl requests
  rw [kept] at interpreter
  have held : s.stack.holds "@" = true := by decide +kernel
  exact ⟨rfl, kept, interpreter, fun step hs hr => refuses step hs _ hr held (Request.isRefused_run.mp stray)⟩

end Session

end Lox
