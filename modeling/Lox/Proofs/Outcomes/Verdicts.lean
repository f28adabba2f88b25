import Lox.Proofs.Outcomes.Programs
import Lox.Proofs.Refusals
import Lox.Proofs.SessionAgreement

/-! # What comes of a unit

A unit that does not go on forever is refused, completed, stopped by one error of its own or
stopped by the depth of its nesting. Which of these it is decides what is reported, which
flag is set and how the session goes on. A unit that uses up the stack of the host before it
is run comes to none of them. -/

namespace Lox

/-- What can come of a unit. -/
inductive Verdict where
  | refused
  | completed
  | failed (error : RuntimeError)
  | overflowed
  | exhausted

namespace Verdict

/-- The unit has been executed, to whatever end. -/
def isExecuted : Verdict → Bool
  | completed | failed _ | overflowed => true
  | refused | exhausted => false

/-- What has cut the run short. -/
def fault? : Verdict → Option Fault
  | refused | completed | exhausted => none
  | failed error => some (.runtime error)
  | overflowed => some .tooDeep

theorem eq_of_fault? {v w : Verdict} (hv : v.isExecuted) (hw : w.isExecuted) (h : v.fault? = w.fault?) :
    v = w := by
  cases v <;> cases w <;> simp_all [fault?, isExecuted]

end Verdict

namespace Session

/-- The run of a unit ends by itself. -/
def Finishes (s : Session) (source : String) : Prop :=
  (s.run source).2 ≠ .passedOn Fault.unfinished.raised

/-- The lines about internals that come with a run. There are none unless they are asked for. -/
def runNotes (s : Session) (source : String) : List String :=
  s.listed (s.readingNote source :: resolvingNote (resolution source) ::
    (s.interpreter.perform source).1.takeEvents.1.toList.map Event.line)

/-- The source has a static error. That is reported, and nothing is executed. -/
structure Refused (s : Session) (source : String) : Prop where
  held : s.stack.holds source = true
  errors : staticErrors source ≠ []
  interpreter : (s.run source).1.interpreter = s.interpreter
  stream : (s.run source).1.reporter.stream = Reporter.extended s.reporter.stream (s.refusal source)
  hadError : (s.run source).1.reporter.hadError = true
  hadRuntimeError : (s.run source).1.reporter.hadRuntimeError = s.reporter.hadRuntimeError
  ending : (s.run source).2 = .done

/-- The program of the source has been executed up to a machine. All that has happened to it is
kept, in the global scope again, and behind the notes on the run these lines are reported. -/
structure Executed (s : Session) (source : String) (code : List (Stmt Nat)) (i : Interpreter)
    (last : Machine) (lines : List String) : Prop where
  held : s.stack.holds source = true
  accepted : staticErrors source = []
  program : s.interpreter.prepare? source = some (code, i)
  interpreter : (s.run source).1.interpreter = { i with machine := last.settled }
  stream : (s.run source).1.reporter.stream =
    Reporter.extended s.reporter.stream (s.runNotes source ++ lines)
  hadError : (s.run source).1.reporter.hadError = s.reporter.hadError

/-- All statements have gone through, and nothing is reported. -/
def Completed (s : Session) (source : String) : Prop :=
  ∃ code i last, s.Executed source code i last [] ∧
    Run.statements (.ofLimits i.limits) code i.machine = .ok () last ∧
    (s.run source).1.reporter.hadRuntimeError = s.reporter.hadRuntimeError ∧ (s.run source).2 = .done

/-- A statement has stopped with an error, which is reported. -/
def Failed (s : Session) (source : String) (error : RuntimeError) : Prop :=
  ∃ code i last, s.Executed source code i last [s.reporter.rendering error.diagnostic] ∧
    StopsIn (.ofLimits i.limits) code i.machine (.runtime error) last ∧
    (s.run source).1.reporter.hadRuntimeError = true ∧ (s.run source).2 = .done

/-- A statement has nested too deep, and the session is left with an exit code. -/
def Overflowed (s : Session) (source : String) : Prop :=
  ∃ code i last, s.Executed source code i last [s.reporter.internalRendering "Stack overflow."] ∧
    StopsIn (.ofLimits i.limits) code i.machine .tooDeep last ∧
    (s.run source).1.reporter.hadRuntimeError = true ∧ (s.run source).2 = .exit (some ExitCode.runtime)

/-- The stack does not hold the source. Nothing is reported of that, no flag is set and nothing
is executed: whoever has asked for the run is left with it. -/
structure Exhausted (s : Session) (source : String) : Prop where
  dropped : s.stack.holds source = false
  interpreter : (s.run source).1.interpreter = s.interpreter
  stream : (s.run source).1.reporter.stream = Reporter.extended s.reporter.stream (s.dropping source)
  hadError : (s.run source).1.reporter.hadError = s.reporter.hadError
  hadRuntimeError : (s.run source).1.reporter.hadRuntimeError = s.reporter.hadRuntimeError
  ending : (s.run source).2 = .passedOn .stackExhausted

def Ends (s : Session) (source : String) : Verdict → Prop
  | .refused => s.Refused source
  | .completed => s.Completed source
  | .failed error => s.Failed source error
  | .overflowed => s.Overflowed source
  | .exhausted => s.Exhausted source

variable {s : Session} {source : String} {code : List (Stmt Nat)} {i : Interpreter} {last : Machine}

theorem Reachable.foreseen (h : s.Reachable) (hp : s.interpreter.prepare? source = some (code, i)) :
    ∀ fault ∈ (i.execute code).2, fault.Foreseen := by
  obtain ⟨t, alongside⟩ := Agreement.exists_alongside h
  obtain ⟨home, accepted⟩ := (Agreement.Prepared.of_prepare? hp).accepted alongside.beside
  obtain ⟨fault, after, state, executed⟩ := accepted.execute
  rw [executed.left]
  exact executed.foreseen

theorem exhausted_of (h : s.reporter.fatal = false) (dropped : s.stack.holds source = false) :
    s.Exhausted source := by
  refine ⟨dropped, ?_, ?_, ?_, ?_, ?_⟩ <;> rw [run_dropped_eq h dropped]
  all_goals dsimp only [tell, Reporter.tell]
  exact Bool.or_false _

theorem refused_of (h : s.reporter.fatal = false) (held : s.stack.holds source = true)
    (he : staticErrors source ≠ []) : s.Refused source := by
  have step := run_refuses h held he
  obtain ⟨-, interpreter, ending, stream, hadError, hadRuntimeError⟩ := step
  dsimp only at interpreter ending stream hadError hadRuntimeError
  exact ⟨held, he, interpreter, stream, hadError, hadRuntimeError, ending⟩

/-- What a run of an accepted source comes to, given where its program has ended and what has
cut it short. -/
theorem executed_of (h : s.reporter.fatal = false) (held : s.stack.holds source = true)
    (he : staticErrors source = []) (hp : s.interpreter.prepare? source = some (code, i)) {fault : Option Fault}
    (performed : s.interpreter.perform source =
      ({ i with machine := { last with current := Machine.globals } }, fault)) :
    let lines := s.reporter.closing (fault.map (·.raised))
    s.Executed source code i last lines ∧
      (s.run source).1.reporter.hadRuntimeError = (s.reporter.hadRuntimeError || !lines.isEmpty) ∧
      (s.run source).2 = Raised.ending (fault.map (·.raised)) := by
  intro lines
  have notes : s.account source = s.runNotes source ++ lines := by
    rw [account, runNotes, performed]
  refine ⟨⟨held, he, hp, ?_, ?_, ?_⟩, ?_, ?_⟩ <;> rw [run_accepted_eq h held he] <;> dsimp only
  · rw [performed]
    rfl
  · rw [notes]
  · rw [performed]
  · rw [performed]

theorem exists_ends (h : s.Reachable) (finishes : s.Finishes source) : ∃ v, s.Ends source v := by
  cases held : s.stack.holds source with
  | false => exact ⟨.exhausted, exhausted_of h.fatal held⟩
  | true => ?_
  by_cases he : staticErrors source = []
  case neg => exact ⟨.refused, refused_of h.fatal held he⟩
  obtain ⟨code, i, hp, performed⟩ := s.interpreter.perform_prepared he
  cases ran : Run.statements (.ofLimits i.limits) code i.machine with
  | ok _ last =>
    rw [Interpreter.execute_of_ok ran] at performed
    obtain ⟨executed, flag, ending⟩ := executed_of h.fatal held he hp performed
    exact ⟨.completed, code, i, last, executed, ran, flag.trans (Bool.or_false _), ending⟩
  | error fault last =>
    have foreseen := h.foreseen hp
    have stops := Run.statements_stops ran
    rw [Interpreter.execute_of_error ran] at performed foreseen
    obtain ⟨executed, flag, ending⟩ := executed_of h.fatal held he hp performed
    cases fault with
    | runtime error =>
      exact ⟨.failed error, code, i, last, executed, stops, flag.trans (Bool.or_true _), ending⟩
    | tooDeep => exact ⟨.overflowed, code, i, last, executed, stops, flag.trans (Bool.or_true _), ending⟩
    | unfinished => exact absurd ending finishes
    | scope _ | unresolvedSuper | superNotClass | dangling => exact (foreseen _ rfl).elim

/-- An executed unit is held and has no static errors, and has been cut short as its verdict says. -/
theorem Ends.performed {v : Verdict} (h : s.Ends source v) (hv : v.isExecuted) :
    s.stack.holds source = true ∧ staticErrors source = [] ∧ (s.interpreter.perform source).2 = v.fault? := by
  have performed {code : List (Stmt Nat)} {i : Interpreter} {last : Machine} {lines : List String}
      (executed : s.Executed source code i last lines) : s.interpreter.perform source = i.execute code := by
    obtain ⟨_, _, hp, performed⟩ := s.interpreter.perform_prepared executed.accepted
    rw [executed.program] at hp
    cases hp
    exact performed
  cases v with
  | refused | exhausted => cases hv
  | completed =>
    obtain ⟨code, i, last, executed, through, -, -⟩ := h
    refine ⟨executed.held, executed.accepted, ?_⟩
    rw [performed executed, Interpreter.execute_of_ok through]
    rfl
  | failed _ | overflowed =>
    obtain ⟨code, i, last, executed, stops, -, -⟩ := h
    refine ⟨executed.held, executed.accepted, ?_⟩
    rw [performed executed, Interpreter.execute_of_error stops.error]
    rfl

/-- Verdicts tell whether the stack holds a source, static errors from others, and runs by what
has cut them short. -/
theorem Ends.cause {v : Verdict} (h : s.Ends source v) :
    v = .exhausted ∧ s.stack.holds source = false ∨
      v = .refused ∧ s.stack.holds source = true ∧ staticErrors source ≠ [] ∨
      v.isExecuted ∧ s.stack.holds source = true ∧ staticErrors source = [] ∧
        (s.interpreter.perform source).2 = v.fault? := by
  cases v with
  | exhausted => exact .inl ⟨rfl, h.dropped⟩
  | refused => exact .inr (.inl ⟨rfl, h.held, h.errors⟩)
  | completed | failed _ | overflowed => exact .inr (.inr ⟨rfl, h.performed rfl⟩)

theorem Ends.unique {v w : Verdict} (h : s.Ends source v) (h' : s.Ends source w) : v = w := by
  rcases h.cause with ⟨rfl, dropped⟩ | ⟨rfl, held, errors⟩ | ⟨run, held, quiet, fault⟩ <;>
    rcases h'.cause with ⟨rfl, dropped'⟩ | ⟨rfl, held', errors'⟩ | ⟨run', held', quiet', fault'⟩
  case inl.inl | inr.inl.inr.inl => rfl
  case inl.inr.inl | inl.inr.inr => exact absurd held' (ne_true_of_eq_false dropped)
  case inr.inl.inl | inr.inr.inl => exact absurd held (ne_true_of_eq_false dropped')
  case inr.inl.inr.inr => exact absurd quiet' errors
  case inr.inr.inr.inl => exact absurd quiet errors'
  case inr.inr.inr.inr => exact Verdict.eq_of_fault? run run' (fault.symm.trans fault')

theorem exists_unique_ends (h : s.Reachable) (finishes : s.Finishes source) : ∃! v, s.Ends source v := by
  obtain ⟨v, ends⟩ := exists_ends h finishes
  exact ⟨v, ends, fun w other => other.unique ends⟩

/-- Whether a source is held does not depend on how its run would go. -/
theorem ends_exhausted_iff (h : s.Reachable) :
    s.Ends source .exhausted ↔ s.stack.holds source = false :=
  ⟨Exhausted.dropped, exhausted_of h.fatal⟩

end Session

end Lox
