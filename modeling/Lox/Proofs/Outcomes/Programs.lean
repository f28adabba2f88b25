import Lox.Proofs.StaticErrors

/-! # Where a program stops

A program that does not come to its end stops in one of its statements. Those in front of
that one have gone through, and those behind it could as well not be there. -/

namespace Lox

/-- A program stops in one of its statements, which leaves the machine as it is when the
fault comes up. Other statements behind that one change nothing. -/
def StopsIn (level : Level) (code : List (Stmt Nat)) (m : Machine) (fault : Fault) (last : Machine) : Prop :=
  ∃ before failing rest reached, code = before ++ failing :: rest ∧
    Run.statements level before m = .ok () reached ∧ level.stmt failing reached = .error fault last ∧
    ∀ others, Run.statements level (before ++ failing :: others) m = .error fault last

/-- The machine between two programs: in the global scope, and with its events taken away. -/
def Machine.settled (m : Machine) : Machine :=
  { m with current := globals, events := m.events.map fun _ => #[] }

variable {level : Level} {code : List (Stmt Nat)} {m last : Machine} {fault : Fault}

theorem StopsIn.error (h : StopsIn level code m fault last) :
    Run.statements level code m = .error fault last := by
  obtain ⟨before, failing, rest, reached, rfl, -, -, others⟩ := h
  exact others rest

namespace Run

theorem statements_cons (s : Stmt Nat) (rest : List (Stmt Nat)) (m : Machine) :
    statements level (s :: rest) m =
      match level.stmt s m with
      | .ok _ m => statements level rest m
      | .error fault m => .error fault m := by
  rw [statements]
  change EStateM.bind _ _ m = _
  rw [EStateM.bind]
  cases level.stmt s m <;> rfl

theorem statements_stops (h : statements level code m = .error fault last) :
    StopsIn level code m fault last := by
  induction code generalizing m with
  | nil => cases h
  | cons s code ih =>
    rw [statements_cons] at h
    cases first : level.stmt s m with
    | error e after =>
      rw [first] at h
      cases h
      refine ⟨[], s, code, m, rfl, rfl, first, fun others => ?_⟩
      rw [List.nil_append, statements_cons, first]
    | ok outcome after =>
      rw [first] at h
      obtain ⟨before, failing, rest, reached, rfl, gone, stopped, others⟩ := ih h
      refine ⟨s :: before, failing, rest, reached, rfl, ?_, stopped, fun more => ?_⟩
      · rw [statements_cons, first]
        exact gone
      · rw [List.cons_append, statements_cons, first]
        exact others more

theorem program_eq (level : Level) (code : List (Stmt Nat)) (m : Machine) :
    program level code m =
      match statements level code m with
      | .ok _ m => .ok () { m with current := Machine.globals }
      | .error fault m => .error fault { m with current := Machine.globals } := by
  rw [program, ensuring]
  cases statements level code m <;> rfl

end Run

namespace Interpreter

variable {i : Interpreter} {source : String}

theorem execute_of_ok (h : Run.statements (.ofLimits i.limits) code i.machine = .ok () last) :
    i.execute code = ({ i with machine := { last with current := Machine.globals } }, none) := by
  rw [execute, Run.program_eq, h]

theorem execute_of_error (h : Run.statements (.ofLimits i.limits) code i.machine = .error fault last) :
    i.execute code = ({ i with machine := { last with current := Machine.globals } }, some fault) := by
  rw [execute, Run.program_eq, h]

/-- A source without static errors has a program, and that is what is run. -/
theorem perform_prepared (i : Interpreter) (he : staticErrors source = []) :
    ∃ code j, i.prepare? source = some (code, j) ∧ i.perform source = j.execute code := by
  obtain ⟨early, quiet⟩ : (earlyErrors source).isEmpty = true ∧ (resolution source).errors.isEmpty = true := by
    rw [← Bool.and_eq_true, ← staticErrors_isEmpty, he]
    rfl
  rw [earlyErrors_isEmpty] at early
  rw [resolution, ← (resolve_number _ i.nextMark).1] at quiet
  unfold prepare? perform number
  dsimp only
  rw [early, quiet]
  exact ⟨_, _, rfl, rfl⟩

end Interpreter

end Lox
