import Lox.Proofs.Lineage.Declarations
import Lox.Proofs.Moments
import Lox.Proofs.SessionAgreement

/-! # What a session goes through

Between two units a session rests, and in the course of a unit it goes through the state of
each evaluation. Each of these states precedes the one that the session has in the end, and
its classes go back to declarations in the units that are accepted. -/

namespace Lox

namespace Session

/-- The program of a source, if it is run: it is accepted, and the stack holds it. -/
def unit? (s : Session) (source : String) : Option (List (Stmt Nat)) :=
  if s.stack.holds source then (s.interpreter.prepare? source).map (·.1) else none

/-- The programs of the units that are run. -/
def accepted (s : Session) : List Request → List (List (Stmt Nat))
  | [] => []
  | .run source :: rest => (s.unit? source).toList ++ (s.run source).1.accepted rest
  | .reset :: rest => s.reset.accepted rest

/-- The declarations of classes in the units that are run. -/
def declared (s : Session) (requests : List Request) : List Declaration :=
  (s.accepted requests).flatMap Stmt.allClasses

/-- The states between the requests to a session, and that of each evaluation in a unit. -/
inductive GoesThrough : Session → List Request → Machine → Prop
  | rests (s : Session) (requests : List Request) : GoesThrough s requests s.interpreter.machine
  | evaluates {s : Session} {source : String} {code : List (Stmt Nat)} {i : Interpreter} {e : Expr Nat}
      {m : Machine} (held : s.stack.holds source = true)
      (hp : s.interpreter.prepare? source = some (code, i))
      (he : Evaluates i.limits code i.machine e m) (rest : List Request) :
      GoesThrough s (.run source :: rest) m
  | afterRun {s : Session} {source : String} {rest : List Request} {m : Machine}
      (h : GoesThrough (s.run source).1 rest m) : GoesThrough s (.run source :: rest) m
  | afterReset {s : Session} {rest : List Request} {m : Machine} (h : GoesThrough s.reset rest m) :
      GoesThrough s (.reset :: rest) m

end Session

variable {declared : List Declaration} {s : Session} {source : String} {code : List (Stmt Nat)}
  {requests : List Request} {i : Interpreter} {m : Machine} {e : Expr Nat}

/-! ## One unit -/

/-- A unit begins with what the session has, and with addresses for its own references. -/
theorem Interpreter.prepared_machine {j : Interpreter} (hp : i.prepare? source = some (code, j)) :
    ∃ table, j.machine = { i.machine with table := table } := by
  simp only [prepare?, Option.ite_none_right_eq_some, Option.some.injEq, Prod.mk.injEq] at hp
  obtain ⟨-, -, rfl⟩ := hp
  exact ⟨_, rfl⟩

theorem Level.Stemming.statements {level : Level} (h : level.Stemming declared)
    (hc : Stmt.allClasses code ⊆ declared) : (Run.statements level code).Stems declared := by
  induction code with
  | nil => exact (Run.plain_stems declared).result _
  | cons s rest ih =>
    have first : s.classes ⊆ declared := List.Subset.trans (List.subset_append_left _ _) hc
    have others : Stmt.allClasses rest ⊆ declared := List.Subset.trans (List.subset_append_right _ _) hc
    exact (h.stmt s first).bind fun _ => ih others

namespace Session

theorem unit?_eq (held : s.stack.holds source = true) (hp : s.interpreter.prepare? source = some (code, i)) :
    s.unit? source = some code := by
  rw [unit?, if_pos held, hp]
  rfl

namespace GoesThrough

/-- The last state is the one in which the session is left. -/
theorem ends (s : Session) (requests : List Request) :
    s.GoesThrough requests (s.answerAll requests).1.interpreter.machine := by
  induction requests generalizing s with
  | nil => exact .rests s []
  | cons request rest ih =>
    cases request with
    | run source =>
      rw [answerAll_run]
      exact .afterRun (ih _)
    | reset => exact .afterReset (ih _)

theorem founded (g : s.GoesThrough requests m) (h : s.Reachable) : m.Founded := by
  induction g with
  | rests s requests =>
    obtain ⟨t, alongside⟩ := Agreement.exists_alongside h
    obtain ⟨⟨home, resting⟩, -⟩ := alongside.beside
    exact resting.founded
  | evaluates held hp he rest =>
    obtain ⟨t, alongside⟩ := Agreement.exists_alongside h
    obtain ⟨home, accepted⟩ := (Agreement.Prepared.of_prepare? hp).accepted alongside.beside
    obtain ⟨q, pending, rfl, hq, -⟩ := accepted.resting.evaluates accepted.fits he
    exact hq.founded
  | afterRun _ ih => exact ih (h.run _)
  | afterReset _ ih => exact ih h.reset

end GoesThrough

end Session

end Lox
