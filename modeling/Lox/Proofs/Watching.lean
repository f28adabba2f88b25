import Lox.Machine.Execute

/-! # Watching a run

To speak of what is done in the course of a run, the run is stopped there: behind a watch a
fault of our choice is raised instead of evaluating an expression, or of entering a routine,
in a state that is watched for. The fault comes out if and only if the run gets there. -/

namespace Lox

/-- What a run comes to do. -/
inductive Deed where
  | evaluate (e : Expr Nat)
  | enter (c : Closure) (arguments : List Value)

/-- What is watched for, and the fault that it sets off. -/
structure Watch where
  stops : Deed → Machine → Bool
  stop : Fault

namespace Watch

/-- A watch for nothing. -/
def idle : Watch := ⟨fun _ _ => false, .dangling⟩

open Classical in
/-- A watch that is set for what has the given property. -/
noncomputable def of (P : Deed → Machine → Prop) (stop : Fault) : Watch := ⟨fun d m => P d m, stop⟩

/-- A watch for a single deed in a single state. -/
noncomputable def only (d : Deed) (m : Machine) : Fault → Watch := of fun x y => x = d ∧ y = m

open Classical in
theorem of_stops {P : Deed → Machine → Prop} {stop : Fault} {d : Deed} {m : Machine} :
    (of P stop).stops d m ↔ P d m := decide_eq_true_iff

theorem not_idle_stops {d : Deed} {m : Machine} : ¬ idle.stops d m := Bool.false_ne_true

variable {α : Type} (w : Watch)

/-- Stops in front of a deed that is watched for. -/
def before (d : Deed) (act : Run α) : Run α := do
  if w.stops d (← get) then throw w.stop else act

/-- The way into a routine. -/
def entering (below : Level) (c : Closure) (arguments : List Value) : Run Value :=
  w.before (.enter c arguments) (below.enter c arguments)

/-- The level with the given number of levels below it. -/
def level (rounds : Nat) : Nat → Level
  | 0 => ⟨fun _ => throw .tooDeep, fun _ => throw .tooDeep⟩
  | n + 1 => ⟨fun s => (level rounds n).execute rounds s,
      fun e => w.before (.evaluate e) ((level rounds n).evaluateBy (w.entering (level rounds n)) e)⟩

variable {w} {d : Deed} {act : Run α} {m : Machine} {e : Expr Nat} {rounds n : Nat}

theorem before_stopped (h : w.stops d m) : w.before d act m = .error w.stop m := by
  change (if w.stops d m then throw w.stop else act) m = _
  rw [if_pos h]
  rfl

theorem before_passed (h : ¬ w.stops d m) : w.before d act m = act m := by
  change (if w.stops d m then throw w.stop else act) m = _
  rw [if_neg h]

theorem before_idle (d : Deed) (act : Run α) : idle.before d act = act :=
  funext fun _ => before_passed not_idle_stops

theorem level_expr_stopped (h : w.stops (.evaluate e) m) :
    (w.level rounds (n + 1)).expr e m = .error w.stop m := before_stopped h

theorem level_expr_passed (h : ¬ w.stops (.evaluate e) m) : (w.level rounds (n + 1)).expr e m =
    (w.level rounds n).evaluateBy (w.entering (w.level rounds n)) e m := before_passed h

theorem entering_idle (below : Level) : idle.entering below = below.enter := by
  funext c arguments
  exact before_idle _ _

/-- Watching for nothing changes nothing. -/
theorem level_idle (rounds n : Nat) : idle.level rounds n = .ofDepth rounds n := by
  induction n with
  | zero => rfl
  | succ n ih =>
    rw [level, Level.ofDepth, ih, entering_idle]
    simp only [before_idle]
    rfl

end Watch

/-- The run of a program from the given machine comes to do something in a given state: a
watch for that finds it, whichever fault it raises. -/
def ComesTo (limits : Limits) (code : List (Stmt Nat)) (m : Machine) (d : Deed) (m' : Machine) : Prop :=
  ∀ stop, ∃ after, Run.program ((Watch.only d m' stop).level limits.rounds limits.depth) code m =
    .error stop after

/-- The run comes to evaluate an expression. -/
def Evaluates (limits : Limits) (code : List (Stmt Nat)) (m : Machine) (e : Expr Nat) : Machine → Prop :=
  ComesTo limits code m (.evaluate e)

/-- The run comes to enter a routine with the given arguments. -/
def Enters (limits : Limits) (code : List (Stmt Nat)) (m : Machine) (c : Closure) (arguments : List Value) :
    Machine → Prop := ComesTo limits code m (.enter c arguments)

end Lox
