import Lox.Proofs.Agreement.Execution
import Lox.Proofs.Watching

/-! # Programs are in step

What a run may do on one side, with the other side beside it, it may do wherever it is in
step. So a watch for anything else is never set off. -/

namespace Lox

namespace Agreement

open Lexical (Location Env Store)

variable {origin : Scopes} {p q : Joint origin} {below : Level} {lower : Lexical.Level Nat}

/-- What code may do where it is allowed to run. -/
inductive Joint.AllowsDeed (p : Joint origin) : Deed → Prop
  | evaluate {pending : Option String} {e : Expr Nat} (allowed : p.AllowsExpr pending e) :
    p.AllowsDeed (.evaluate e)
  | enter {c : Closure} {env : Env} {arguments : List Value} (callable : p.Callable c env)
    (valid : ∀ v ∈ arguments, p.Valid v) (count : arguments.length = c.arity) :
    p.AllowsDeed (.enter c arguments)

/-- Levels are in step if the watch is for nothing that is allowed. -/
theorem inStep_level {w : Watch}
    (never : ∀ (p : Joint origin) d, Sim p → p.AllowsDeed d → ¬ w.stops d p.machine) (rounds n : Nat) :
    InStep origin (w.level rounds n) (.ofDepth rounds n) := by
  induction n with
  | zero => exact ⟨fun _ h _ => .throw h trivial, fun _ h _ => .throw h trivial⟩
  | succ n ih =>
    have enters : EntersInStep origin (w.entering (w.level rounds n)) (.ofDepth rounds n) :=
      fun h hc hv hn => (ih.enter h hc hv hn).left (Watch.before_passed (never _ _ h (.enter hc hv hn)))
    refine ⟨fun {p pending} e h ha => ?_, fun s h ha => ih.execute rounds s h ha⟩
    exact (ih.evaluateBy enters e h ha).left (Watch.level_expr_passed (never p _ h (.evaluate ha)))

/-- Nothing runs: only global names are in force. -/
structure Resting (p : Joint origin) : Prop extends Sim p where
  current : p.machine.current = Machine.globals
  env : p.state.env = []

theorem Resting.standing (h : Resting p) : p.Standing none where
  chain := by rw [h.env]; exact h.current
  settled := by rw [h.env]; trivial
  owned x hx := by
    rw [h.current] at hx
    exact absurd rfl (h.locals.placed _ x hx).1
  plain names hn := by rw [h.env] at hn; cases hn

theorem Resting.allows (h : Resting p) {code : List (Stmt Nat)}
    (fits : ∀ hops, p.Knows hops → Stmt.AllFit hops [] code) : p.AllowsAllStmts code where
  standing := h.standing
  fits hops hk := by rw [h.env]; exact fits hops hk
  self keyword hk := by
    have inForce := Stmt.AllFit.this_inForce code [] (fits _ fun _ _ => rfl) hk
    cases inForce

theorem InStep.statements (hl : InStep origin below lower) (code : List (Stmt Nat)) :
    ∀ {p : Joint origin}, Sim p → p.AllowsAllStmts code →
      Agree p (Run.statements below code) (Lexical.Run.statements lower code)
        (fun _ _ _ => True) := by
  induction code with
  | nil =>
    intro p h _
    exact .pure h trivial
  | cons s rest ih =>
    intro p h ha
    have first : p.AllowsStmt s := ha.part (fun _ _ hf => hf.1) (List.subset_append_left _ _)
    refine (hl.stmt s h first).bind ?_
    rintro _ _ q hq ⟨-, -, k⟩
    exact ih k.sim (ha.rest k)

/-- A program ends on both sides in the same way, and after it nothing runs. -/
theorem InStep.program (hl : InStep origin below lower) (h : Resting p) {code : List (Stmt Nat)}
    (fits : ∀ hops, p.Knows hops → Stmt.AllFit hops [] code) :
    ∃ q, Resting q ∧ Grows p q ∧
      ((Run.program below code p.machine = .ok () q.machine ∧
          Lexical.Run.program lower code p.state = .ok () q.state) ∨
        ∃ e : Fault, e.Foreseen ∧ Run.program below code p.machine = .error e q.machine ∧
          Lexical.Run.program lower code p.state = .error e q.state) := by
  obtain ⟨q, hq, result⟩ := hl.statements code h.toSim (h.allows fits)
  have made : (q.scopes.get? Machine.globals).isSome := by
    rw [hq.sim.locals.outermost]
    rfl
  have grows : Grows p (q.moved Machine.globals []) :=
    { hq.grows with
      toKeeps := hq.grows.toKeeps.trans (.moved q _ _)
      current := h.current.symm }
  refine ⟨q.moved Machine.globals [], ⟨hq.sim.moved made [], rfl, rfl⟩, grows, ?_⟩
  rcases result with ⟨⟨⟩, ⟨⟩, hx, hy, -⟩ | ⟨e, hx, hy, he⟩
  · exact .inl ⟨Run.ensuring_ok hx, Lexical.Run.ensuring_ok hy⟩
  · exact .inr ⟨e, he, Run.ensuring_error hx, Lexical.Run.ensuring_error hy⟩

theorem inStep_ofDepth (rounds n : Nat) :
    InStep origin (.ofDepth rounds n) (Lexical.Level.ofDepth rounds n) := by
  rw [← Watch.level_idle]
  exact inStep_level (fun _ _ _ _ => Watch.not_idle_stops) rounds n

theorem inStep_ofLimits (limits : Limits) :
    InStep origin (.ofLimits limits) (Lexical.Level.ofLimits limits) :=
  inStep_ofDepth limits.rounds limits.depth

/-- The same pair, compared with what it is now. -/
def Joint.since (p : Joint origin) : Joint p.scopes := ⟨p.home, p.known, p.machine, p.state⟩

theorem Keeps.since (p : Joint origin) : Keeps p p.since := { Grows.refl p with }

theorem Resting.since (h : Resting p) : Resting p.since where
  toSim := h.toSim.still (.since p) h.shared .same h.here rfl rfl rfl rfl rfl rfl
  current := h.current
  env := h.env

/-- No program comes to an object that was never made. -/
theorem InStep.not_dangling (hl : InStep p.scopes below lower) (h : Resting p) {code : List (Stmt Nat)}
    (fits : ∀ hops, p.Knows hops → Stmt.AllFit hops [] code) {after : Machine} :
    Run.program below code p.machine ≠ .error .dangling after := by
  intro hr
  have hr : Run.program below code p.since.machine = .error .dangling after := hr
  obtain ⟨q, -, -, ⟨hx, -⟩ | ⟨fault, hf, hx, -⟩⟩ := hl.program h.since fits
  · rw [hr] at hx
    cases hx
  · rw [hr] at hx
    cases hx
    exact hf.elim

/-- Whatever a run comes to do is allowed there. -/
theorem Resting.allowed (h : Resting p) {code : List (Stmt Nat)}
    (fits : ∀ hops, p.Knows hops → Stmt.AllFit hops [] code) {limits : Limits} {d : Deed}
    {m : Machine} (hd : ComesTo limits code p.machine d m) :
    ∃ q : Joint p.scopes, q.machine = m ∧ Sim q ∧ q.AllowsDeed d := by
  by_cases found : ∃ q : Joint p.scopes, q.machine = m ∧ Sim q ∧ q.AllowsDeed d
  · exact found
  · -- a watch that is not set off lets no fault through but those of the program
    have never (q : Joint p.scopes) (x : Deed) (hq : Sim q) (hx : q.AllowsDeed x) :
        ¬ (Watch.only d m .dangling).stops x q.machine := by
      intro stops
      obtain ⟨rfl, hm⟩ := Watch.of_stops.mp stops
      exact found ⟨q, hm, hq, hx⟩
    obtain ⟨after, hr⟩ := hd .dangling
    exact ((inStep_level never limits.rounds limits.depth).not_dangling h fits hr).elim

theorem Resting.evaluates (h : Resting p) {code : List (Stmt Nat)}
    (fits : ∀ hops, p.Knows hops → Stmt.AllFit hops [] code) {limits : Limits} {e : Expr Nat}
    {m : Machine} (he : Evaluates limits code p.machine e m) :
    ∃ (q : Joint p.scopes) (pending : Option String),
      q.machine = m ∧ Sim q ∧ q.AllowsExpr pending e := by
  obtain ⟨q, hm, hq, ⟨allowed⟩⟩ := h.allowed fits he
  exact ⟨q, _, hm, hq, allowed⟩

end Agreement

end Lox
