import Lox.Proofs.Distances.Sites
import Lox.Proofs.Globals.Declaring
import Lox.Proofs.Joining.Runs
import Lox.Proofs.Outcomes.Programs
import Lox.Proofs.Soundness

/-! # No name is global but by a declaration

The global names after a program, and at every evaluation in the course of it, are those
that there were before and those of its own declarations that have been executed. Their
values change by these declarations and by assignments to names without an address. -/

namespace Lox

/-- The global names and values that there can be in the course of a program. -/
inductive GlobalCourse (limits : Limits) (code : List (Stmt Nat)) (start : Machine) :
    Bindings Value → Prop
  | start : GlobalCourse limits code start start.globalBindings
  /-- The program has come to an assignment whose target has no address, and has evaluated the value. -/
  | assigned {target : Reference Nat} {value : Expr Nat} {a b : Machine} {n : Nat} {v : Value}
      (h : GlobalCourse limits code start b.globalBindings)
      (moment : Evaluates limits code start (.assign target value) a) (depth : n < limits.depth)
      (given : (Level.ofDepth limits.rounds n).expr value a = .ok v b)
      (free : b.table.hops? target.mark = none) (bound : target.name.lexeme ∈ b.globalBindings.names) :
      GlobalCourse limits code start (b.globalBindings.set target.name.lexeme v)
  /-- A declaration among the statements of the program has been executed. -/
  | declared {before rest : List (Stmt Nat)} {s : Stmt Nat} {x : String} {a b : Machine}
      {outcome : Outcome} {g : Bindings Value} {v : Value} (h : GlobalCourse limits code start g)
      (split : code = before ++ s :: rest) (named : s.declared? = some x)
      (reached : Run.statements (.ofLimits limits) before start = .ok () a)
      (executed : (Level.ofLimits limits).stmt s a = .ok outcome b)
      (bound : b.globalBindings = g.set x v) : GlobalCourse limits code start b.globalBindings

/-- The globals when these statements of a program have been executed, and no declaration
behind them. -/
structure GlobalsAfter (limits : Limits) (code : List (Stmt Nat)) (start : Machine)
    (done : List (Stmt Nat)) (b : Bindings Value) : Prop where
  reached : ∃ a, Run.statements (.ofLimits limits) done start = .ok () a
  names : ∀ x, x ∈ b.names ↔ x ∈ start.globalBindings.names ∨ x ∈ Stmt.declaredIn done
  values : GlobalCourse limits code start b

theorem Stmt.declaredIn_concat (done : List (Stmt Nat)) (s : Stmt Nat) :
    declaredIn (done ++ [s]) = declaredIn done ++ s.declared?.toList := by
  rw [declaredIn, declaredIn, List.filterMap_append, List.filterMap_cons, List.filterMap_nil]
  cases s.declared? <;> rfl

/-! ## One statement after the other -/

section Stages

variable {limits : Limits} {code done rest : List (Stmt Nat)} {start a : Machine} {w : Watch}
  {T : Token → Prop} {s : Stmt Nat}

/-- The machine between two statements of a program that runs behind a watch. -/
structure Stage (limits : Limits) (code : List (Stmt Nat)) (start : Machine) (w : Watch)
    (done : List (Stmt Nat)) (a : Machine) : Prop where
  reached : Run.statements (w.level limits.rounds limits.depth) done start = .ok () a
  home : a.current = Machine.globals
  made : (a.scopes.get? Machine.globals).isSome
  globals : GlobalsAfter limits code start done a.globalBindings

theorem Stage.ready (h : Stage limits code start w done a) : a.Ready (GlobalCourse limits code start) :=
  ⟨h.made, h.globals.values⟩

theorem Stage.begin (limits : Limits) (code : List (Stmt Nat)) (w : Watch)
    (home : start.current = Machine.globals) (made : (start.scopes.get? Machine.globals).isSome) :
    Stage limits code start w [] start :=
  ⟨rfl, home, made, ⟨_, rfl⟩, fun x => by simp [Stmt.declaredIn], .start⟩

variable (guards : w.Guards (GlobalCourse limits code start) limits)
include guards

theorem Stage.step (h : Stage limits code start w done a) (split : code = done ++ s :: rest)
    (formed : s.WellFormed T) {outcome : Outcome} {b : Machine}
    (hs : (w.level limits.rounds limits.depth).stmt s a = .ok outcome b) :
    Stage limits code start w (done ++ [s]) b := by
  have reached : Run.statements (w.level limits.rounds limits.depth) (done ++ [s]) start = .ok () b := by
    rw [Run.statements_append, Run.bind_ok h.reached, Run.statements_cons, hs]
    rfl
  have through := Watch.statements_of_ok reached
  cases named : s.declared? with
  | none =>
    have spared := (Level.sparing_level guards (Nat.le_refl _)).plain formed named a h.ready False.elim
    rw [Run.after_ok hs] at spared
    refine ⟨reached, spared.current.trans h.home, spared.made, ⟨_, through⟩, fun y => ?_, spared.values⟩
    rw [spared.names, h.globals.names, Stmt.declaredIn_concat, named, Option.toList_none, List.append_nil]
  | some x =>
    obtain ⟨current, made, g, v, names, values, bound⟩ :=
      (Level.declares_level guards (Nat.le_refl _) named a h.ready h.home).1 outcome b hs
    refine ⟨reached, current.trans h.home, made, ⟨_, through⟩, fun y => ?_,
      .declared values split named (Watch.statements_of_ok h.reached) (Watch.stmt_of_ok hs) bound⟩
    rw [bound, Bindings.mem_names_set, names, h.globals.names, Stmt.declaredIn_concat, named,
      Option.toList_some, List.mem_append, List.mem_singleton, or_assoc]

/-- A fault leaves the names that there were before the statement. -/
theorem Stage.stopped (h : Stage limits code start w done a) (formed : s.WellFormed T) {fault : Fault}
    {b : Machine} (hs : (w.level limits.rounds limits.depth).stmt s a = .error fault b) :
    GlobalsAfter limits code start done b.globalBindings := by
  have spared : a.Spared (GlobalCourse limits code start) b := by
    cases named : s.declared? with
    | none =>
      have spared := (Level.sparing_level guards (Nat.le_refl _)).plain formed named a h.ready False.elim
      rwa [Run.after_error hs] at spared
    | some x =>
      exact (Level.declares_level guards (Nat.le_refl _) named a h.ready h.home).2 fault b hs
  exact ⟨h.globals.reached, fun y => by rw [spared.names, h.globals.names], spared.values⟩

/-- From one stage of a program to a later one. -/
theorem Stage.further (formed : ∀ s ∈ code, s.WellFormed T) (more rest : List (Stmt Nat)) {b : Machine}
    (h : Stage limits code start w done a) (split : code = done ++ (more ++ rest))
    (hm : Run.statements (w.level limits.rounds limits.depth) more a = .ok () b) :
    Stage limits code start w (done ++ more) b := by
  induction more generalizing done a with
  | nil =>
    cases hm
    rwa [List.append_nil]
  | cons s more ih =>
    rw [Run.statements_cons] at hm
    cases hs : (w.level limits.rounds limits.depth).stmt s a with
    | error fault c =>
      rw [hs] at hm
      cases hm
    | ok outcome c =>
      rw [hs] at hm
      have member : s ∈ code := by rw [split]; simp
      have next := h.step guards split (formed s member) hs
      have last := ih next (by rw [split]; simp) hm
      rwa [List.append_assoc] at last

/-- Where a program stops behind a watch, the names are those of the statements before. -/
theorem stopped_after (home : start.current = Machine.globals)
    (made : (start.scopes.get? Machine.globals).isSome) (formed : ∀ s ∈ code, s.WellFormed T)
    {fault : Fault} {b : Machine}
    (h : Run.statements (w.level limits.rounds limits.depth) code start = .error fault b) :
    ∃ done s rest a, code = done ++ s :: rest ∧ Stage limits code start w done a ∧
      (w.level limits.rounds limits.depth).stmt s a = .error fault b ∧
      GlobalsAfter limits code start done b.globalBindings := by
  obtain ⟨done, s, rest, a, split, reached, hs, -⟩ := Run.statements_stops h
  have stage : Stage limits code start w done a :=
    (Stage.begin limits code w home made).further guards formed done (s :: rest) split reached
  have member : s ∈ code := by rw [split]; simp
  exact ⟨done, s, rest, a, split, stage, hs, stage.stopped guards (formed s member) hs⟩

end Stages

/-! ## Programs -/

section Programs

variable {limits : Limits} {code : List (Stmt Nat)} {start b : Machine} {T : Token → Prop}
  (spares : ∀ e m, Evaluates limits code start e m → e.WritesLocal m)
  (home : start.current = Machine.globals) (made : (start.scopes.get? Machine.globals).isSome)
  (formed : ∀ s ∈ code, s.WellFormed T)
include spares

/-- A watch that is set for whatever the program does not come to. -/
theorem guards_of_evaluates {w : Watch}
    (h : ∀ e m, ¬ w.stops (.evaluate e) m → Evaluates limits code start e m) :
    w.Guards (GlobalCourse limits code start) limits where
  writesLocal hw := spares _ _ (h _ _ hw)
  assigned hw hn given free bound values := .assigned values (h _ _ hw) hn given free bound

include home made formed

theorem globals_of_completed (h : Run.statements (.ofLimits limits) code start = .ok () b) :
    GlobalsAfter limits code start code b.globalBindings := by
  let w : Watch := .leaving limits code start .dangling
  have guards := guards_of_evaluates spares (w := w) fun _ _ => Watch.comesTo_of_not_leaving
  have watched := (Watch.statements_leaving limits code start .dangling).trans h
  exact ((Stage.begin limits code w home made).further guards formed code [] (by simp) watched).globals

theorem globals_of_stopped {fault : Fault}
    (h : Run.statements (.ofLimits limits) code start = .error fault b) :
    ∃ done s rest a, code = done ++ s :: rest ∧ Run.statements (.ofLimits limits) done start = .ok () a ∧
      (Level.ofLimits limits).stmt s a = .error fault b ∧
      GlobalsAfter limits code start done b.globalBindings := by
  obtain ⟨stop, other⟩ : ∃ stop, fault ≠ stop := by
    cases fault with
    | dangling => exact ⟨.tooDeep, fun same => by cases same⟩
    | _ => exact ⟨.dangling, fun same => by cases same⟩
  let w : Watch := .leaving limits code start stop
  have guards := guards_of_evaluates spares (w := w) fun _ _ => Watch.comesTo_of_not_leaving
  have watched := (Watch.statements_leaving limits code start stop).trans h
  obtain ⟨done, s, rest, a, split, stage, hs, after⟩ := stopped_after guards home made formed watched
  exact ⟨done, s, rest, a, split, Watch.statements_of_ok stage.reached, Watch.stmt_of_error hs other, after⟩

theorem globals_of_evaluates {e : Expr Nat} {m : Machine} (h : Evaluates limits code start e m) :
    ∃ done s rest, code = done ++ s :: rest ∧ GlobalsAfter limits code start done m.globalBindings := by
  let w : Watch := .of (fun d y => d = .evaluate e ∧ y = m ∨ ¬ ComesTo limits code start d y) .dangling
  have guards := guards_of_evaluates spares (w := w) fun x y hw =>
    Classical.not_not.mp fun missed => hw (Watch.of_stops.mpr (.inr missed))
  obtain ⟨d, y, c, visited, watched, error⟩ :=
    (Run.visits_statements limits code start).stopped w.stops h (Watch.of_stops.mpr (.inl ⟨rfl, rfl⟩))
  obtain ⟨rfl, rfl⟩ := (Watch.of_stops.mp watched).resolve_right fun missed => missed visited
  obtain ⟨done, s, rest, -, split, -, -, after⟩ := stopped_after guards home made formed (error .dangling)
  exact ⟨done, s, rest, split, after⟩

end Programs

/-! ## Sessions -/

namespace Agreement

variable {origin : Scopes} {p : Joint origin} {pending : Option String} {e : Expr Nat}

theorem Joint.AllowsExpr.writesLocal (h : Sim p) (ha : p.AllowsExpr pending e) :
    e.WritesLocal p.machine := by
  cases e with
  | assign target value => exact fun rounds n v after hm d hd => ha.assigns h hm hd
  | _ => trivial

/-- Where code may run, no evaluation adds a global name or takes one away. -/
theorem Joint.AllowsExpr.names_eq (h : Sim p) (ha : p.AllowsExpr pending e) (rounds n : Nat) :
    (((Level.ofDepth rounds n).expr e).after p.machine).globalBindings.names =
      p.machine.globalBindings.names := by
  let w : Watch := .of
    (fun d m => ¬ ∃ q : Joint origin, q.machine = m ∧ Sim q ∧ q.AllowsDeed d) .dangling
  have guards : w.Guards (fun _ => True) ⟨n, rounds⟩ := by
    refine ⟨fun hw => ?_, fun _ _ _ _ _ _ => trivial⟩
    obtain ⟨q, rfl, hq, ⟨allowed⟩⟩ := Classical.not_not.mp fun missed => hw (Watch.of_stops.mpr missed)
    exact allowed.writesLocal hq
  have made : (p.machine.scopes.get? Machine.globals).isSome :=
    congrArg Option.isSome h.locals.outermost
  have level : (w.level rounds n).Sparing (fun _ => True) fun _ => True :=
    Level.sparing_level guards (Nat.le_refl _)
  have spared := level.expr e p.machine ⟨made, trivial⟩ False.elim
  have never (q : Joint origin) (d : Deed) (hq : Sim q) (hd : q.AllowsDeed d) : ¬ w.stops d q.machine :=
    fun stops => Watch.of_stops.mp stops ⟨q, rfl, hq, hd⟩
  have inStep : InStep origin (w.level rounds n) (.ofDepth rounds n) := inStep_level never rounds n
  obtain ⟨q, -, ⟨a, b, hx, -, -⟩ | ⟨fault, hx, -, foreseen⟩⟩ := inStep.expr e h ha
  · rw [Run.after_ok hx] at spared
    rw [Run.after_ok (Watch.expr_of_ok hx), spared.names]
  · have other : fault ≠ .dangling := by
      rintro rfl
      exact foreseen
    rw [Run.after_error hx] at spared
    rw [Run.after_error (Watch.expr_of_error hx other), spared.names]

end Agreement

/-- What an accepted unit does to the global names of a session. -/
structure Session.SparesGlobals (s : Session) (source : String) (code : List (Stmt Nat))
    (i : Interpreter) : Prop where
  /-- the unit begins with the global names and values of the session -/
  start : i.machine.globalBindings = s.interpreter.machine.globalBindings
  /-- and leaves them alone if the stack does not hold it. Else it ends with the names that all
  its declarations add, -/
  dropped : s.stack.holds source = false →
    (s.run source).1.interpreter.machine.globalBindings = s.interpreter.machine.globalBindings
  completed : s.stack.holds source = true → (i.execute code).2 = none →
    GlobalsAfter i.limits code i.machine code (s.run source).1.interpreter.machine.globalBindings
  /-- or, if a fault cuts it short, with those that the declarations before that add. -/
  cut : s.stack.holds source = true → ∀ fault, (i.execute code).2 = some fault → ∃ done stmt rest a b,
    code = done ++ stmt :: rest ∧ Run.statements (.ofLimits i.limits) done i.machine = .ok () a ∧
      (Level.ofLimits i.limits).stmt stmt a = .error fault b ∧
      GlobalsAfter i.limits code i.machine done (s.run source).1.interpreter.machine.globalBindings
  /-- It is the same wherever something is evaluated in the course of the unit, -/
  moments : ∀ e m, Evaluates i.limits code i.machine e m → ∃ done stmt rest,
    code = done ++ stmt :: rest ∧ GlobalsAfter i.limits code i.machine done m.globalBindings
  /-- what is evaluated adds no name and takes none away, however that ends, -/
  evaluations : ∀ e m, Evaluates i.limits code i.machine e m → ∀ rounds n,
    (((Level.ofDepth rounds n).expr e).after m).globalBindings.names = m.globalBindings.names
  /-- and an assignment that goes by an address does not write to the globals. -/
  addresses : ∀ e m, Evaluates i.limits code i.machine e m → e.WritesLocal m
  /-- A global name that is not there stops the assignment when the value has been evaluated. -/
  unknown : ∀ target value m rounds n v m', (Level.ofDepth rounds n).expr value m = .ok v m' →
    m'.table.hops? target.mark = none → target.name.lexeme ∉ m'.globalBindings.names →
    ∃ error : RuntimeError, error.token = target.name ∧
      error.message = "Undefined variable '" ++ target.name.lexeme ++ "'." ∧
      (Level.ofDepth rounds (n + 1)).expr (.assign target value) m = .error (.runtime error) m'

open Agreement

/-- No name becomes global but by an executed declaration of the unit itself. -/
theorem Session.no_implicit_globals {s : Session} (h : s.Reachable) {source : String}
    {code : List (Stmt Nat)} {i : Interpreter} (hp : s.interpreter.prepare? source = some (code, i)) :
    s.SparesGlobals source code i := by
  obtain ⟨t, alongside⟩ := exists_alongside h
  have prepared := Prepared.of_prepare? hp
  obtain ⟨home, accepted⟩ := prepared.accepted alongside.beside
  have allowed : ∀ e m, Evaluates i.limits code i.machine e m → ∃ (q : Joint i.machine.scopes)
      (pending : Option String), q.machine = m ∧ Sim q ∧ q.AllowsExpr pending e :=
    fun e m he => accepted.resting.evaluates accepted.fits he
  have addresses : ∀ e m, Evaluates i.limits code i.machine e m → e.WritesLocal m := by
    intro e m he
    obtain ⟨q, pending, rfl, hq, ha⟩ := allowed e m he
    exact ha.writesLocal hq
  have outermost : i.machine.current = Machine.globals := accepted.resting.current
  have made : (i.machine.scopes.get? Machine.globals).isSome :=
    congrArg Option.isSome accepted.resting.locals.outermost
  have formed : ∀ stmt ∈ code, stmt.WellFormed Token.Spelled := by
    rw [prepared.numbered, ← Stmt.allWellFormed_iff]
    exact Stmt.numberAll_wellFormed _ _ prepared.formed
  have fatal := alongside.reporter.fatal.1
  exact {
    start := congrArg (Scopes.bindings · _) prepared.scopes
    dropped := fun dropped => by rw [(run_dropped fatal dropped).1]
    completed := fun held completed => by
      obtain ⟨r, -, after, -⟩ := run_accepted fatal held hp
      cases result : Run.statements (.ofLimits i.limits) code i.machine with
      | ok _ last =>
        have globals := globals_of_completed addresses outermost made formed result
        rw [after, Interpreter.execute_of_ok result]
        exact globals
      | error fault last =>
        rw [Interpreter.execute_of_error result] at completed
        cases completed
    cut := fun held fault cut => by
      obtain ⟨r, -, after, -⟩ := run_accepted fatal held hp
      cases result : Run.statements (.ofLimits i.limits) code i.machine with
      | ok _ last =>
        rw [Interpreter.execute_of_ok result] at cut
        cases cut
      | error fault last =>
        rw [Interpreter.execute_of_error result] at cut
        cases cut
        rw [after, Interpreter.execute_of_error result]
        obtain ⟨done, stmt, rest, a, split, reached, stopped, names⟩ :=
          globals_of_stopped addresses outermost made formed result
        exact ⟨done, stmt, rest, a, last, split, reached, stopped, names⟩
    moments := fun e m he => globals_of_evaluates addresses outermost made formed he
    evaluations := fun e m he rounds n => by
      obtain ⟨q, pending, rfl, hq, ha⟩ := allowed e m he
      exact ha.names_eq hq rounds n
    addresses := addresses
    unknown := fun target value m rounds n v m' given free unbound =>
      ⟨⟨target.name, .undefinedVariable⟩, rfl, rfl,
        (Run.bind_ok given).trans (Run.bind_error (Run.store_unknown free unbound))⟩ }

/-- A unit whose function gives a value to a global name that is there, and then to one that
is not. -/
theorem Session.no_implicit_globals_function : ∃ code i,
    (Session.startOn (.ofLimits ⟨8, 8⟩) "lox" false false fun _ => 0).Reachable ∧
    (Session.startOn (.ofLimits ⟨8, 8⟩) "lox" false false fun _ => 0).interpreter.prepare?
      "var a; fun f() \x7b a = 1; b = 2; \x7d f();" = some (code, i) ∧
    (Session.startOn (.ofLimits ⟨8, 8⟩) "lox" false false fun _ => 0).SparesGlobals
      "var a; fun f() \x7b a = 1; b = 2; \x7d f();" code i := by
  have prepared : ((Session.startOn (.ofLimits ⟨8, 8⟩) "lox" false false fun _ => 0).interpreter.prepare?
      "var a; fun f() \x7b a = 1; b = 2; \x7d f();").isSome = true := by
    decide +kernel
  obtain ⟨⟨code, i⟩, hp⟩ := Option.isSome_iff_exists.mp prepared
  exact ⟨code, i, .start _ _ _ _ _, hp, no_implicit_globals (.start _ _ _ _ _) hp⟩

end Lox
