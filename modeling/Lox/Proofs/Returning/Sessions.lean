import Lox.Proofs.Returning.Leaving
import Lox.Proofs.Returning.Running
import Lox.Proofs.SessionAgreement

/-! # Units without their dead code

A unit from which code behind a return has been taken away is accepted if the unit was,
and does all that the unit does, to what comes later as well. Both are compared with
sessions that run by what is in scope, of which the states have the same live parts. -/

namespace Lox

/-- Each statement of a program has the live part that it had without numbers. -/
theorem Stmt.numberAll_map_live (program : List (Stmt Unit)) (n : Nat) :
    (Stmt.numberAll program n).1.map Stmt.live = program.map Stmt.live := by
  induction program generalizing n with
  | nil => rfl
  | cons s rest ih => exact congrArg₂ List.cons (s.number_live n) (ih _)

/-- An accepted program deserves no report. -/
theorem errors_nil_iff {T : Token → Prop} {program : List (Stmt Unit)}
    (formed : Stmt.AllWellFormed T program) (n : Nat) :
    (resolve (Stmt.numberAll program n).1).errors = [] ↔ Stmt.reports program = [] := by
  rw [← resolve_reports formed n, List.map_eq_nil_iff]

/-- A program that deserves no report keeps the live part of each of its statements when it
sheds code: it has no return of its own. -/
theorem Stmt.Sheds.map_live {program program' : List (Stmt Unit)} (h : Stmt.Sheds program program')
    (hr : Stmt.reports program = []) : program'.map Stmt.live = program.map Stmt.live := by
  have stays := Stmt.stays_of_reports hr
  have stays' := Stmt.stays_of_reports (h.reports_nil hr)
  have same := h.liveRow_eq
  rwa [Stmt.liveRow_eq_map fun s hs => (stays s hs).isReturn,
    Stmt.liveRow_eq_map fun s hs => (stays' s hs).isReturn] at same

namespace Lexical.Session

variable {t u : Session}

/-- Sessions that nothing tells apart but code that is not live. -/
structure SameLive (t u : Session) : Prop where
  reporter : u.reporter = t.reporter
  limits : u.limits = t.limits
  stack : u.stack = t.stack
  state : u.state.live = t.state.live

theorem SameLive.refl (t : Session) : SameLive t t := ⟨rfl, rfl, rfl, rfl⟩

namespace SameLive

theorem reset (h : SameLive t u) : SameLive t.reset u.reset :=
  ⟨congrArg Reporter.reset h.reporter, h.limits, h.stack, h.state⟩

theorem report (h : SameLive t u) (ds : List Diagnostic) :
    SameLive (t.report ds).1 (u.report ds).1 ∧ (u.report ds).2 = (t.report ds).2 := by
  rw [Session.report, Session.report, h.reporter]
  exact ⟨⟨rfl, h.limits, h.stack, h.state⟩, rfl⟩

theorem finish (h : SameLive t u) (fault : Option Fault) :
    SameLive (t.finish fault).1 (u.finish fault).1 ∧ (u.finish fault).2 = (t.finish fault).2 := by
  rw [Session.finish, Session.finish, h.reporter]
  exact ⟨⟨rfl, h.limits, h.stack, h.state⟩, rfl⟩

/-- Programs with the same live statements and the same reports do the same. -/
theorem checkAndRun (h : SameLive t u) {T : Token → Prop} {program program' : List (Stmt Unit)}
    (formed : Stmt.AllWellFormed T program) (formed' : Stmt.AllWellFormed T program')
    (reports : Stmt.reports program' = Stmt.reports program)
    (live : program'.map Stmt.live = program.map Stmt.live) :
    SameLive (t.checkAndRun program).1 (u.checkAndRun program').1 ∧
      (u.checkAndRun program').2 = (t.checkAndRun program).2 := by
  have told := resolve_reports formed t.nextMark
  have told' := resolve_reports formed' u.nextMark
  have lives := Stmt.numberAll_map_live program t.nextMark
  have lives' := Stmt.numberAll_map_live program' u.nextMark
  rw [Session.checkAndRun, Session.checkAndRun]
  generalize Stmt.numberAll program t.nextMark = numbered at *
  generalize Stmt.numberAll program' u.nextMark = numbered' at *
  have diagnostics : (resolve numbered'.1).errors.map (·.diagnostic) =
      (resolve numbered.1).errors.map (·.diagnostic) := told'.trans (reports.trans told.symm)
  have clean : (resolve numbered'.1).errors.isEmpty = (resolve numbered.1).errors.isEmpty := by
    rw [← List.isEmpty_map, diagnostics, List.isEmpty_map]
  dsimp only
  rw [clean]
  split
  · have ran := (Level.live_ofDepth t.limits.rounds t.limits.depth).program numbered.1 t.state
    have ran' := (Level.live_ofDepth t.limits.rounds t.limits.depth).program numbered'.1 u.state
    rw [lives', live, ← lives, h.state, ran] at ran'
    rw [h.limits]
    change Run.liveResult id (Run.program (.ofLimits t.limits) numbered.1 t.state) =
      Run.liveResult id (Run.program (.ofLimits t.limits) numbered'.1 u.state) at ran'
    have next : ∀ s s' : State Nat, s'.live = s.live →
        SameLive ⟨t.reporter, t.limits, t.stack, s, numbered.2⟩
          ⟨u.reporter, t.limits, u.stack, s', numbered'.2⟩ :=
      fun _ _ state => ⟨h.reporter, rfl, h.stack, state⟩
    revert ran'
    cases Run.program (.ofLimits t.limits) numbered.1 t.state with
    | ok a s =>
      cases Run.program (.ofLimits t.limits) numbered'.1 u.state with
      | error e s' => intro ran'; cases ran'
      | ok a' s' =>
        intro ran'
        injection ran' with _ state
        exact (next s s' state.symm).finish none
    | error e s =>
      cases Run.program (.ofLimits t.limits) numbered'.1 u.state with
      | ok a' s' => intro ran'; cases ran'
      | error e' s' =>
        intro ran'
        injection ran' with fault state
        exact fault ▸ (next s s' state.symm).finish (some e)
  · rw [diagnostics]
    exact h.report _

theorem run (h : SameLive t u) (source : String) :
    SameLive (t.run source).1 (u.run source).1 ∧ (u.run source).2 = (t.run source).2 := by
  obtain ⟨reported, ending⟩ := h.report
    ((scan source).errors.map (·.diagnostic) ++ (parse (scan source).tokens).diagnostics)
  have formed := parse_wellFormed (scan_spelled source)
  rw [Session.run, Session.run, h.stack]
  cases t.stack.reads (scan source).bare with
  | false => exact ⟨h, rfl⟩
  | true => ?_
  dsimp only
  rw [if_pos rfl, if_pos rfl, ← Prod.eta (t.report _), ← Prod.eta (u.report _), ending]
  cases (t.report _).2 with
  | done =>
    dsimp only
    rw [reported.stack]
    split
    · split
      · exact reported.checkAndRun formed formed rfl rfl
      · exact ⟨reported, rfl⟩
    · exact ⟨reported, rfl⟩
  | _ => exact ⟨reported, rfl⟩

theorem answerAll (requests : List Request) : ∀ {t u : Session}, SameLive t u →
    SameLive (t.answerAll requests).1 (u.answerAll requests).1 ∧
      (u.answerAll requests).2 = (t.answerAll requests).2 := by
  induction requests with
  | nil => exact fun h => ⟨h, rfl⟩
  | cons r rest ih =>
    intro t u h
    cases r with
    | reset => exact ih h.reset
    | run source =>
      obtain ⟨first, ending⟩ := h.run source
      obtain ⟨last, endings⟩ := ih first
      simp only [Session.answerAll]
      exact ⟨last, by rw [ending, endings]⟩

end SameLive

/-- A source without errors of its own goes to the check. -/
theorem run_eq_checkAndRun {source : String} (held : t.stack.holds source = true)
    (hs : (scan source).errors = []) (hp : (parse (scan source).tokens).errors = []) :
    t.run source = t.checkAndRun (parse (scan source).tokens).statements := by
  have quiet : ((scan source).errors.isEmpty && (parse (scan source).tokens).errors.isEmpty) = true := by
    rw [hs, hp]
    rfl
  have silent : t.report [] = (t, .done) := rfl
  dsimp only [Session.run]
  rw [if_pos (Stack.reads_of_holds held), Parsed.diagnostics, hs, hp, List.map_nil, List.map_nil, List.append_nil,
    silent]
  exact if_pos (Stack.resolves_of_holds held quiet)

end Lexical.Session

/-! ## Sessions -/

/-- Two sessions in which everything is the same but the dead code of functions. Between the
reports there may be listings of internals, if such listings are wanted. -/
structure Session.SameLive (s s' : Session) : Prop where
  output : s'.interpreter.machine.output = s.interpreter.machine.output
  hadError : s'.reporter.hadError = s.reporter.hadError
  hadRuntimeError : s'.reporter.hadRuntimeError = s.reporter.hadRuntimeError
  reports : ∃ plain, Agreement.Carries s.verbose s.reporter.stream plain ∧
    Agreement.Carries s'.verbose s'.reporter.stream plain
  globals : s'.interpreter.machine.scopes.bindings Machine.globals =
    s.interpreter.machine.scopes.bindings Machine.globals
  functions : s'.interpreter.machine.functions.cells.map
      (fun c => (Routine.live c.routine, c.isInitializer)) =
    s.interpreter.machine.functions.cells.map fun c => (Routine.live c.routine, c.isInitializer)
  classes : s'.interpreter.machine.classes = s.interpreter.machine.classes
  instances : s'.interpreter.machine.instances = s.interpreter.machine.instances

namespace Agreement

variable {origin : Scopes} {s s' : Session} {t u : Lexical.Session}

theorem SameEffects.live_functions (h : SameEffects s t) :
    s.interpreter.machine.functions.cells.map (fun c => (Routine.live c.routine, c.isInitializer)) =
      t.state.live.functions.cells.map fun c => (c.routine, c.isInitializer) := by
  have live := congrArg (Array.map fun p : Routine (Stmt Nat) × Bool => (Routine.live p.1, p.2)) h.functions
  rw [Array.map_map, Array.map_map] at live
  have cells : t.state.live.functions.cells = t.state.functions.cells.map Lexical.Closure.live := rfl
  rw [cells, Array.map_map]
  exact live

/-- Sessions are the same, but for dead code, if those beside them are. -/
theorem Alongside.sameLive (h : Alongside origin s t) (h' : Alongside origin s' u)
    (same : Lexical.Session.SameLive t u) : s.SameLive s' := by
  have left := h.sameEffects
  have right := h'.sameEffects
  have state := same.state
  refine ⟨?_, ?_, ?_, ⟨t.reporter.stream, left.reports, ?_⟩, ?_, ?_, ?_, ?_⟩
  · rw [right.output, left.output]
    exact congrArg (fun x : Lexical.State Unit => x.output) state
  · rw [right.hadError, left.hadError, same.reporter]
  · rw [right.hadRuntimeError, left.hadRuntimeError, same.reporter]
  · rw [← same.reporter]
    exact right.reports
  · rw [right.globals, left.globals]
    exact congrArg (fun x : Lexical.State Unit => x.globals) state
  · rw [right.live_functions, left.live_functions, state]
  · rw [right.classes, left.classes]
    exact congrArg (fun x : Lexical.State Unit => x.classes) state
  · rw [right.instances, left.instances]
    exact congrArg (fun x : Lexical.State Unit => x.instances) state

end Agreement

open Agreement

/-- What a return does in an accepted unit. -/
structure Session.Returning (s : Session) (source : String) (code : List (Stmt Nat)) : Prop where
  /-- No statement of the unit itself returns, wherever it is run. -/
  completes : ∀ stmt ∈ code, ∀ rounds n, ((Level.ofDepth rounds n).stmt stmt).Completes
  /-- A return returns the value of its expression, and `nil` if it has none. -/
  value : ∀ (level : Level) rounds keyword e m v m', level.expr e m = .ok v m' →
    level.execute rounds (.leave keyword (some e)) m = .ok (.returned v) m'
  bare : ∀ (level : Level) rounds keyword m,
    level.execute rounds (.leave keyword none) m = .ok (.returned .nil) m
  /-- Behind a statement that returns nothing runs, -/
  row : ∀ (level : Level) row m v m', level.executeAll row m = .ok (.returned v) m' →
    ∀ rest, level.executeAll (row ++ rest) m = .ok (.returned v) m'
  /-- a block ends with the row that returns, back in the scope in which the block stands, -/
  block : ∀ (level : Level) rounds body m v m', level.executeAll body m.opened = .ok (.returned v) m' →
    level.execute rounds (.block body) m = .ok (.returned v) { m' with current := m.current }
  /-- a branch with the arm that returns, -/
  yes : ∀ (level : Level) rounds condition yes no m t m₁ v m₂, level.expr condition m = .ok t m₁ →
    t.isTruthy = true → level.stmt yes m₁ = .ok (.returned v) m₂ →
    level.execute rounds (.branch condition yes no) m = .ok (.returned v) m₂
  no : ∀ (level : Level) rounds condition yes no m t m₁ v m₂, level.expr condition m = .ok t m₁ →
    t.isTruthy = false → level.stmt no m₁ = .ok (.returned v) m₂ →
    level.execute rounds (.branch condition yes (some no)) m = .ok (.returned v) m₂
  /-- a loop with the body that returns, in whatever round that is, -/
  loop : ∀ (level : Level) condition body m m₁ t m₂ v m₃, level.Rounds condition body m m₁ →
    level.expr condition m₁ = .ok t m₂ → t.isTruthy = true → level.stmt body m₂ = .ok (.returned v) m₃ →
    ∃ k, ∀ rounds, k < rounds → level.execute rounds (.loop condition body) m = .ok (.returned v) m₃
  /-- and the caller gets the value, or `nil` if there is none, -/
  call : ∀ (level : Level) (f : Closure), f.isInitializer = false → ∀ arguments m outcome m',
    level.executeAll f.routine.body
      { m with
        scopes := m.scopes.add (.ofList ((f.routine.params.map (·.lexeme)).zip arguments)) (some f.scope)
        current := m.scopes.next } = .ok outcome m' →
    level.enter f arguments m = .ok outcome.value { m' with current := m.current }
  /-- which is the value of the expression that calls the function. -/
  answer : ∀ (level : Level) callee paren arguments m f m₁ vs m₂ c v m₃,
    level.expr callee m = .ok (.function f) m₁ → level.evaluateAll arguments m₁ = .ok vs m₂ →
    m₂.functions.get? f = some c → vs.length = c.arity → level.enter c vs m₂ = .ok v m₃ →
    level.evaluate (.call callee paren arguments) m = .ok v m₃
  /-- Without some of the code behind a return the unit is accepted as well, -/
  accepted : ∀ program', Stmt.Sheds (parse (scan source).tokens).statements program' →
    ∀ n, (resolve (Stmt.numberAll program' n).1).errors = []
  /-- and if the stack holds the unit it ends as it did, and nothing is different afterwards,
  whatever comes next. -/
  same : s.stack.holds source = true →
    ∀ program', Stmt.Sheds (parse (scan source).tokens).statements program' →
    (s.resolveAndRun program').2 = (s.run source).2 ∧
      ∀ requests, ((s.resolveAndRun program').1.answerAll requests).2 =
          ((s.run source).1.answerAll requests).2 ∧
        ((s.run source).1.answerAll requests).1.SameLive
          ((s.resolveAndRun program').1.answerAll requests).1

/-- A return ends the nearest call and nothing else, so that the code behind it is dead: an
accepted unit does in every session what it does without that code. -/
theorem Session.returns_end_calls {s : Session} (h : s.Reachable) {source : String}
    {code : List (Stmt Nat)} {i : Interpreter} (hp : s.interpreter.prepare? source = some (code, i)) :
    s.Returning source code := by
  obtain ⟨t, alongside⟩ := exists_alongside h
  have prepared := Prepared.of_prepare? hp
  have clean : (scan source).errors = [] ∧ (parse (scan source).tokens).errors = [] := by
    simp only [Interpreter.prepare?, Option.ite_none_right_eq_some, Bool.and_eq_true,
      List.isEmpty_iff] at hp
    exact hp.1.1
  have formed := prepared.formed
  have reports : Stmt.reports (parse (scan source).tokens).statements = [] :=
    (errors_nil_iff formed s.interpreter.nextMark).mp (prepared.numbered ▸ prepared.quiet)
  exact {
    completes := fun stmt hs rounds n => by
      have still : Stmt.reports code = [] := by
        rw [Stmt.reports, prepared.numbered, Stmt.numberAll_spots]
        exact reports
      exact Level.stmt_completes rounds n stmt (Stmt.stays_of_reports still stmt hs)
    value := fun _ _ _ _ _ _ _ evaluated => Run.bind_ok evaluated
    bare := fun _ _ _ _ => rfl
    row := fun _ _ _ _ _ => Level.executeAll_returned
    block := fun _ rounds _ _ _ _ returned => Level.block_returned returned rounds
    yes := fun _ rounds _ _ no _ _ _ _ _ test holds returned =>
      Level.yes_returned test holds returned no rounds
    no := fun _ rounds _ yes _ _ _ _ _ _ test fails returned =>
      Level.no_returned test fails returned yes rounds
    loop := fun _ _ _ _ _ _ _ _ _ => Level.Rounds.returned
    call := fun _ _ hf arguments _ _ _ => Level.enter_value hf arguments
    answer := fun _ _ _ _ _ _ _ _ _ _ _ _ => Level.evaluate_call
    accepted := fun program' hd n => (errors_nil_iff (hd.wellFormed formed) n).mpr (hd.reports_nil reports)
    same := fun held program' hd => by
      obtain ⟨whole, ending⟩ := alongside.run source
      obtain ⟨less, ending'⟩ := alongside.resolveAndRun (hd.wellFormed formed)
      rw [← alongside.stack] at held
      rw [Lexical.Session.run_eq_checkAndRun held clean.1 clean.2] at whole ending
      obtain ⟨same, together⟩ := (Lexical.Session.SameLive.refl t).checkAndRun formed (hd.wellFormed formed)
        ((hd.reports_nil reports).trans reports.symm) (hd.map_live reports)
      refine ⟨ending'.trans (together.trans ending.symm), fun requests => ?_⟩
      obtain ⟨last, endings⟩ := whole.answerAll requests
      obtain ⟨last', endings'⟩ := less.answerAll requests
      obtain ⟨lives, both⟩ := same.answerAll requests
      exact ⟨endings'.trans (both.trans endings.symm), last.sameLive last' lives⟩ }

/-- A function with code behind its return, and a statement that calls it. -/
def returnsBeforeLast : List (Stmt Unit) → Bool
  | [.function ⟨_, _, [.leave _ _, _]⟩, _] => true
  | _ => false

/-- A unit whose function returns before its last statement, and that unit without it. -/
theorem Session.returns_end_calls_function :
    let s := Session.startOn (.ofLimits ⟨4, 8⟩) "lox" false false fun _ => 0
    let source := "fun f() \x7b return 1; print 2; \x7d print f();"
    ∃ code i program', s.Reachable ∧ s.interpreter.prepare? source = some (code, i) ∧
      Stmt.Sheds (parse (scan source).tokens).statements program' ∧ s.stack.holds source = true ∧
      s.Returning source code := by
  intro s source
  have prepared : (s.interpreter.prepare? source).isSome = true := by decide +kernel
  have shape : returnsBeforeLast (parse (scan source).tokens).statements = true := by decide +kernel
  have sheds : ∃ program', Stmt.Sheds (parse (scan source).tokens).statements program' := by
    unfold returnsBeforeLast at shape
    split at shape
    next name params keyword value last call hs =>
      rw [hs]
      exact ⟨_, .among [] [call] (.function name params (.behind [] keyword value [last]))⟩
    next => cases shape
  obtain ⟨⟨code, i⟩, hp⟩ := Option.isSome_iff_exists.mp prepared
  obtain ⟨program', hd⟩ := sheds
  exact ⟨code, i, program', .start _ _ _ _ _, hp, hd, Stack.ample_holds _,
    returns_end_calls (.start _ _ _ _ _) hp⟩

end Lox
