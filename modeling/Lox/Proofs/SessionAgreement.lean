import Lox.Proofs.Agreement.Programs
import Lox.Proofs.Sessions
import Lox.Proofs.ParsedTrees
import Lox.Proofs.Resolving

/-! # Sessions are in step

The table of a session grows by the addresses of each program that is accepted, and
no address of an older program changes. So what the older programs have left behind
still fits. -/

namespace Lox.Agreement

open Lexical (Location Env Store)

variable {origin : Scopes} {i j : Interpreter} {state : Lexical.State Nat} {source : String}
  {program : List (Stmt Unit)} {code : List (Stmt Nat)}

/-- Between two units an interpreter is beside a reference state. -/
structure Beside (origin : Scopes) (i : Interpreter) (state : Lexical.State Nat) : Prop where
  pair : ∃ home, Resting (⟨home, i.nextMark, i.machine, state⟩ : Joint origin)
  unused : ∀ n, i.nextMark ≤ n → i.machine.table.hops? n = none

/-- A program that has been accepted, before it is run. -/
structure Accepted (origin : Scopes) (i : Interpreter) (state : Lexical.State Nat)
    (code : List (Stmt Nat)) (home : List (Ref .scope × String)) : Prop where
  resting : Resting (⟨home, i.nextMark, i.machine, state⟩ : Joint origin)
  fits : ∀ hops, (⟨home, i.nextMark, i.machine, state⟩ : Joint origin).Knows hops →
    Stmt.AllFit hops [] code
  unused : ∀ n, i.nextMark ≤ n → i.machine.table.hops? n = none

/-- What is known of an accepted program. -/
structure Prepared (i : Interpreter) (program : List (Stmt Unit)) (code : List (Stmt Nat))
    (j : Interpreter) : Prop where
  formed : Stmt.AllWellFormed Token.Spelled program
  numbered : code = (Stmt.numberAll program i.nextMark).1
  quiet : (resolve code).errors = []
  later : j = (i.number program).2.learn (resolve code).entries

theorem Prepared.of_prepare? (h : i.prepare? source = some (code, j)) :
    Prepared i (parse (scan source).tokens).statements code j := by
  simp only [Interpreter.prepare?, Option.ite_none_right_eq_some, Bool.and_eq_true,
    List.isEmpty_iff, Option.some.injEq, Prod.mk.injEq] at h
  have formed := parse_wellFormed (scan_spelled source)
  generalize (parse (scan source).tokens).statements = program at h formed ⊢
  obtain ⟨⟨-, hq⟩, hc, hj⟩ := h
  rw [hc] at hq hj
  exact ⟨formed, hc.symm, hq, hj.symm⟩

theorem Prepared.scopes (h : Prepared i program code j) : j.machine.scopes = i.machine.scopes := by
  rw [h.later]
  rfl

theorem Prepared.accepted (h : Prepared i program code j) (hb : Beside origin i state) :
    ∃ home, Accepted origin j state code home := by
  obtain ⟨parsed, hcode, hq, rfl⟩ := h
  obtain ⟨⟨home, hr⟩, unused⟩ := hb
  have spans := Stmt.numberAll_spans program i.nextMark
  have wellFormed := Stmt.numberAll_wellFormed program i.nextMark parsed
  rw [← hcode] at spans wellFormed
  let p : Joint origin := ⟨home, i.nextMark, i.machine, state⟩
  let next := (Stmt.numberAll program i.nextMark).2
  let table := i.machine.table.recordAll (resolve code).entries
  let q : Joint origin := ⟨home, next, { i.machine with table := table }, state⟩
  have fits : Stmt.AllFit table.hops? [] code :=
    resolve_fits wellFormed spans.nodup (fun n hn => unused n (spans.mem hn).1) hq
  have old : ∀ n, n ∉ Stmt.allMarks code → table.hops? n = i.machine.table.hops? n :=
    fun n hn => resolve_entries code hn
  have keeps : Keeps p q := { Grows.refl p with
    known := fun hops hk n hn => by
      have hn : n < i.nextMark := hn
      rw [hk n (Nat.lt_of_lt_of_le hn spans.1)]
      exact old n fun hm => Nat.not_le_of_lt hn (spans.mem hm).1 }
  have sim : Sim q := hr.toSim.still keeps { hr.shared with } hr.history hr.here rfl rfl rfl rfl rfl rfl
  refine ⟨home, ⟨sim, hr.current, hr.env⟩, fun hops hk => ?_, fun n hn => ?_⟩
  · exact Stmt.AllFit.congr code [] (fun n hn => (hk n (spans.mem hn).2).symm) fits
  · have hn : next ≤ n := hn
    refine (old n fun hm => Nat.not_le_of_lt (spans.mem hm).2 hn).trans (unused n ?_)
    exact Nat.le_trans spans.1 hn

/-- A program that has been run to its end or to a fault on both sides. -/
structure Executed (origin : Scopes) (code : List (Stmt Nat)) (i : Interpreter)
    (state : Lexical.State Nat) (fault : Option Fault) (after : Interpreter)
    (state' : Lexical.State Nat) : Prop where
  left : i.execute code = (after, fault)
  foreseen : ∀ e ∈ fault, e.Foreseen
  right : Lexical.Run.program (.ofLimits i.limits) code state = match fault with
    | none => .ok () state'
    | some e => .error e state'
  limits : after.limits = i.limits
  nextMark : after.nextMark = i.nextMark
  scopes : i.machine.scopes.Evolves after.machine.scopes
  beside : Beside origin after state'

theorem Accepted.execute {home : List (Ref .scope × String)}
    (h : Accepted origin i state code home) :
    ∃ fault after state', Executed origin code i state fault after state' := by
  obtain ⟨q, hq, grows, result⟩ := (inStep_ofLimits i.limits).program h.resting h.fits
  have beside : Beside origin { i with machine := q.machine } q.state := by
    refine ⟨⟨q.home, ?_⟩, fun n hn => ?_⟩
    · obtain ⟨home', known, m, s⟩ := q
      obtain rfl : known = i.nextMark := grows.marks
      exact hq
    · rw [grows.table]
      exact h.unused n hn
  rcases result with ⟨hx, hy⟩ | ⟨e, he, hx, hy⟩
  · refine ⟨none, { i with machine := q.machine }, q.state, ?_,
      fun _ he => (by cases he), hy, rfl, rfl, grows.scopes, beside⟩
    rw [Interpreter.execute, hx]
  · refine ⟨some e, { i with machine := q.machine }, q.state, ?_, ?_, hy, rfl, rfl, grows.scopes,
      beside⟩
    · rw [Interpreter.execute, hx]
    · rintro _ ⟨⟩
      exact he

theorem Beside.takeEvents (h : Beside origin i state) : Beside origin i.takeEvents.2 state := by
  obtain ⟨⟨home, hr⟩, unused⟩ := h
  let p : Joint origin := ⟨home, i.nextMark, i.machine, state⟩
  let q : Joint origin := ⟨home, i.nextMark, i.takeEvents.2.machine, state⟩
  have keeps : Keeps p q := { Grows.refl p with }
  have sim : Sim q := hr.toSim.still keeps { hr.shared with } hr.history hr.here rfl rfl rfl rfl rfl rfl
  exact ⟨⟨home, sim, hr.current, hr.env⟩, unused⟩

/-- At first there is the clock. -/
theorem lookup?_start {reading : Nat → Float} {recording : Bool} {r : Ref .scope} {x : String}
    {v : Value} (h : (Machine.start reading recording).scopes.lookup? r x = some v) :
    r = Machine.globals ∧ x = "clock" ∧ v = .clock := by
  change (Scopes.add .empty (.ofList [("clock", .clock)]) none).lookup? r x = some v at h
  rw [Scopes.lookup?, Scopes.add, Heap.get?_push] at h
  split at h
  · rename_i hr
    have hm := (Bindings.get?_ofList (by simp)).mp h
    simp only [List.mem_singleton, Prod.mk.injEq] at hm
    exact ⟨hr, hm⟩
  · cases h

theorem resting_start (reading : Nat → Float) (recording : Bool) :
    Resting (⟨[], 0, .start reading recording, .start reading⟩ :
      Joint .first) where
  locals := {
    size := rfl
    distinct := List.nodup_nil
    placed := fun r x hx => by cases hx
    covered := fun r x v hr hv => absurd (lookup?_start hv).1 hr
    cells := fun l r x hx => by cases hx
    outermost := rfl
    ordinary := fun x hx => by
      rw [List.mem_singleton.mp hx]
      exact ⟨by decide, by decide⟩
    suits := fun r x v hv => by
      rw [(lookup?_start hv).2.1]
      exact .ordinary ⟨by decide, by decide⟩ v }
  shared := ⟨by simp [Machine.start, Lexical.State.start, Heap.empty], rfl, rfl, rfl, rfl⟩
  history := .same
  here := rfl
  values r x v hv := by
    rw [(lookup?_start hv).2.2]
    trivial
  fields i o x v ho := by cases ho
  methods r k x f hk := by cases hk
  founded :=
    { older := fun r k parent hk => by cases hk
      kinds := fun i o ho => by cases ho }
  current := rfl
  env := rfl

/-- The same reports, and between them lines about internals, if such lines are wanted. -/
inductive Carries (verbose : Bool) : String → String → Prop
  | empty : Carries verbose "" ""
  | report {a b : String} (h : Carries verbose a b) (line : String) :
      Carries verbose (a ++ line ++ "\n") (b ++ line ++ "\n")
  | internal {a b : String} (wanted : verbose = true) (h : Carries verbose a b) (line : String) :
      Carries verbose (a ++ line ++ "\n") b

theorem Carries.eq {a b : String} (h : Carries false a b) : a = b := by
  induction h with
  | empty => rfl
  | report _ line ih => rw [ih]
  | internal wanted => cases wanted

/-- Two reporters of which the one may also have taken down internals. -/
structure Alike (verbose : Bool) (a b : Reporter) : Prop where
  fatal : a.fatal = false ∧ b.fatal = false
  paint : a.paint = b.paint
  hadError : a.hadError = b.hadError
  hadRuntimeError : a.hadRuntimeError = b.hadRuntimeError
  stream : Carries verbose a.stream b.stream

namespace Alike

variable {verbose : Bool} {a b : Reporter}

theorem rendering (h : Alike verbose a b) (d : Diagnostic) : a.rendering d = b.rendering d := by
  simp only [Reporter.rendering, Reporter.painted, h.paint]

theorem write (h : Alike verbose a b) (line : String) : Alike verbose (a.write line) (b.write line) :=
  { h with stream := h.stream.report line }

theorem reset (h : Alike verbose a b) : Alike verbose a.reset b.reset :=
  { h with hadError := rfl, hadRuntimeError := rfl }

theorem report (h : Alike verbose a b) (d : Diagnostic) :
    Alike verbose (a.report d).1 (b.report d).1 ∧ (a.report d).2 = .done ∧ (b.report d).2 = .done := by
  simp only [Reporter.report, Reporter.ending, h.fatal, h.rendering d]
  exact ⟨{ h.write (b.rendering d) with hadError := rfl }, rfl, rfl⟩

theorem reportAll (ds : List Diagnostic) : ∀ {a b : Reporter}, Alike verbose a b →
    Alike verbose (a.reportAll ds).1 (b.reportAll ds).1 ∧ (a.reportAll ds).2 = .done ∧
      (b.reportAll ds).2 = .done := by
  induction ds with
  | nil => exact fun h => ⟨h, rfl, rfl⟩
  | cons d rest ih =>
    intro a b h
    obtain ⟨hd, ha, hb⟩ := h.report d
    have left : a.reportAll (d :: rest) = (a.report d).1.reportAll rest := by
      rw [Reporter.reportAll, ← Prod.eta (a.report d), ha]
    have right : b.reportAll (d :: rest) = (b.report d).1.reportAll rest := by
      rw [Reporter.reportAll, ← Prod.eta (b.report d), hb]
    rw [left, right]
    exact ih hd

theorem reportRuntime (h : Alike verbose a b) (d : Diagnostic) :
    Alike verbose (a.reportRuntime d).1 (b.reportRuntime d).1 ∧ (a.reportRuntime d).2 = .done ∧
      (b.reportRuntime d).2 = .done := by
  simp only [Reporter.reportRuntime, Reporter.ending, h.fatal, h.rendering d]
  exact ⟨{ h.write (b.rendering d) with hadRuntimeError := rfl }, rfl, rfl⟩

theorem reportInternal (h : Alike verbose a b) (text : String) :
    Alike verbose (a.reportInternal text).1 (b.reportInternal text).1 ∧
      (a.reportInternal text).2 = .done ∧ (b.reportInternal text).2 = .done := by
  simp only [Reporter.reportInternal, Reporter.ending, h.fatal, Reporter.internalRendering,
    Reporter.painted, h.paint]
  exact ⟨{ h.write _ with hadRuntimeError := rfl }, rfl, rfl⟩

theorem handle (h : Alike verbose a b) (raised : Option Raised) :
    Alike verbose (a.handle raised).1 (b.handle raised).1 ∧ (a.handle raised).2 = (b.handle raised).2 := by
  cases raised with
  | none => exact ⟨h, rfl⟩
  | some r =>
    cases r with
    | runtime d =>
      obtain ⟨hr, ha, hb⟩ := h.reportRuntime d
      exact ⟨hr, ha.trans hb.symm⟩
    | interrupt =>
      obtain ⟨hr, ha, hb⟩ := h.reportInternal "keyboard interrupt"
      exact ⟨hr, ha.trans hb.symm⟩
    | stackExhausted => exact ⟨(h.reportInternal "Stack overflow.").1, rfl⟩
    | exit code => exact ⟨h, rfl⟩
    | other name text =>
      obtain ⟨hr, ha, hb⟩ := h.reportInternal ("unknown error: '" ++ name ++ ": " ++ text ++ "'")
      simp only [Reporter.handle]
      rw [← Prod.eta (a.reportInternal _), ← Prod.eta (b.reportInternal _), ha, hb]
      exact ⟨hr, rfl⟩

end Alike

/-- A session beside one that runs by what is in scope. -/
structure Alongside (origin : Scopes) (s : Session) (t : Lexical.Session) : Prop where
  beside : Beside origin s.interpreter t.state
  nextMark : t.nextMark = s.interpreter.nextMark
  limits : t.limits = s.interpreter.limits
  stack : t.stack = s.stack
  reporter : Alike s.verbose s.reporter t.reporter

namespace Alongside

variable {s : Session} {t : Lexical.Session}

theorem startOn (host : Host) (name : String) (color verbose : Bool) (reading : Nat → Float) :
    Alongside .first (.startOn host name color verbose reading)
      (.startOn host color reading) where
  beside := ⟨⟨[], resting_start reading verbose⟩, fun _ _ => rfl⟩
  nextMark := rfl
  limits := rfl
  stack := rfl
  reporter := ⟨⟨rfl, rfl⟩, rfl, rfl, rfl, .empty⟩

theorem reset (h : Alongside origin s t) : Alongside origin s.reset t.reset :=
  { h with reporter := h.reporter.reset }

theorem report (h : Alongside origin s t) (ds : List Diagnostic) :
    Alongside origin (s.report ds).1 (t.report ds).1 ∧ (s.report ds).2 = .done ∧
      (t.report ds).2 = .done := by
  obtain ⟨hr, ha, hb⟩ := Alike.reportAll ds h.reporter
  exact ⟨{ h with reporter := hr }, ha, hb⟩

theorem note (h : Alongside origin s t) (line : String) : Alongside origin (s.note line) t := by
  unfold Session.note
  split
  · rename_i verbose
    exact { h with
      reporter := { h.reporter with stream := h.reporter.stream.internal verbose line } }
  · exact h

theorem noteEvents (h : Alongside origin s t) (events : Array Event) :
    Alongside origin (s.noteEvents events) t := by
  rw [Session.noteEvents, ← Array.foldl_toList]
  generalize events.toList = rest
  induction rest generalizing s with
  | nil => exact h
  | cons e rest ih => exact ih (h.note e.line)

theorem finish {after : Interpreter} (h : Alongside origin { s with interpreter := after } t)
    (fault : Option Fault) :
    Alongside origin (s.finish after fault).1 (t.finish fault).1 ∧
      (s.finish after fault).2 = (t.finish fault).2 := by
  have taken : Alongside origin { s with interpreter := after.takeEvents.2 } t :=
    { h with beside := h.beside.takeEvents }
  have noted := taken.noteEvents after.takeEvents.1
  obtain ⟨hr, he⟩ := noted.reporter.handle (fault.map (·.raised))
  exact ⟨{ noted with reporter := by exact hr }, he⟩

theorem resolveAndRun (h : Alongside origin s t) {program : List (Stmt Unit)}
    (formed : Stmt.AllWellFormed Token.Spelled program) :
    Alongside origin (s.resolveAndRun program).1 (t.checkAndRun program).1 ∧
      (s.resolveAndRun program).2 = (t.checkAndRun program).2 := by
  rw [Session.resolveAndRun, Lexical.Session.checkAndRun, h.nextMark]
  dsimp only [Interpreter.number]
  generalize hc : (Stmt.numberAll program s.interpreter.nextMark).1 = code
  cases hq : (resolve code).errors.isEmpty with
  | false =>
    obtain ⟨hr, ha, hb⟩ := (h.note _).report ((resolve code).errors.map (·.diagnostic))
    exact ⟨hr, ha.trans hb.symm⟩
  | true =>
    generalize hr : Interpreter.learn _ _ = ready
    have prepared : Prepared s.interpreter program code ready :=
      ⟨formed, hc.symm, List.isEmpty_iff.mp hq, hr.symm⟩
    have limits : ready.limits = s.interpreter.limits := by rw [← hr, Interpreter.learn]
    have marks : ready.nextMark = (Stmt.numberAll program s.interpreter.nextMark).2 := by
      rw [← hr, Interpreter.learn]
    obtain ⟨home, accepted⟩ := prepared.accepted h.beside
    obtain ⟨fault, after, state, executed⟩ := accepted.execute
    rw [if_pos rfl, if_pos rfl, executed.left, h.limits, ← limits, executed.right, ← marks]
    generalize hn : s.note _ = noted
    have told : Alongside origin noted t := hn ▸ h.note _
    have next : Alongside origin { noted with interpreter := after }
        ⟨t.reporter, ready.limits, t.stack, state, ready.nextMark⟩ :=
      ⟨executed.beside, executed.nextMark.symm, executed.limits.symm, told.stack, told.reporter⟩
    cases fault with
    | none => exact next.finish none
    | some e => exact next.finish (some e)

/-- A unit ends in the same way in both sessions. -/
theorem run (h : Alongside origin s t) (source : String) :
    Alongside origin (s.run source).1 (t.run source).1 ∧ (s.run source).2 = (t.run source).2 := by
  obtain ⟨hr, ha, hb⟩ := h.report
    ((scan source).errors.map (·.diagnostic) ++ (parse (scan source).tokens).diagnostics)
  rw [Session.run, Lexical.Session.run, h.stack]
  dsimp only
  cases s.stack.reads (scan source).bare with
  | false => exact ⟨h, rfl⟩
  | true => ?_
  rw [if_pos rfl, if_pos rfl, ← Prod.eta (s.report _), ha, ← Prod.eta (t.report _), hb]
  dsimp only
  generalize hn : Session.note _ _ = noted
  have told : Alongside origin noted (t.report _).1 := hn ▸ hr.note _
  rw [told.stack]
  split
  · split
    · exact told.resolveAndRun (parse_wellFormed (scan_spelled source))
    · exact ⟨told, rfl⟩
  · exact ⟨told, rfl⟩

theorem answerAll (requests : List Request) : ∀ {s : Session} {t : Lexical.Session},
    Alongside origin s t →
      Alongside origin (s.answerAll requests).1 (t.answerAll requests).1 ∧
        (s.answerAll requests).2 = (t.answerAll requests).2 := by
  induction requests with
  | nil => exact fun h => ⟨h, rfl⟩
  | cons r rest ih =>
    intro s t h
    cases r with
    | reset => exact ih h.reset
    | run source =>
      obtain ⟨hr, he⟩ := h.run source
      obtain ⟨hs, hes⟩ := ih hr
      simp only [Session.answerAll, Lexical.Session.answerAll]
      exact ⟨hs, by rw [he, hes]⟩

end Alongside

/-- What programs have written and made, and what has been reported of them. -/
structure SameEffects (s : Session) (t : Lexical.Session) : Prop where
  output : s.interpreter.machine.output = t.state.output
  hadError : s.reporter.hadError = t.reporter.hadError
  hadRuntimeError : s.reporter.hadRuntimeError = t.reporter.hadRuntimeError
  reports : Carries s.verbose s.reporter.stream t.reporter.stream
  stream : s.verbose = false → s.reporter.stream = t.reporter.stream
  globals : s.interpreter.machine.scopes.bindings Machine.globals = t.state.globals
  functions : s.interpreter.machine.functions.cells.map Closure.code =
    t.state.functions.cells.map Lexical.Closure.code
  classes : s.interpreter.machine.classes = t.state.classes
  instances : s.interpreter.machine.instances = t.state.instances

theorem Alongside.sameEffects {s : Session} {t : Lexical.Session} (h : Alongside origin s t) :
    SameEffects s t := by
  obtain ⟨⟨home, hr⟩, -⟩ := h.beside
  have shared := hr.shared
  have reports := h.reporter.stream
  refine ⟨shared.output, h.reporter.hadError, h.reporter.hadRuntimeError, reports, fun quiet => ?_,
    ?_, shared.functions, shared.classes, shared.instances⟩
  · rw [quiet] at reports
    exact reports.eq
  · have outermost : s.interpreter.machine.scopes.get? Machine.globals = some ⟨t.state.globals, none⟩ :=
      hr.locals.outermost
    rw [Scopes.bindings, outermost]
    rfl

/-- Addresses lead to the variables that are in scope: whatever is asked of a session,
it answers as one that knows of no addresses and runs every program by what is in
scope. -/
theorem answerAll_by_scope (host : Host) (name : String) (color verbose : Bool)
    (reading : Nat → Float) (requests : List Request) :
    let real := (Session.startOn host name color verbose reading).answerAll requests
    let byScope := (Lexical.Session.startOn host color reading).answerAll requests
    real.2 = byScope.2 ∧ SameEffects real.1 byScope.1 := by
  obtain ⟨h, endings⟩ := (Alongside.startOn host name color verbose reading).answerAll requests
  exact ⟨endings, h.sameEffects⟩

/-- Every session that can be reached has one that runs by what is in scope beside it. -/
theorem exists_alongside {s : Session} (h : s.Reachable) :
    ∃ t, Alongside .first s t := by
  induction h with
  | start host name color verbose reading =>
    exact ⟨_, Alongside.startOn host name color verbose reading⟩
  | run h source ih =>
    obtain ⟨t, ht⟩ := ih
    exact ⟨_, (ht.run source).1⟩
  | reset h ih =>
    obtain ⟨t, ht⟩ := ih
    exact ⟨_, ht.reset⟩

end Lox.Agreement
