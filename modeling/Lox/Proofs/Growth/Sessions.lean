import Lox.Proofs.Growth.Runs
import Lox.Proofs.Identities
import Lox.Proofs.Lineage.Histories

/-! # What there is only grows

All that a session or an interpreter of its own goes through is reached by steps. So from each of
its states on, whatever is run and however that ends, scopes stay where they are and keep their
names, routines and classes stay what they are, objects keep their class and their fields, and what
is made on the way is new. -/

namespace Lox

open Run

namespace Machine

/-- A machine to which steps lead from the beginning. -/
def Reached (m : Machine) : Prop := ∃ reading recording, (start reading recording).Reaches m

/-- A method has been bound, and neither the method nor the scope in which it was written is
another than before. -/
structure BindsApart (m : Machine) (c : Closure) (receiver : Value) (m' : Machine) : Prop where
  functions : ∀ f d, m.functions.get? f = some d → m'.functions.get? f = some d
  scopes : ∀ r, (m.scopes.get? r).isSome → m'.scopes.get? r = m.scopes.get? r
  /-- The copy is new, and so is its scope, which is around the receiver alone. -/
  fresh : ¬ m.Has ⟨.function, m.functions.next⟩ ∧ ¬ m.Has ⟨.scope, m.scopes.next⟩
  copy : m'.functions.get? m.functions.next = some { c with scope := m.scopes.next }
  scope : m'.scopes.get? m.scopes.next = some ⟨.ofList [("this", receiver)], some c.scope⟩

/-- From a machine on, a level goes by steps, whatever it runs and however that ends. -/
structure GoesBy (m : Machine) (level : Level) : Prop where
  stmt (s : Stmt Nat) : m.Reaches ((level.stmt s).after m)
  expr (e : Expr Nat) : m.Reaches ((level.expr e).after m)
  row (body : List (Stmt Nat)) : m.Reaches ((level.executeAll body).after m)
  block {r : Ref .scope} (there : m.Has ⟨.scope, r⟩) (body : List (Stmt Nat)) :
    m.Reaches ((Run.within r (level.executeAll body)).after m)
  call (callee : Value) (paren : Token) (arguments : List Value) :
    m.Reaches ((level.call callee paren arguments).after m)
  enter {c : Closure} (there : m.Has ⟨.scope, c.scope⟩) (arguments : List Value) :
    m.Reaches ((level.enter c arguments).after m)
  construct (k : Ref .klass) (initializer : Option (Ref .function)) (arguments : List Value) :
    m.Reaches ((level.construct k initializer arguments).after m)
  declareClass (name : Token) (parent : Option (Reference Nat)) (methods : List (Routine (Stmt Nat))) :
    m.Reaches ((level.declareClass name parent methods).after m)
  program (code : List (Stmt Nat)) : m.Reaches ((Run.program level code).after m)

/-- What is so of a machine, and of all that come after it. -/
structure OnlyGrows (m : Machine) : Prop where
  /-- Runs go by steps, -/
  runs : ∀ rounds n, m.GoesBy (.ofDepth rounds n)
  /-- and programs by way of what they evaluate. -/
  evaluations : ∀ limits code e m', Evaluates limits code m e m' →
    m.Reaches m' ∧ m'.Reaches ((Run.program (.ofLimits limits) code).after m)
  /-- Steps take nothing away, and make what was not there. -/
  steps : ∀ made m', m.Steps made m' → m.Grows made m'
  /-- Hops lead where they led, -/
  hops : ∀ m', m.Reaches m' → ∀ r, m.Has ⟨.scope, r⟩ → ∀ n, m'.scopes.scopeAt n r = m.scopes.scopeAt n r
  /-- every way outwards, also from a new scope, ends in the globals, -/
  outwards : ∀ m', m.Reaches m' → ∀ r, m'.Has ⟨.scope, r⟩ →
    ∃ n, m'.scopes.scopeAt n r = .ok globals ∧ m'.scopes.enclosing? globals = none
  /-- and none comes to a scope twice. -/
  once : ∀ m', m.Reaches m' → ∀ r k n q, m'.scopes.scopeAt k r = .ok q → m'.scopes.scopeAt n r = .ok q → k = n
  binds : ∀ f c receiver, m.functions.get? f = some c →
    ∃ m', Run.bind f receiver m = .ok m.functions.next m' ∧ m.BindsApart c receiver m'

variable {m m' : Machine}

theorem Reached.inOrder (h : m.Reached) : m.InOrder := by
  obtain ⟨reading, recording, reaches⟩ := h
  exact reaches.inOrder (.start reading recording)

theorem Reached.onwards (h : m.Reached) (k : m.Reaches m') : m'.Reached := by
  obtain ⟨reading, recording, reaches⟩ := h
  exact ⟨reading, recording, reaches.trans k⟩

/-! ## Runs -/

theorem InOrder.goesBy (h : m.InOrder) (rounds n : Nat) : m.GoesBy (.ofDepth rounds n) := by
  obtain ⟨expr, stmt⟩ := Level.passes_level rounds n
  let below : Watch → Level := fun w => w.level rounds n
  have enter (m : Machine) (h : m.InOrder) (c : Closure) (there : m.Has ⟨.scope, c.scope⟩)
      (arguments : List Value) : Goes m (fun w => (below w).enter c arguments) fun _ _ => True :=
    Level.goes_enter below stmt h there arguments
  have statements (code : List (Stmt Nat)) := (Level.passes_statements below stmt code m h).ends
  rw [← Watch.level_idle]
  exact
    { stmt := fun s => (stmt s m h).ends
      expr := fun e => (expr e m h).ends
      row := fun body => (Level.passes_executeAll below stmt body m h).ends
      block := fun there body => (Level.goes_within below stmt h there body).ends
      call := fun callee paren arguments => (Level.passes_callBy _ enter callee paren arguments m h).ends
      enter := fun there arguments => (enter m h _ there arguments).ends
      construct := fun k initializer arguments =>
        (Level.passes_constructBy _ enter k initializer arguments m h).ends
      declareClass := fun name parent methods =>
        (Level.passes_declareClass below expr name parent methods m h).ends
      program := fun code => by
        rw [after_program]
        exact (statements code).trans (Step.move ((statements code).inOrder h).globals).reaches }

end Machine

/-- A run visits what it visits. -/
theorem Run.Visits.unique {α : Type} {x : Watch → Run α} {m m' : Machine} {U V : Deed → Machine → Prop}
    {d : Deed} (h : Visits x m V) (k : Visits x m U) (visited : V d m') : U d m' := by
  by_contra missed
  obtain ⟨c, error⟩ := h.stopped_only visited
  exact not_all_faults (r := x .idle m) fun stop => ⟨_, (k.passed_only stop missed).symm.trans (error stop)⟩

namespace Machine

variable {m m' : Machine} {e : Expr Nat}

theorem InOrder.evaluation (h : m.InOrder) {limits : Limits} {code : List (Stmt Nat)}
    (he : Evaluates limits code m e m') :
    m.Reaches m' ∧ m'.Reaches ((Run.program (.ofLimits limits) code).after m) := by
  have passes := Level.passes_statements (fun w : Watch => w.level limits.rounds limits.depth)
    (Level.passes_level limits.rounds limits.depth).2 code m h
  obtain ⟨V, visits, through⟩ := passes.visits
  obtain ⟨before, behind⟩ := through _ m' ((visits_statements limits code m).unique visits he)
  have ends := passes.ends
  rw [Watch.level_idle] at behind ends
  rw [after_program]
  exact ⟨before, behind.trans (Step.move (ends.inOrder h).globals).reaches⟩

theorem bindsApart {f : Ref .function} {c : Closure} (hf : m.functions.get? f = some c) (receiver : Value) :
    ∃ m', Run.bind f receiver m = .ok m.functions.next m' ∧ m.BindsApart c receiver m' := by
  have bound : Run.bind f receiver m = _ := bind_ok (Run.functionAt_eq hf)
  exact ⟨_, bound,
    { functions := fun _ _ => Heap.get?_push_of_some
      scopes := fun _ => Scopes.get?_add_of_isSome
      fresh := ⟨not_has_next .function, not_has_next .scope⟩
      copy := Heap.get?_push_next
      scope := Scopes.get?_add_next _ _ }⟩

theorem Reached.onlyGrows (reached : m.Reached) : m.OnlyGrows where
  runs := reached.inOrder.goesBy
  evaluations _ _ _ _ := reached.inOrder.evaluation
  steps _ _ steps := steps.grows
  hops m' reach r there n := by
    obtain ⟨made, steps⟩ := reach
    exact reached.inOrder.scopeAt_eq steps.grows.toPrecedes there n
  outwards m' reach r there := by
    have later := reach.inOrder reached.inOrder
    obtain ⟨n, found⟩ := later.reaches_globals there
    exact ⟨n, found, (later.outermost _ later.globals).mpr rfl⟩
  once m' reach r k n q := (reach.inOrder reached.inOrder).built.nested.hops_unique
  binds _ _ receiver hf := bindsApart hf receiver

end Machine

/-! ## Interpreters and sessions -/

namespace Interpreter

variable {i : Interpreter}

theorem execute_machine (i : Interpreter) (code : List (Stmt Nat)) :
    (i.execute code).1.machine = (Run.program (.ofLimits i.limits) code).after i.machine := by
  rw [execute, Run.after]
  cases Run.program (.ofLimits i.limits) code i.machine <;> rfl

theorem reaches_execute (h : i.machine.InOrder) (code : List (Stmt Nat)) :
    i.machine.Reaches (i.execute code).1.machine := by
  rw [execute_machine]
  exact (h.goesBy i.limits.rounds i.limits.depth).program code

theorem reaches_learn (i : Interpreter) (entries : List Entry) : i.machine.Reaches (i.learn entries).machine :=
  .aside rfl rfl rfl rfl rfl

theorem number_machine (i : Interpreter) (program : List (Stmt Unit)) :
    (i.number program).2.machine = i.machine := rfl

/-- Whatever can be read of a source, with or without addresses. -/
theorem reaches_attempt (h : i.machine.InOrder) (source : String) (resolving : Bool) :
    i.machine.Reaches (i.attempt source resolving).2.machine := by
  rw [attempt_eq]
  have numbered := i.number_machine (parse (scan source).tokens).statements
  generalize i.number (parse (scan source).tokens).statements = read at numbered
  rw [← numbered] at h ⊢
  have learnt := reaches_learn read.2 (if resolving then resolve read.1 else ⟨[], []⟩).entries
  exact learnt.trans (reaches_execute (learnt.inOrder h) read.1)

theorem Knows.reached {programs : List (List (Stmt Nat))} (h : i.Knows programs) : i.machine.Reached := by
  induction h with
  | start limits reading recording => exact ⟨reading, recording, .refl _⟩
  | read _ tokens ih =>
    rw [number_machine]
    exact ih
  | resolve _ _ ih => exact ih.onwards (reaches_learn _ _)
  | execute _ _ ih => exact ih.onwards (reaches_execute ih.inOrder _)
  | takeEvents _ ih | takeOutput _ ih => exact ih.onwards (.aside rfl rfl rfl rfl rfl)

end Interpreter

namespace Session

variable {s : Session} {source : String} {requests : List Request} {m : Machine} {code : List (Stmt Nat)}
  {i : Interpreter}

theorem reaches_prepared (hp : s.interpreter.prepare? source = some (code, i)) :
    s.interpreter.machine.Reaches i.machine := by
  obtain ⟨table, machine⟩ := Interpreter.prepared_machine hp
  rw [machine]
  exact .aside rfl rfl rfl rfl rfl

theorem reaches_taken (h : s.Reachable) (held : s.stack.holds source = true)
    (hp : s.interpreter.prepare? source = some (code, i)) :
    (i.execute code).1.machine.Reaches (s.run source).1.interpreter.machine := by
  obtain ⟨r, -, after, -⟩ := run_accepted h.fatal held hp
  rw [after]
  exact .aside rfl rfl rfl rfl rfl

theorem reaches_run (h : s.Reachable) (ordered : s.interpreter.machine.InOrder) (source : String) :
    s.interpreter.machine.Reaches (s.run source).1.interpreter.machine := by
  obtain same | ⟨held, code, i, hp, -⟩ := run_interpreter h.fatal source
  · rw [same]
    exact .refl _
  · have begun := reaches_prepared hp
    exact begun.trans ((Interpreter.reaches_execute (begun.inOrder ordered) code).trans (reaches_taken h held hp))

theorem Reachable.reached (h : s.Reachable) : s.interpreter.machine.Reached := by
  induction h with
  | start host name color verbose reading => exact ⟨reading, verbose, .refl _⟩
  | run h source ih => exact ih.onwards (reaches_run h ih.inOrder source)
  | reset _ ih => exact ih

theorem Reachable.reaches_answerAll (h : s.Reachable) (requests : List Request) :
    s.interpreter.machine.Reaches (s.answerAll requests).1.interpreter.machine := by
  induction requests generalizing s with
  | nil => exact .refl _
  | cons request rest ih =>
    cases request with
    | run source =>
      rw [answerAll_run]
      exact (reaches_run h h.reached.inOrder source).trans (ih (h.run source))
    | reset => exact ih h.reset

/-- A session goes by steps through all of its states. -/
theorem GoesThrough.reached (g : s.GoesThrough requests m) (h : s.Reachable) :
    m.Reached ∧ m.Reaches (s.answerAll requests).1.interpreter.machine := by
  induction g with
  | rests s requests => exact ⟨h.reached, h.reaches_answerAll requests⟩
  | @evaluates s source code i e m held hp he rest =>
    have begun := h.reached.onwards (reaches_prepared hp)
    obtain ⟨before, behind⟩ := begun.inOrder.evaluation he
    rw [← Interpreter.execute_machine] at behind
    rw [answerAll_run]
    exact ⟨begun.onwards before, behind.trans ((reaches_taken h held hp).trans
      ((h.run source).reaches_answerAll rest))⟩
  | afterRun _ ih =>
    rw [answerAll_run]
    exact ih (h.run _)
  | afterReset _ ih => exact ih h.reset

end Session

/-- From every state on that steps lead to, what there is only grows: through all states of every
session, and in an interpreter of its own through whatever it reads, be it accepted or not. -/
theorem Machine.structure_grows :
    (∀ m : Machine, m.Reached → m.OnlyGrows) ∧
      (∀ (s : Session) requests m, s.Reachable → s.GoesThrough requests m →
        m.Reached ∧ m.Reaches (s.answerAll requests).1.interpreter.machine) ∧
      ∀ (i : Interpreter) programs, i.Knows programs →
        i.machine.Reached ∧
          ∀ source resolving, i.machine.Reaches (i.attempt source resolving).2.machine :=
  ⟨fun _ reached => reached.onlyGrows, fun _ _ _ h g => g.reached h,
    fun _ _ h => ⟨h.reached, fun source resolving => Interpreter.reaches_attempt h.reached.inOrder source resolving⟩⟩

/-- A run that ends in a fault inside of a call keeps what it has made until then. -/
theorem Machine.structure_grows_cut_short :
    let s := Session.startOn (.ofLimits ⟨8, 8⟩) "lox" false false fun _ => 0
    let requests := [.run "class A \x7b\x7d fun f() \x7b var a = A(); a.x = 1; nil(); \x7d f(); var late;"]
    let m := (s.answerAll requests).1.interpreter.machine
    s.interpreter.machine.Reaches m ∧ m.OnlyGrows ∧ m.Has ⟨.object, ⟨0⟩⟩ ∧
      m.scopes.scopeAt 1 ⟨1⟩ = .ok globals ∧ m.scopes.lookup? globals "late" = none := by
  intro s requests m
  have begun : s.Reachable := .start _ _ _ _ _
  obtain ⟨grow, sessions, -⟩ := structure_grows
  have reached : m.Reached := (sessions s requests m begun (.ends s requests)).1
  have left : ((m.instances.get? ⟨0⟩).isSome && (m.scopes.enclosing? ⟨1⟩ == some globals) &&
      (m.scopes.lookup? globals "late").isNone) = true := by decide +kernel
  simp only [Bool.and_eq_true, beq_iff_eq, Option.isNone_iff_eq_none] at left
  obtain ⟨⟨object, around⟩, late⟩ := left
  exact ⟨(sessions s requests _ begun (.rests s requests)).2, grow m reached, object,
    (Scopes.scopeAt_succ around 0).trans Scopes.scopeAt_zero, late⟩

end Lox
