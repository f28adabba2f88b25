import Lox.Proofs.Joining.Programs
import Lox.Proofs.Likeness.Interpreters
import Lox.Proofs.ParsedTrees
import Lox.Proofs.Refusals

/-! # The run of a program behind another

A program that is run as the second part of a longer one finds the machine as the first
part has left it. It knows the addresses of all references from the beginning, and those
of the second part mean nothing to the first one. -/

namespace Lox

variable {T : Token → Token → Prop} {M : Nat → Nat → Prop}
  {E : Option (Array Event) → Option (Array Event) → Prop} {limits : Limits} {m m' : Machine}

namespace Run

/-- A result comes with a machine. -/
def final {α : Type} : EStateM.Result Fault Machine α → Machine
  | .ok _ m | .error _ m => m

theorem Ends.setting {α β : Type} {R : α → β → Prop} {c : Ref .scope × Table}
    {r : EStateM.Result Fault Machine α} {r' : EStateM.Result Fault Machine β} (h : Ends T M E R c r r') :
    (final r).setting = c := by
  cases h with
  | ok _ _ hc | error _ _ hc => exact hc

theorem statements_setting (limits : Limits) (code : List (Stmt Nat)) (m : Machine) :
    (final (statements (.ofLimits limits) code m)).setting = m.setting :=
  Ends.setting (statements_like (T := Eq) (M := Eq) (E := Eq)
    (Level.ofLimits_like Token.sameText_of_eq (fun _ _ _ e => congrArg _ e) limits)
    (Stmt.allLike_same code) m m (m.like_refl (fun _ => rfl) fun _ => rfl))

theorem program_setting (limits : Limits) (code : List (Stmt Nat)) (m : Machine) :
    (final (program (.ofLimits limits) code m)).setting = (Machine.globals, m.table) := by
  have inside := congrArg Prod.snd (statements_setting limits code m)
  unfold program ensuring
  generalize statements (.ofLimits limits) code m = r at inside ⊢
  cases r with
  | ok _ _ | error _ _ => exact congrArg (Machine.globals, ·) inside

theorem statements_append (level : Level) (p q : List (Stmt Nat)) :
    statements level (p ++ q) = statements level p >>= fun _ => statements level q := by
  induction p with
  | nil => rw [List.nil_append, statements, pure_bind]
  | cons s p ih => simp only [List.cons_append, statements, ih, bind_assoc]

/-- A program that has gone through is forgotten but for the machine. -/
theorem program_append {p q : List (Stmt Nat)} (home : m.current = Machine.globals)
    (h : program (.ofLimits limits) p m = .ok () m') :
    program (.ofLimits limits) (p ++ q) m = program (.ofLimits limits) q m' := by
  have inside := congrArg Prod.fst (statements_setting limits p m)
  have joined : statements (.ofLimits limits) (p ++ q) m =
      EStateM.bind (statements (.ofLimits limits) p) (fun _ => statements (.ofLimits limits) q) m := by
    rw [statements_append]
    rfl
  unfold program ensuring at h ⊢
  rw [joined, EStateM.bind]
  generalize statements (.ofLimits limits) p m = r at h inside ⊢
  cases r with
  | error e after => cases h
  | ok _ after =>
    have back : { after with current := Machine.globals } = after := by
      rw [← home, ← show after.current = m.current from inside]
    have same : { after with current := Machine.globals } = m' := (EStateM.Result.ok.inj h).2
    rw [← same, back]

end Run

/-! ## Machines with other tables -/

theorem Closure.Like.mono {U : Token → Token → Prop} {N : Nat → Nat → Prop}
    (hT : ∀ t u, T t u → U t u) (hM : ∀ n n', M n n' → N n n') {f f' : Closure} (h : f.Like T M f') :
    f.Like U N f' :=
  ⟨Routine.like_mono hT hM f.routine h.routine, h.scope, h.isInitializer⟩

/-- Likeness of the functions goes over to weaker relations. Tables and events may be exchanged. -/
theorem Machine.Like.exchange {U : Token → Token → Prop} {N : Nat → Nat → Prop}
    {F : Option (Array Event) → Option (Array Event) → Prop} (h : m.Like T M E m')
    (hT : ∀ t u, T t u → U t u) (hM : ∀ n n', M n n' → N n n') {t t' : Table}
    (table : ∀ n n', N n n' → t'.hops? n' = t.hops? n) {e e' : Option (Array Event)} (events : F e e') :
    Machine.Like U N F { m with table := t, events := e } { m' with table := t', events := e' } where
  scopes := h.scopes
  functions f := by
    have found := h.functions f
    dsimp only
    generalize m.functions.get? f = r at found
    generalize m'.functions.get? f = r' at found
    cases found with
    | none => exact .none
    | some like => exact .some (like.mono hT hM)
  functionCount := h.functionCount
  classes := h.classes
  instances := h.instances
  current := h.current
  table := table
  clock := h.clock
  output := h.output
  events := events

theorem Table.recordAll_append (t : Table) (first second : List Entry) :
    t.recordAll (first ++ second) = (t.recordAll first).recordAll second :=
  List.foldl_append

/-- Marks that have been given out. -/
def Given (next n n' : Nat) : Prop := n = n' ∧ n < next

theorem Given.one {next m m' n n' : Nat} (h : Given next m m') (k : Given next n n') : m' = n' ↔ m = n := by
  rw [h.1, k.1]

theorem Given.relates (first next : Nat) : Relates (Given next) 0 first next := fun _ _ h => ⟨rfl, h⟩

theorem number_given (program : List (Stmt Unit)) (n : Nat) :
    n ≤ (Stmt.numberAll program n).2 ∧ List.Forall₂ (Stmt.Like Eq (Given (Stmt.numberAll program n).2))
      (Stmt.numberAll program n).1 (Stmt.numberAll program n).1 := by
  obtain ⟨grows, -, like⟩ := Stmt.numberAll_like (M := Given (Stmt.numberAll program n).2) (d := 0)
    program (Stmt.allLike_same program) n
  exact ⟨grows, like (Given.relates _ _)⟩

/-- The entries of a program are for its own marks. -/
theorem resolve_marks (code : List (Stmt Nat)) :
    ∀ e ∈ (resolve code).entries, e.reference.mark ∈ Stmt.allMarks code := by
  obtain ⟨new, same, marks⟩ := (Stmt.resolveAll_adds code .start).entries
  have same : (resolve code).entries = new := same
  exact same ▸ marks

/-- The entries of a program that is numbered from a mark on, also in a like one. -/
theorem resolve_late (program : List (Stmt Unit)) (n : Nat) {new : List Entry}
    (h : List.Forall₂ (Entry.Like T Eq) (resolve (Stmt.numberAll program n).1).entries new) :
    ∀ e ∈ new, n ≤ e.reference.mark := by
  have marks := resolve_marks (Stmt.numberAll program n).1
  generalize (resolve (Stmt.numberAll program n).1).entries = entries at h marks
  induction h with
  | nil => exact fun _ m => absurd m List.not_mem_nil
  | @cons e e' _ _ he _ ih =>
    obtain ⟨mark, marks⟩ := List.forall_mem_cons.mp marks
    refine List.forall_mem_cons.mpr ⟨?_, ih marks⟩
    rw [← he.reference.mark]
    exact ((Stmt.numberAll_spans program n).mem mark).1

/-! ## A second program -/

/-- Events, and the same behind others. -/
def EventsBehind (before : Array Event) (events events' : Option (Array Event)) : Prop :=
  events' = events.map (before ++ ·)

theorem EventsBehind.push {before : Array Event} {events events' : Option (Array Event)}
    (h : EventsBehind before events events') (e : Event) :
    EventsBehind before (events.map (·.push e)) (events'.map (·.push e)) := by
  rw [EventsBehind, show events' = _ from h]
  cases events with
  | none => rfl
  | some events => exact congrArg some Array.push_append

theorem EventsBehind.taken (events : Option (Array Event)) :
    EventsBehind (events.getD #[]) (events.map fun _ => #[]) events := by
  cases events with
  | none => rfl
  | some events => exact congrArg some (Array.append_empty).symm

theorem EventsBehind.forgotten {before : Array Event} {events events' : Option (Array Event)}
    (h : EventsBehind before events events') : events'.map (fun _ => #[]) = events.map fun _ => (#[] : Array Event) := by
  rw [show events' = _ from h, Option.map_map]
  rfl

namespace Run

/-- Going through a program on two machines that know the same of the marks given so far. -/
theorem program_given {next : Nat} {p : List (Stmt Nat)} {after : Machine}
    (hp : List.Forall₂ (Stmt.Like Eq (Given next)) p p) (start : m.Like Eq (Given next) Eq m')
    (ran : program (.ofLimits limits) p m = .ok () after) :
    ∃ after', program (.ofLimits limits) p m' = .ok () after' ∧
      after.Like Eq (Given next) Eq after' ∧ after.table = m.table ∧ after'.table = m'.table := by
  have level := Level.ofLimits_like (T := Eq) (M := Given next) (E := Eq) Token.sameText_of_eq
    (fun _ _ _ e => congrArg _ e) limits
  have ends := program_like level hp start
  have table := congrArg Prod.snd (program_setting limits p m)
  have table' := congrArg Prod.snd (program_setting limits p m')
  rw [ran] at ends table
  generalize program (.ofLimits limits) p m' = r at ends table' ⊢
  cases ends with
  | ok _ like _ => exact ⟨_, rfl, like, table, table'⟩

/-- The rest of a longer program runs as by itself, also if its addresses have been there from
the beginning. -/
theorem program_behind (hT : ∀ t u, T t u → t.SameText u) (refl : ∀ t, T t t) {next : Nat}
    {p q q' : List (Stmt Nat)} {first entries new : List Entry} {t : Table} {after : Machine}
    (home : m.current = Machine.globals) (given : m.Like Eq (Given next) Eq m)
    (hp : List.Forall₂ (Stmt.Like Eq (Given next)) p p) (hq : List.Forall₂ (Stmt.Like T Eq) q q')
    (he : List.Forall₂ (Entry.Like T Eq) entries new) (late : ∀ e ∈ new, next ≤ e.reference.mark)
    (ran : program (.ofLimits limits) p { m with table := t.recordAll first } = .ok () after) :
    Ends T Eq (EventsBehind (after.events.getD #[])) Eq (Machine.globals, after.table.recordAll entries)
      (program (.ofLimits limits) q
        { after with table := after.table.recordAll entries, events := after.events.map fun _ => #[] })
      (program (.ofLimits limits) (p ++ q') { m with table := t.recordAll (first ++ new) }) := by
  have early (n n' : Nat) (g : Given next n n') :
      (t.recordAll (first ++ new)).hops? n' = (t.recordAll first).hops? n := by
    rw [Table.recordAll_append, ← g.1]
    exact Table.hops?_recordAll_of_ne fun e m => Nat.ne_of_gt (Nat.lt_of_lt_of_le g.2 (late e m))
  obtain ⟨after', went, like, table, table'⟩ :=
    program_given hp (given.exchange (fun _ _ e => e) (fun _ _ g => g) early rfl) ran
  have joined := program_append (q := q') (m := { m with table := t.recordAll (first ++ new) }) home went
  rw [joined]
  have known (n n' : Nat) (e : n = n') :
      after'.table.hops? n' = (after.table.recordAll entries).hops? n := by
    rw [table, table', Table.recordAll_append]
    exact Table.recordAll_like (fun _ _ _ _ e₁ e₂ => by rw [e₁, e₂]) he _ _ (fun _ _ e => e ▸ rfl) n n' e
  have events : EventsBehind (after.events.getD #[]) (after.events.map fun _ => #[]) after'.events :=
    like.events ▸ .taken after.events
  have start := like.exchange (U := T) (fun t _ e => e ▸ refl t) (fun _ _ g => g.1) known events
  exact program_like (Level.ofLimits_like hT (fun _ _ e h => h.push e) limits) hq start

end Run

/-! ## Interpreters between two programs -/

namespace Interpreter

/-- No program is running, and functions hold no marks but those that have been given out. -/
structure Idle (i : Interpreter) : Prop where
  home : i.machine.current = Machine.globals
  given : i.Like Eq (Given i.nextMark) Eq i

variable {i i' : Interpreter}

theorem execute_eq (i : Interpreter) (code : List (Stmt Nat)) :
    (i.execute code).1 = { i with machine := Run.final (Run.program (.ofLimits i.limits) code i.machine) } := by
  unfold execute
  split <;> rename_i h <;> rw [h] <;> rfl

theorem perform_eq (i : Interpreter) {source : String} {program : List (Stmt Unit)}
    (h : (parse (scan source).tokens).statements = program) : i.perform source =
      let numbered := Stmt.numberAll program i.nextMark
      let table := i.machine.table.recordAll (resolve numbered.1).entries
      Interpreter.execute ⟨i.limits, { i.machine with table }, numbered.2⟩ numbered.1 := by
  unfold perform
  rw [h]
  rfl

theorem execute_home (i : Interpreter) (code : List (Stmt Nat)) :
    (i.execute code).1.machine.current = Machine.globals := by
  rw [execute_eq]
  exact congrArg Prod.fst (Run.program_setting i.limits code i.machine)

theorem Idle.start (limits : Limits) (reading : Nat → Float) (recording : Bool) :
    (Interpreter.start limits reading recording).Idle := by
  refine ⟨rfl, rfl, ?_, rfl⟩
  exact ⟨rfl, fun _ => .none, rfl, rfl, rfl, rfl, fun _ _ h => congrArg _ h.1.symm, rfl, rfl, rfl⟩

theorem Idle.takeEvents (h : i.Idle) : i.takeEvents.2.Idle :=
  ⟨h.home, h.given.takeEvents fun _ _ e => congrArg _ e⟩

theorem Idle.grow (h : i.Idle) {next : Nat} (grows : i.nextMark ≤ next) : i.Like Eq (Given next) Eq i where
  limits := rfl
  machine := h.given.machine.exchange (fun _ _ e => e) (fun _ _ g => ⟨g.1, Nat.lt_of_lt_of_le g.2 grows⟩)
    (fun _ _ g => congrArg _ g.1.symm) rfl
  nextMark := rfl

theorem number_nextMark (i : Interpreter) (program : List (Stmt Unit)) :
    (i.number program).2.nextMark = (Stmt.numberAll program i.nextMark).2 := rfl

theorem perform_nextMark (i : Interpreter) (source : String) :
    (i.perform source).1.nextMark = (i.number (parse (scan source).tokens).statements).2.nextMark := by
  rw [perform_eq i rfl]
  dsimp only
  rw [execute_eq, number_nextMark]

theorem Idle.perform (h : i.Idle) (source : String) : (i.perform source).1.Idle := by
  have like := Stmt.allLike_same (parse (scan source).tokens).statements
  have grows := (number_given (parse (scan source).tokens).statements i.nextMark).1
  rw [← number_nextMark] at grows
  have ran := (h.grow grows).perform Token.sameText_of_eq (fun _ _ _ e => congrArg _ e) like
    (fun _ _ _ _ => Given.one) (Given.relates _ _)
  rw [← perform_nextMark i source] at ran
  refine ⟨?_, ran.1⟩
  rw [perform_eq i rfl]
  dsimp only
  rw [execute_home]

theorem execute_of_none {code : List (Stmt Nat)} (h : (i.execute code).2 = none) :
    ∃ after, Run.program (.ofLimits i.limits) code i.machine = .ok () after ∧
      (i.execute code).1 = { i with machine := after } := by
  unfold execute at h ⊢
  generalize Run.program (.ofLimits i.limits) code i.machine = r at h ⊢
  cases r with
  | ok _ after => exact ⟨after, rfl, rfl⟩
  | error _ _ => cases h

/-- A source that is read as the programs of two others does what these do one after the other. -/
theorem Idle.perform_joined (h : i.Idle) (hT : ∀ t u, T t u → t.SameText u) (refl : ∀ t, T t t)
    {a b joint : String} {program : List (Stmt Unit)}
    (statements : (parse (scan joint).tokens).statements = (parse (scan a).tokens).statements ++ program)
    (like : List.Forall₂ (Stmt.Like T Eq) (parse (scan b).tokens).statements program)
    (quiet : (resolution a).errors = []) (ran : (i.perform a).2 = none) :
    let between := (i.perform a).1.takeEvents
    (between.2.perform b).1.Like T Eq (EventsBehind between.1) (i.perform joint).1 ∧
      Option.Rel (Fault.Like T) (between.2.perform b).2 (i.perform joint).2 := by
  have wellFormed : Stmt.AllWellFormed (fun _ => True) (parse (scan a).tokens).statements :=
    parse_wellFormed fun _ _ => trivial
  rw [resolution, ← (resolve_number _ i.nextMark).1] at quiet
  rw [perform_eq i rfl] at ran ⊢
  rw [perform_eq i statements]
  dsimp only
  rw [perform_eq _ rfl]
  generalize (parse (scan a).tokens).statements = p at *
  generalize (parse (scan b).tokens).statements = q at *
  obtain ⟨grows, given⟩ := number_given p i.nextMark
  obtain ⟨-, next, numbered⟩ := Stmt.numberAll_like (T := T) (M := Eq) (d := 0) q like
    (Stmt.numberAll p i.nextMark).2
  have numbered := numbered fun _ _ _ => rfl
  rw [Nat.add_zero] at next numbered
  obtain ⟨new, entries, found, -⟩ := resolve_append hT (Stmt.numberAll_wellFormed p i.nextMark wellFormed)
    quiet numbered
  obtain ⟨after, went, rest⟩ := execute_of_none ran
  have ends := Run.program_behind hT refl h.home (h.grow grows).machine given numbered found
    (resolve_late q _ found) went
  rw [rest, Stmt.numberAll_append]
  dsimp only [takeEvents]
  rw [entries]
  apply execute_ends
  case limits => rfl
  case next => exact next
  case ends => exact ends

end Interpreter

theorem Session.Reachable.idle {s : Session} (h : s.Reachable) : s.interpreter.Idle := by
  induction h with
  | start host _ _ verbose reading => exact .start host.limits reading verbose
  | @run s h source ih =>
    obtain same | ⟨-, -, after⟩ := run_performs h.fatal source
    · exact same ▸ ih
    · rw [after]
      exact (ih.perform source).takeEvents
  | reset _ ih => exact ih

end Lox
