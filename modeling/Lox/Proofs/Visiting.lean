import Lox.Proofs.Sessions
import Lox.Proofs.Uniformity

/-! # What a run visits

A run evaluates expressions and enters routines in states, and it comes to the same ones
whether they are watched for or not. A watch that is set for none of them changes nothing,
and any other stops the run at one of them. So what is shown of a run that stops whenever it
leaves a set of deeds holds of the run itself, and of the state of each deed. -/

namespace Lox

namespace Run

variable {α β : Type} {m : Machine} {V : Deed → Machine → Prop}

/-- Begun in the given state, a run comes to do the given deeds. Only the current scope is
another when one of them has stopped it. -/
structure Visits (x : Watch → Run α) (m : Machine) (V : Deed → Machine → Prop) : Prop where
  passed (w : Watch) (h : ∀ d m', V d m' → ¬ w.stops d m') : x w m = x .idle m
  stopped (stops : Deed → Machine → Bool) {d : Deed} {m' : Machine} (h : V d m') (watched : stops d m') :
    ∃ d m' c, V d m' ∧ stops d m' ∧ ∀ stop, x ⟨stops, stop⟩ m = .error stop { m' with current := c }

def Visiting (x : Watch → Run α) : Prop := ∀ m, ∃ V, Visits x m V

theorem visiting_same (act : Run α) : Visiting fun _ => act :=
  fun _ => ⟨fun _ _ => False, fun _ _ => rfl, fun _ _ _ h => h.elim⟩

namespace Visits

variable {x : Watch → Run α} {f : Watch → α → Run β} {U : Deed → Machine → Prop}

/-- A run that goes on visits what its first part does and what the rest does. -/
theorem bind_ok {a : α} {m₁ : Machine} (first : Visits x m V) (plain : x .idle m = .ok a m₁)
    (rest : Visits (fun w => f w a) m₁ U) :
    Visits (fun w => x w >>= f w) m fun e m' => V e m' ∨ U e m' where
  passed w h := by
    have before := first.passed w fun e m' hv => h e m' (.inl hv)
    rw [Run.bind_ok (before.trans plain), Run.bind_ok plain]
    exact rest.passed w fun e m' hu => h e m' (.inr hu)
  stopped stops e m' h watched := by
    by_cases early : ∃ e m', V e m' ∧ stops e m'
    · obtain ⟨e, m', visited, watched⟩ := early
      obtain ⟨e, m', c, visited, watched, error⟩ := first.stopped stops visited watched
      exact ⟨e, m', c, .inl visited, watched, fun stop => Run.bind_error (error stop)⟩
    · have late : U e m' := h.resolve_left fun hv => early ⟨e, m', hv, watched⟩
      obtain ⟨e, m', c, visited, watched, error⟩ := rest.stopped stops late watched
      refine ⟨e, m', c, .inr visited, watched, fun stop => ?_⟩
      have before := first.passed ⟨stops, stop⟩ fun e m' hv hs => early ⟨e, m', hv, hs⟩
      rw [Run.bind_ok (before.trans plain)]
      exact error stop

/-- A run that does not go on visits what its first part does. -/
theorem bind_error {fault : Fault} {after : Machine} (first : Visits x m V)
    (plain : x .idle m = .error fault after) : Visits (fun w => x w >>= f w) m V where
  passed w h := by rw [Run.bind_error ((first.passed w h).trans plain), Run.bind_error plain]
  stopped stops e m' h watched := by
    obtain ⟨e, m', c, visited, watched, error⟩ := first.stopped stops h watched
    exact ⟨e, m', c, visited, watched, fun stop => Run.bind_error (error stop)⟩

theorem stopped_only {d : Deed} {m' : Machine} (h : Visits x m V) (visited : V d m') :
    ∃ c, ∀ stop, x (.only d m' stop) m = .error stop { m' with current := c } := by
  have here : (Watch.only d m' .dangling).stops d m' := Watch.of_stops.mpr ⟨rfl, rfl⟩
  obtain ⟨y, z, c, -, stops, error⟩ := h.stopped _ visited here
  obtain ⟨rfl, rfl⟩ := Watch.of_stops.mp stops
  exact ⟨c, error⟩

theorem passed_only {d : Deed} {m' : Machine} (h : Visits x m V) (stop : Fault) (missed : ¬ V d m') :
    x (.only d m' stop) m = x .idle m := by
  refine h.passed _ fun y z visited stops => ?_
  obtain ⟨rfl, rfl⟩ := Watch.of_stops.mp stops
  exact missed visited

theorem ensuring (h : Visits x m V) (scope : Ref .scope) :
    Visits (fun w => ensuring (x w) fun after => { after with current := scope }) m V where
  passed w hw := by rw [Run.ensuring, Run.ensuring, h.passed w hw]
  stopped stops _ _ hv hs := by
    obtain ⟨e, m', c, visited, watched, error⟩ := h.stopped stops hv hs
    exact ⟨e, m', scope, visited, watched, fun stop => by rw [Run.ensuring, error stop]⟩

theorem within {scope : Ref .scope} (h : Visits x { m with current := scope } V) :
    Visits (fun w => within scope (x w)) m V := by
  obtain ⟨passed, stopped⟩ := h.ensuring m.current
  exact ⟨passed, stopped⟩

/-- A deed is visited itself, and then what it does. -/
theorem before (d : Deed) (h : Visits x m V) :
    Visits (fun w => w.before d (x w)) m fun y z => y = d ∧ z = m ∨ V y z where
  passed w hw := by
    rw [Watch.before_passed (hw d m (.inl ⟨rfl, rfl⟩)), Watch.before_idle]
    exact h.passed w fun y z hv => hw y z (.inr hv)
  stopped stops y z hv watched := by
    by_cases now : stops d m
    · exact ⟨d, m, m.current, .inl ⟨rfl, rfl⟩, now, fun stop => Watch.before_stopped (w := ⟨stops, stop⟩) now⟩
    · have later : V y z := hv.resolve_left fun same => now (same.1 ▸ same.2 ▸ watched)
      obtain ⟨y, z, c, visited, watched, error⟩ := h.stopped stops later watched
      exact ⟨y, z, c, .inr visited, watched, fun stop =>
        (Watch.before_passed (w := ⟨stops, stop⟩) now).trans (error stop)⟩

end Visits

theorem Visiting.bind {x : Watch → Run α} {f : Watch → α → Run β} (hx : Visiting x)
    (hf : ∀ a, Visiting fun w => f w a) : Visiting fun w => x w >>= f w := by
  intro m
  obtain ⟨V, first⟩ := hx m
  cases plain : x .idle m with
  | error fault after => exact ⟨V, first.bind_error plain⟩
  | ok a m₁ =>
    obtain ⟨U, rest⟩ := hf a m₁
    exact ⟨_, first.bind_ok plain rest⟩

theorem closed_visiting : Closed fun _ x => Visiting x where
  result a := visiting_same (pure a)
  fault _ e := visiting_same (throw e)
  look := visiting_same get
  bind := Visiting.bind
  print text := visiting_same (Run.print text)
  record event := visiting_same (Run.record event)
  readClock := visiting_same Run.readClock
  newScope bindings outer := visiting_same (Run.newScope bindings outer)
  newFunction f := visiting_same (Run.newFunction f)
  newClass k := visiting_same (Run.newClass k)
  newInstance i := visiting_same (Run.newInstance i)
  setField i name v := visiting_same (Run.setField i name v)
  write scope name v := visiting_same _
  define name v := visiting_same (Run.define name v)
  within scope _ hx m := by
    obtain ⟨V, visits⟩ := hx { m with current := scope }
    exact ⟨V, visits.within⟩

theorem Visiting.before {x : Watch → Run α} (d : Deed) (hx : Visiting x) :
    Visiting fun w => w.before d (x w) := fun m => (hx m).elim fun _ visits => ⟨_, visits.before d⟩

theorem visiting_level (rounds n : Nat) :
    (∀ e, Visiting fun w => (w.level rounds n).expr e) ∧
      ∀ s, Visiting fun w => (w.level rounds n).stmt s := by
  induction n with
  | zero => exact ⟨fun _ => visiting_same _, fun _ => visiting_same _⟩
  | succ n ih =>
    let below : Watch → Level := fun w => w.level rounds n
    have enter (c : Closure) (arguments : List Value) : Visiting fun w => w.entering (below w) c arguments :=
      (closed_visiting.enter below ih.2 c arguments).before _
    exact ⟨fun e => (closed_visiting.evaluatesBy below ih.1 (fun w => w.entering (below w)) enter e).before _,
      closed_visiting.executes below ih.1 ih.2 rounds⟩

namespace Visiting

variable {x : Watch → Run α} {w : Watch} {m' : Machine}

/-- Unless the watch stops it, a run does what it does without. -/
theorem same_or_stopped (h : Visiting x) (w : Watch) (m : Machine) :
    x w m = x .idle m ∨ ∃ m', x w m = .error w.stop m' := by
  obtain ⟨V, visits⟩ := h m
  by_cases met : ∃ e y, V e y ∧ w.stops e y
  · obtain ⟨e, y, visited, watched⟩ := met
    obtain ⟨_, _, _, -, -, error⟩ := visits.stopped w.stops visited watched
    exact .inr ⟨_, error w.stop⟩
  · exact .inl (visits.passed w fun e y hv hs => met ⟨e, y, hv, hs⟩)

theorem of_ok (h : Visiting x) {a : α} (hr : x w m = .ok a m') : x .idle m = .ok a m' := by
  obtain same | ⟨after, stopped⟩ := h.same_or_stopped w m
  · exact same.symm.trans hr
  · rw [stopped] at hr
    cases hr

theorem of_error (h : Visiting x) {fault : Fault} (hr : x w m = .error fault m') (hf : fault ≠ w.stop) :
    x .idle m = .error fault m' := by
  obtain same | ⟨after, stopped⟩ := h.same_or_stopped w m
  · exact same.symm.trans hr
  · rw [stopped] at hr
    cases hr
    exact absurd rfl hf

end Visiting

end Run

/-! ## Without the watch -/

namespace Watch

open Run

variable {w : Watch} {m m' : Machine} {rounds n : Nat} {fault : Fault}

theorem expr_of_ok {e : Expr Nat} {v : Value} (h : (w.level rounds n).expr e m = .ok v m') :
    (Level.ofDepth rounds n).expr e m = .ok v m' := by
  rw [← level_idle]
  exact ((visiting_level rounds n).1 e).of_ok h

theorem expr_of_error {e : Expr Nat} (h : (w.level rounds n).expr e m = .error fault m')
    (hf : fault ≠ w.stop) : (Level.ofDepth rounds n).expr e m = .error fault m' := by
  rw [← level_idle]
  exact ((visiting_level rounds n).1 e).of_error h hf

theorem stmt_of_ok {s : Stmt Nat} {o : Outcome} (h : (w.level rounds n).stmt s m = .ok o m') :
    (Level.ofDepth rounds n).stmt s m = .ok o m' := by
  rw [← level_idle]
  exact ((visiting_level rounds n).2 s).of_ok h

theorem stmt_of_error {s : Stmt Nat} (h : (w.level rounds n).stmt s m = .error fault m')
    (hf : fault ≠ w.stop) : (Level.ofDepth rounds n).stmt s m = .error fault m' := by
  rw [← level_idle]
  exact ((visiting_level rounds n).2 s).of_error h hf

theorem statements_of_ok {code : List (Stmt Nat)} (h : statements (w.level rounds n) code m = .ok () m') :
    statements (.ofDepth rounds n) code m = .ok () m' := by
  rw [← level_idle]
  exact (closed_visiting.statements (fun w : Watch => w.level rounds n) (visiting_level rounds n).2
    code).of_ok h

end Watch

/-! ## Programs -/

section Programs

variable {limits : Limits} {code : List (Stmt Nat)} {m : Machine}

namespace Run

/-- The statements of a program visit what it comes to do. -/
theorem visits_statements (limits : Limits) (code : List (Stmt Nat)) (m : Machine) :
    Visits (fun w => statements (w.level limits.rounds limits.depth) code) m (ComesTo limits code m) := by
  have all := visiting_level limits.rounds limits.depth
  obtain ⟨V, visits⟩ := closed_visiting.statements (fun w : Watch => w.level limits.rounds limits.depth)
    all.2 code m
  have whole := visits.ensuring Machine.globals
  have same : V = ComesTo limits code m := by
    funext d y
    refine propext ⟨fun visited stop => ?_, fun comes => ?_⟩
    · obtain ⟨c, error⟩ := whole.stopped_only visited
      exact ⟨_, error stop⟩
    · by_cases visited : V d y
      · exact visited
      -- a watch that nothing sets off does not raise one fault and another
      have through : ∀ stop, ∃ after, program (.ofLimits limits) code m = .error stop after := by
        intro stop
        obtain ⟨after, error⟩ := comes stop
        have plain := (whole.passed_only stop visited).symm.trans error
        rw [Watch.level_idle] at plain
        exact ⟨after, plain⟩
      obtain ⟨_, one⟩ := through .dangling
      obtain ⟨_, other⟩ := through .tooDeep
      rw [one] at other
      cases other
  rwa [same] at visits

end Run

/-- A program that does nothing of what is watched for runs as without the watch. -/
theorem Watch.statements_eq {w : Watch} (h : ∀ d m', ComesTo limits code m d m' → ¬ w.stops d m') :
    Run.statements (w.level limits.rounds limits.depth) code m = Run.statements (.ofLimits limits) code m := by
  have passed := (Run.visits_statements limits code m).passed w h
  rwa [level_idle] at passed

theorem Watch.program_eq {w : Watch} (h : ∀ d m', ComesTo limits code m d m' → ¬ w.stops d m') :
    Run.program (w.level limits.rounds limits.depth) code m = Run.program (.ofLimits limits) code m := by
  rw [Run.program, Run.ensuring, statements_eq h]
  rfl

/-- A watch that changes a run is for something that the run comes to do. -/
theorem Watch.exists_comesTo {w : Watch} (h : Run.statements (w.level limits.rounds limits.depth) code m ≠
    Run.statements (.ofLimits limits) code m) : ∃ d m', ComesTo limits code m d m' ∧ w.stops d m' :=
  Classical.byContradiction fun none =>
    h (statements_eq fun d m' comes stops => none ⟨d, m', comes, stops⟩)

theorem ComesTo.stopped {d : Deed} {m' : Machine} (h : ComesTo limits code m d m') : ∃ c, ∀ stop,
    Run.statements ((Watch.only d m' stop).level limits.rounds limits.depth) code m =
      .error stop { m' with current := c } := (Run.visits_statements limits code m).stopped_only h

/-- A watch that is set for whatever a program does not come to. -/
noncomputable def Watch.leaving (limits : Limits) (code : List (Stmt Nat)) (m : Machine) : Fault → Watch :=
  .of fun d m' => ¬ ComesTo limits code m d m'

theorem Watch.comesTo_of_not_leaving {stop : Fault} {d : Deed} {m' : Machine}
    (h : ¬ (leaving limits code m stop).stops d m') : ComesTo limits code m d m' :=
  Classical.not_not.mp fun missed => h (of_stops.mpr missed)

/-- It does not stop the program. -/
theorem Watch.statements_leaving (limits : Limits) (code : List (Stmt Nat)) (m : Machine) (stop : Fault) :
    Run.statements ((leaving limits code m stop).level limits.rounds limits.depth) code m =
      Run.statements (.ofLimits limits) code m :=
  statements_eq fun _ _ comes stops => of_stops.mp stops comes

/-- A watch for certain deeds in any state. -/
def Watch.forDeeds (test : Deed → Bool) : Watch := ⟨fun d _ => test d, .dangling⟩

/-- The watch cuts a program short that goes through without it. -/
def Watch.cuts (w : Watch) (limits : Limits) (code : List (Stmt Nat)) (m : Machine) : Bool :=
  match Run.statements (w.level limits.rounds limits.depth) code m,
    Run.statements (.ofLimits limits) code m with
  | .error _ _, .ok _ _ => true
  | _, _ => false

theorem Watch.exists_of_cuts {w : Watch} (h : w.cuts limits code m = true) :
    ∃ d m', ComesTo limits code m d m' ∧ w.stops d m' := by
  refine exists_comesTo fun same => ?_
  rw [cuts, same] at h
  split at h
  · rename_i stopped through
    cases stopped.symm.trans through
  · cases h

/-- So a watched run of a unit tells what the unit comes to do. -/
theorem Interpreter.exists_comesTo (i : Interpreter) (source : String) (test : Deed → Bool)
    (h : (i.prepare? source).any (fun p => (Watch.forDeeds test).cuts p.2.limits p.1 p.2.machine) = true) :
    ∃ code j d m, i.prepare? source = some (code, j) ∧ ComesTo j.limits code j.machine d m ∧ test d = true := by
  obtain ⟨⟨code, j⟩, hp, cut⟩ := (Option.any_eq_true ..).mp h
  obtain ⟨d, m, comes, stops⟩ := Watch.exists_of_cuts cut
  exact ⟨code, j, d, m, hp, comes, stops⟩

end Programs

end Lox
