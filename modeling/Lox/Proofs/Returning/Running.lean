import Lox.Proofs.Lexical
import Lox.Proofs.Returning.Shedding

/-! # Only live code is run

A program does what its live part does: it goes through the same states, but for the dead
code in its functions, and ends in the same way. This is said of programs that are run by
what is in scope, where the marks of references do not count. -/

namespace Lox.Lexical

variable {μ α β γ δ : Type}

def Closure.live (c : Closure μ) : Closure Unit := ⟨Routine.live c.routine, c.env, c.isInitializer⟩

theorem Closure.live_name (c : Closure μ) : c.live.name = c.name :=
  congrArg Token.lexeme (Routine.live_name c.routine)

theorem Closure.live_arity (c : Closure μ) : c.live.arity = c.arity :=
  congrArg List.length (Routine.live_params c.routine)

/-- A state with the live parts of its functions. -/
def State.live (s : State μ) : State Unit where
  globals := s.globals
  store := s.store
  functions := ⟨s.functions.cells.map Closure.live⟩
  classes := s.classes
  instances := s.instances
  env := s.env
  clock := s.clock
  output := s.output

namespace State

theorem live_function (s : State μ) (f : Ref .function) :
    s.live.functions.get? f = (s.functions.get? f).map Closure.live :=
  Array.getElem?_map

theorem live_next (s : State μ) : s.live.functions.next = s.functions.next := by
  simp [live, Heap.next]

theorem live_display (s : State μ) (v : Value) : s.live.display v = s.display v := by
  cases v with
  | function f =>
    have names : Closure.name ∘ Closure.live = Closure.name (μ := μ) := funext Closure.live_name
    simp only [display, live_function, Option.map_map]
    exact congrArg (fun name => "<fn " ++ ((s.functions.get? f).map name).getD "" ++ ">") names
  | _ => rfl

end State

namespace Run

/-- The end of a run, for live code. -/
def liveResult (r : α → β) :
    EStateM.Result Fault (State μ) α → EStateM.Result Fault (State Unit) β
  | .ok a s => .ok (r a) s.live
  | .error e s => .error e s.live

/-- The second action does on a state with live code what the first one does on the whole. -/
def Live (r : α → β) (x : Run μ α) (y : Run Unit β) : Prop := ∀ s, y s.live = liveResult r (x s)

theorem live_pure (r : α → β) (a : α) : Live r (pure a : Run μ α) (pure (r a)) := fun _ => rfl

theorem live_throw (r : α → β) (e : Fault) : Live r (throw e : Run μ α) (throw e) := fun _ => rfl

theorem live_bind {r : α → β} {t : γ → δ} {x : Run μ α} {y : Run Unit β} {f : α → Run μ γ}
    {g : β → Run Unit δ} (hx : Live r x y) (hf : ∀ a, Live t (f a) (g (r a))) :
    Live t (x >>= f) (y >>= g) := by
  intro s
  have first := hx s
  change EStateM.bind y g s.live = liveResult t (EStateM.bind x f s)
  unfold EStateM.bind
  rw [first]
  cases x s with
  | ok a s' => exact hf a s'
  | error e s' => rfl

/-- An action that looks at the state first. -/
theorem live_get {r : α → β} {f : State μ → Run μ α} {g : State Unit → Run Unit β}
    (h : ∀ s, Live r (f s) (g s.live)) : Live r (get >>= f) (get >>= g) :=
  fun s => h s s

theorem live_modifyGet {r : α → β} {f : State μ → α × State μ} {g : State Unit → β × State Unit}
    (h : ∀ s, g s.live = (r (f s).1, (f s).2.live)) : Live r (modifyGet f) (modifyGet g) := by
  intro s
  change (match g s.live with | (a, s) => EStateM.Result.ok a s) = _
  rw [h]
  rfl

theorem live_modify {f : State μ → State μ} {g : State Unit → State Unit}
    (h : ∀ s, g s.live = (f s).live) : Live id (modify f) (modify g) :=
  live_modifyGet fun s => congrArg (PUnit.unit, ·) (h s)

theorem live_fail (r : α → β) (token : Token) (problem : RuntimeProblem) :
    Live r (fail token problem : Run μ α) (fail token problem) :=
  live_throw r _

theorem live_ofChecked (x : Except RuntimeError α) :
    Live id (ofChecked x : Run μ α) (ofChecked x) := by
  cases x with
  | ok a => exact live_pure id a
  | error e => exact live_throw id _

theorem live_deref (r : α → β) (found : Option α) :
    Live r (deref found : Run μ α) (deref (found.map r)) := by
  cases found with
  | none => exact live_throw r _
  | some a => exact live_pure r a

/-! ## Operations -/

theorem live_print (text : String) : Live id (print text : Run μ Unit) (print text) :=
  live_modify fun _ => rfl

theorem live_readClock : Live id (readClock : Run μ Float) readClock := live_modifyGet fun _ => rfl

theorem live_allocate (v : Option Value) : Live id (allocate v : Run μ Location) (allocate v) :=
  live_modifyGet fun _ => rfl

theorem live_newFunction (c : Closure μ) : Live id (newFunction c) (newFunction c.live) :=
  live_modifyGet fun s => Prod.ext s.live_next (by simp [State.live, Heap.push])

theorem live_newClass (k : Klass) : Live id (newClass k : Run μ _) (newClass k) :=
  live_modifyGet fun _ => rfl

theorem live_newInstance (i : Instance) : Live id (newInstance i : Run μ _) (newInstance i) :=
  live_modifyGet fun _ => rfl

theorem live_functionAt (f : Ref .function) :
    Live Closure.live (functionAt f : Run μ _) (functionAt f) :=
  live_get fun s => by
    rw [s.live_function]
    exact live_deref Closure.live _

theorem live_instanceAt (i : Ref .object) : Live id (instanceAt i : Run μ _) (instanceAt i) :=
  live_get fun s => by
    have same := live_deref (μ := μ) id (s.instances.get? i)
    rwa [Option.map_id] at same

theorem live_introduce (x : String) : Live id (introduce x : Run μ Unit) (introduce x) := by
  refine live_get fun s => ?_
  dsimp only [State.live]
  split
  · exact live_pure id ()
  · exact live_bind (live_allocate none) fun l => live_modify fun _ => rfl

theorem live_define (x : String) (v : Value) : Live id (define x v : Run μ Unit) (define x v) := by
  refine live_get fun s => ?_
  dsimp only [State.live]
  split
  · exact live_modify fun _ => rfl
  · split
    · exact live_modify fun _ => rfl
    · exact live_throw id _

theorem live_read (env : Env) (x : String) : Live id (read env x : Run μ Value) (read env x) := by
  refine live_get fun s => ?_
  dsimp only [State.live]
  split
  · exact live_pure id _
  · exact live_throw id _

theorem live_lookUp (name : Token) : Live id (lookUp name : Run μ Value) (lookUp name) := by
  refine live_get fun s => ?_
  dsimp only [State.live]
  split
  · exact live_read _ _
  · split
    · exact live_pure id _
    · exact live_fail id _ _

theorem live_assign (name : Token) (v : Value) : Live id (assign name v : Run μ Unit) (assign name v) := by
  refine live_get fun s => ?_
  dsimp only [State.live]
  split
  · exact live_modify fun _ => rfl
  · split
    · exact live_modify fun _ => rfl
    · exact live_fail id _ _

theorem live_within (env : Env) {x : Run μ α} {y : Run Unit α} (h : Live id x y) :
    Live id (within env x) (within env y) := by
  refine live_get fun s => live_bind (live_modify fun _ => rfl) fun _ => ?_
  intro s'
  have inside := h s'
  change ensuring y (fun t => { t with env := s.env }) s'.live = _
  unfold ensuring
  rw [inside]
  cases x s' <;> rfl

theorem live_newScope (values : List (String × Value)) :
    Live id (newScope values : Run μ _) (newScope values) := by
  unfold newScope
  generalize Bindings.empty = scope
  induction values generalizing scope with
  | nil => exact live_pure id scope
  | cons v rest ih =>
    rw [List.foldlM_cons, List.foldlM_cons]
    exact live_bind (live_bind (live_allocate _) fun l => live_pure id _) fun scope => ih scope

theorem live_bindMethod (f : Ref .function) (receiver : Value) :
    Live id (bind f receiver : Run μ _) (bind f receiver) :=
  live_bind (live_functionAt f) fun c => live_bind (live_newScope _) fun scope =>
    live_newFunction { c with env := scope :: c.env }

theorem live_method? (k : Ref .klass) (name : String) :
    Live id (method? k name : Run μ _) (method? k name) :=
  live_get fun _ => live_pure id _

theorem live_found {f : Option (Ref .function)} (receiver : Value) (name : Token) :
    Live id (match f with
        | some f => (do return .function (← bind f receiver) : Run μ Value)
        | none => fail name .undefinedProperty)
      (match f with
        | some f => (do return .function (← bind f receiver) : Run Unit Value)
        | none => fail name .undefinedProperty) := by
  cases f with
  | none => exact live_fail id _ _
  | some f => exact live_bind (live_bindMethod f receiver) fun _ => live_pure id _

theorem live_property (i : Ref .object) (name : Token) :
    Live id (property i name : Run μ Value) (property i name) := by
  refine live_bind (live_instanceAt i) fun object => ?_
  dsimp only [id]
  split
  · exact live_pure id _
  · exact live_bind (live_method? _ _) fun f => live_found _ _

theorem live_setField (i : Ref .object) (name : String) (v : Value) :
    Live id (setField i name v : Run μ Unit) (setField i name v) :=
  live_modify fun _ => rfl

theorem live_superMethod (name : Token) :
    Live id (superMethod name : Run μ Value) (superMethod name) := by
  refine live_get fun s => live_bind (live_read s.env _) fun parent =>
    live_bind (live_read s.env _) fun receiver => ?_
  cases parent with
  | klass k => exact live_bind (live_method? _ _) fun f => live_found _ _
  | _ => exact live_throw id _

end Run

/-- A level beside one that runs live code. No return on it is completed. -/
structure Level.Live (below : Level μ) (lower : Level Unit) : Prop where
  stmt : ∀ s, Run.Live id (below.stmt s) (lower.stmt s.live)
  expr : ∀ e, Run.Live id (below.expr e) (lower.expr e.bare)
  returns : ∀ keyword value s o s', below.stmt (.leave keyword value) s = .ok o s' →
    ∃ v, o = .returned v

namespace Level

open Lox.Lexical.Run

section Parts

variable {below : Level μ} {lower : Level Unit} (h : below.Live lower)
include h

/-- The rest of a row does not count if its first statement returns. -/
theorem Live.executeAll (row : List (Stmt μ)) :
    Run.Live id (below.executeAll row) (lower.executeAll (Stmt.liveRow row)) := by
  induction row with
  | nil => exact live_pure id _
  | cons first rest ih =>
    cases hr : first.isReturn with
    | false =>
      rw [Stmt.liveRow, hr, if_neg (by simp)]
      refine live_bind (h.stmt first) fun outcome => ?_
      cases outcome with
      | completed => exact ih
      | returned v => exact live_pure id _
    | true =>
      rw [Stmt.liveRow, hr, if_pos rfl]
      intro s
      have step := h.stmt first s
      change EStateM.bind (lower.stmt first.live) _ s.live =
        liveResult id (EStateM.bind (below.stmt first) _ s)
      unfold EStateM.bind
      rw [step]
      cases hs : below.stmt first s with
      | error e s' => rfl
      | ok o s' =>
        cases first with
        | leave keyword value =>
          obtain ⟨v, rfl⟩ := h.returns keyword value s o s' hs
          rfl
        | _ => cases hr

theorem Live.evaluateAll (es : List (Expr μ)) :
    Run.Live id (below.evaluateAll es) (lower.evaluateAll (Expr.bareAll es)) := by
  induction es with
  | nil => exact live_pure id _
  | cons e rest ih => exact live_bind (h.expr e) fun v => live_bind ih fun vs => live_pure id _

theorem Live.valueOf (e : Option (Expr μ)) :
    Run.Live id (below.valueOf e) (lower.valueOf (e.map (·.bare))) := by
  cases e with
  | none => exact live_pure id _
  | some e => exact h.expr e

theorem Live.cycle (condition : Expr μ) (body : Stmt μ) :
    ∀ n, Run.Live id (below.cycle condition body n) (lower.cycle condition.bare body.live n)
  | 0 => live_throw id _
  | n + 1 => by
    refine live_bind (h.expr condition) fun v => ?_
    change Run.Live id (if v.isTruthy then _ else _) (if v.isTruthy then _ else _)
    split
    · refine live_bind (h.stmt body) fun outcome => ?_
      cases outcome with
      | completed => exact Live.cycle condition body n
      | returned v => exact live_pure id _
    · exact live_pure id _

theorem Live.parentClass (parent : Option (Reference μ)) :
    Run.Live id (below.parentClass parent) (lower.parentClass (parent.map (·.bare))) := by
  cases parent with
  | none => exact live_pure id _
  | some r =>
    refine live_bind (h.expr (.name r)) fun v => ?_
    cases v with
    | klass k => exact live_pure id _
    | _ => exact live_fail id _ _

theorem Live.enter (c : Closure μ) (arguments : List Value) :
    Run.Live id (below.enter c arguments) (lower.enter c.live arguments) := by
  unfold Level.enter
  rw [show c.live.routine = Routine.live c.routine from rfl, Routine.live_params, Routine.live_body]
  refine live_bind (live_newScope _) fun scope =>
    live_bind (live_within (scope :: c.env) (h.executeAll c.routine.body)) fun outcome => ?_
  change Run.Live id (if c.isInitializer then _ else _) (if c.isInitializer then _ else _)
  split
  · exact live_read c.env _
  · cases outcome with
    | completed => exact live_pure id _
    | returned v => exact live_pure id _

theorem Live.construct (k : Ref .klass) (initializer : Option (Ref .function)) (arguments : List Value) :
    Run.Live id (below.construct k initializer arguments) (lower.construct k initializer arguments) := by
  refine live_bind (live_newInstance _) fun i => ?_
  cases initializer with
  | none => exact live_pure id _
  | some f =>
    exact live_bind (live_bindMethod f _) fun bound => live_bind (live_functionAt bound) fun c =>
      live_bind (h.enter c arguments) fun _ => live_pure id _

omit h in
theorem live_checkCount (paren : Token) (expected : Nat) (arguments : List Value) :
    Run.Live id (checkCount paren expected arguments : Run μ Unit)
      (checkCount paren expected arguments) := by
  unfold checkCount
  split
  · exact live_pure id _
  · exact live_fail id _ _

theorem Live.call (callee : Value) (paren : Token) (arguments : List Value) :
    Run.Live id (below.call callee paren arguments) (lower.call callee paren arguments) := by
  cases callee with
  | clock =>
    exact live_bind (live_checkCount _ _ _) fun _ => live_bind live_readClock fun _ => live_pure id _
  | function f =>
    refine live_bind (live_functionAt f) fun c => ?_
    rw [c.live_arity]
    exact live_bind (live_checkCount _ _ _) fun _ => h.enter c arguments
  | klass k =>
    refine live_bind (live_method? k _) fun initializer => ?_
    have proceed : ∀ n, Run.Live id
        (checkCount paren n arguments >>= fun _ => below.construct k initializer arguments)
        (checkCount paren n arguments >>= fun _ => lower.construct k initializer arguments) :=
      fun n => live_bind (live_checkCount paren n arguments) fun _ => h.construct k initializer arguments
    cases initializer with
    | none => exact proceed 0
    | some f =>
      refine live_bind (r := id) ?_ proceed
      refine live_bind (live_functionAt f) fun c => ?_
      exact c.live_arity ▸ live_pure id c.arity
  | nil | bool _ | number _ | string _ | object _ => exact live_fail id _ _

omit h in
theorem live_makeMethods (env : Env) (methods : List (Routine (Stmt μ))) :
    Run.Live id (makeMethods env methods) (makeMethods env (Routine.liveAll methods)) := by
  rw [Routine.liveAll_eq]
  unfold makeMethods
  generalize Bindings.empty = made
  induction methods generalizing made with
  | nil => exact live_pure id made
  | cons r rest ih =>
    rw [List.map_cons, List.foldlM_cons, List.foldlM_cons, Routine.live_name]
    exact live_bind (live_bind (live_newFunction ⟨r, env, _⟩) fun f => live_pure id _) fun made => ih made

omit h in
theorem live_methodEnv (parent : Option (Ref .klass)) :
    Run.Live id (methodEnv parent : Run μ Env) (methodEnv parent) := by
  refine live_get fun s => ?_
  cases parent with
  | none => exact live_pure id _
  | some k => exact live_bind (live_newScope _) fun scope => live_pure id (scope :: s.env)

theorem Live.declareClass (name : Token) (parent : Option (Reference μ))
    (methods : List (Routine (Stmt μ))) :
    Run.Live id (below.declareClass name parent methods)
      (lower.declareClass name (parent.map (·.bare)) (Routine.liveAll methods)) :=
  live_bind (live_introduce _) fun _ => live_bind (h.parentClass parent) fun parent =>
    live_bind (live_define _ _) fun _ => live_bind (live_methodEnv parent) fun env =>
      live_bind (live_makeMethods env methods) fun _ => live_bind (live_newClass _) fun _ =>
        live_define _ _

omit h in
theorem live_declareFunction (routine : Routine (Stmt μ)) :
    Run.Live id (declareFunction routine) (declareFunction (Routine.live routine)) := by
  unfold declareFunction
  rw [Routine.live_name]
  exact live_bind (live_introduce _) fun _ => live_get fun s =>
    live_bind (live_newFunction ⟨routine, s.env, false⟩) fun f => live_define _ _

theorem Live.evaluate (e : Expr μ) : Run.Live id (below.evaluate e) (lower.evaluate e.bare) := by
  cases e with
  | literal value => exact live_pure id _
  | grouping inner => exact h.expr inner
  | unary operator right => exact live_bind (h.expr right) fun v => live_ofChecked _
  | binary left operator right =>
    exact live_bind (h.expr left) fun l => live_bind (h.expr right) fun r => live_ofChecked _
  | logical left operator right =>
    refine live_bind (h.expr left) fun l => ?_
    change Run.Live id (if operator.settles l then _ else _) (if operator.settles l then _ else _)
    split
    · exact live_pure id _
    · exact h.expr right
  | name target => exact live_lookUp target.name
  | assign target value =>
    exact live_bind (h.expr value) fun v => live_bind (live_assign _ _) fun _ => live_pure id _
  | call callee paren arguments =>
    exact live_bind (h.expr callee) fun f => live_bind (h.evaluateAll arguments) fun vs =>
      h.call f paren vs
  | get object property =>
    refine live_bind (h.expr object) fun v => ?_
    cases v with
    | object i => exact live_property i property
    | _ => exact live_fail id _ _
  | set object property value =>
    refine live_bind (h.expr object) fun v => ?_
    cases v with
    | object i =>
      exact live_bind (h.expr value) fun v => live_bind (live_setField _ _ _) fun _ => live_pure id _
    | _ => exact live_fail id _ _
  | this keyword => exact live_lookUp keyword.name
  | super keyword method => exact live_superMethod method

theorem Live.execute (rounds : Nat) (s : Stmt μ) :
    Run.Live id (below.execute rounds s) (lower.execute rounds s.live) := by
  cases s with
  | expression value => exact live_bind (h.expr value) fun _ => live_pure id _
  | print value =>
    refine live_bind (h.expr value) fun v => live_get fun s => ?_
    rw [id, s.live_display]
    exact live_bind (live_print _) fun _ => live_pure id _
  | declare name initial =>
    exact live_bind (live_introduce _) fun _ => live_bind (h.valueOf initial) fun v =>
      live_bind (live_define _ _) fun _ => live_pure id _
  | block body => exact live_get fun s => live_within (.empty :: s.env) (h.executeAll body)
  | branch condition yes no =>
    refine live_bind (h.expr condition) fun v => ?_
    change Run.Live id (if v.isTruthy then _ else _) (if v.isTruthy then _ else _)
    split
    · exact h.stmt yes
    · cases no with
      | none => exact live_pure id _
      | some no => exact h.stmt no
  | loop condition body => exact h.cycle condition body rounds
  | function routine => exact live_bind (live_declareFunction routine) fun _ => live_pure id _
  | leave keyword value => exact live_bind (h.valueOf value) fun v => live_pure id _
  | klass name parent methods =>
    exact live_bind (h.declareClass name parent methods) fun _ => live_pure id _

theorem Live.statements (code : List (Stmt μ)) :
    Run.Live id (Run.statements below code) (Run.statements lower (code.map Stmt.live)) := by
  induction code with
  | nil => exact live_pure id _
  | cons s rest ih => exact live_bind (h.stmt s) fun _ => ih

theorem Live.program (code : List (Stmt μ)) :
    Run.Live id (Run.program below code) (Run.program lower (code.map Stmt.live)) := by
  intro s
  have inside := h.statements code s
  change ensuring (Run.statements lower _) (fun t => { t with env := [] }) s.live = _
  unfold Run.program ensuring
  rw [inside]
  cases Run.statements below code s <;> rfl

end Parts

/-- A return gives a value or ends in a fault. -/
theorem execute_leave (below : Level μ) (rounds : Nat) (keyword : Token) (value : Option (Expr μ))
    {s s' : State μ} {o : Outcome} (h : below.execute rounds (.leave keyword value) s = .ok o s') :
    ∃ v, o = .returned v := by
  change EStateM.bind (below.valueOf value) _ s = .ok o s' at h
  unfold EStateM.bind at h
  cases hv : below.valueOf value s with
  | error e t => simp [hv] at h
  | ok v t =>
    rw [hv] at h
    cases h
    exact ⟨v, rfl⟩

theorem live_ofDepth (rounds n : Nat) :
    (ofDepth rounds n : Level μ).Live (ofDepth rounds n) := by
  induction n with
  | zero => exact ⟨fun _ => live_throw id _, fun _ => live_throw id _, fun _ _ _ _ _ h => by cases h⟩
  | succ n ih => exact ⟨ih.execute rounds, ih.evaluate, fun keyword value _ _ _ h =>
      execute_leave _ rounds keyword value h⟩

end Level

end Lox.Lexical
