import Lox.Machine.Object
import Lox.Machine.Operator
import Lox.Proofs.Likeness.Trees

/-! # Machines that hold like code

Two machines that are alike are equal but for the code of their functions, which is
alike, and for what their tables say of marks that are not related. The operations of
a machine keep two machines alike, and fail together. -/

namespace Lox

variable (T : Token → Token → Prop) (M : Nat → Nat → Prop)
  (E : Option (Array Event) → Option (Array Event) → Prop)

structure Closure.Like (f f' : Closure) : Prop where
  routine : f.routine.Like T (Stmt.Like T M) f'.routine
  scope : f'.scope = f.scope
  isInitializer : f'.isInitializer = f.isInitializer

structure Machine.Like (m m' : Machine) : Prop where
  scopes : m'.scopes = m.scopes
  functions : ∀ f, Option.Rel (Closure.Like T M) (m.functions.get? f) (m'.functions.get? f)
  functionCount : m'.functions.size = m.functions.size
  classes : m'.classes = m.classes
  instances : m'.instances = m.instances
  current : m'.current = m.current
  table : ∀ n n', M n n' → m'.table.hops? n' = m.table.hops? n
  clock : m'.clock = m.clock
  output : m'.output = m.output
  events : E m.events m'.events

/-- What the names in the code depend on besides the scopes. It is the same behind a step
as before it. -/
def Machine.setting (m : Machine) : Ref .scope × Table := (m.current, m.table)

structure RuntimeError.Like (e e' : RuntimeError) : Prop where
  token : T e.token e'.token
  problem : e'.problem = e.problem

inductive Fault.Like : Fault → Fault → Prop
  | runtime {e e' : RuntimeError} (h : e.Like T e') : Like (.runtime e) (.runtime e')
  | scope (fault : ScopeFault) : Like (.scope fault) (.scope fault)
  | unresolvedSuper : Like .unresolvedSuper .unresolvedSuper
  | superNotClass : Like .superNotClass .superNotClass
  | dangling : Like .dangling .dangling
  | tooDeep : Like .tooDeep .tooDeep
  | unfinished : Like .unfinished .unfinished

namespace Run

variable {α β γ δ : Type}

/-- Results that are alike, of runs that have come back to a setting. -/
inductive Ends (R : α → β → Prop) (c : Ref .scope × Table) :
    EStateM.Result Fault Machine α → EStateM.Result Fault Machine β → Prop
  | ok {a : α} {b : β} {m m' : Machine} (h : R a b) (hm : m.Like T M E m') (hc : m.setting = c) :
      Ends R c (.ok a m) (.ok b m')
  | error {e e' : Fault} {m m' : Machine} (h : e.Like T e') (hm : m.Like T M E m')
      (hc : m.setting = c) : Ends R c (.error e m) (.error e' m')

/-- Steps that have like results on like machines, and come back to the setting in which
they begin. -/
def Like (R : α → β → Prop) (x : Run α) (y : Run β) : Prop :=
  ∀ m m', m.Like T M E m' → Ends T M E R m.setting (x m) (y m')

variable {T M E} {R : α → β → Prop} {S : γ → δ → Prop}

theorem pure_like {a : α} {b : β} (h : R a b) : Like T M E R (pure a) (pure b) :=
  fun _ _ hm => .ok h hm rfl

theorem throw_like {e e' : Fault} (h : e.Like T e') : Like T M E R (throw e) (throw e') :=
  fun _ _ hm => .error h hm rfl

theorem bind_like {x : Run α} {y : Run β} {f : α → Run γ} {g : β → Run δ} (hx : Like T M E R x y)
    (hf : ∀ a b, R a b → Like T M E S (f a) (g b)) : Like T M E S (x >>= f) (y >>= g) := by
  intro m m' hm
  have first := hx m m' hm
  change Ends T M E S m.setting (EStateM.bind x f m) (EStateM.bind y g m')
  unfold EStateM.bind
  generalize x m = r at first
  generalize y m' = r' at first
  cases first with
  | ok h hm hc => exact hc ▸ hf _ _ h _ _ hm
  | error h hm hc => exact .error h hm hc

theorem map_like {x : Run α} {y : Run β} {f : α → γ} {g : β → δ} (hx : Like T M E R x y)
    (hf : ∀ a b, R a b → S (f a) (g b)) : Like T M E S (f <$> x) (g <$> y) := by
  intro m m' hm
  have first := hx m m' hm
  change Ends T M E S m.setting (EStateM.map f x m) (EStateM.map g y m')
  unfold EStateM.map
  generalize x m = r at first
  generalize y m' = r' at first
  cases first with
  | ok h hm hc => exact .ok (hf _ _ h) hm hc
  | error h hm hc => exact .error h hm hc

/-- A step that looks at the machine first. -/
theorem get_bind_like {f : Machine → Run α} {g : Machine → Run β}
    (h : ∀ m m', m.Like T M E m' → Like T M E R (f m) (g m')) : Like T M E R (get >>= f) (get >>= g) :=
  fun m m' hm => h m m' hm m m' hm

theorem modifyGet_like {f : Machine → α × Machine} {g : Machine → β × Machine}
    (h : ∀ m m', m.Like T M E m' → R (f m).1 (g m').1 ∧ (f m).2.Like T M E (g m').2)
    (hc : ∀ m, (f m).2.setting = m.setting) : Like T M E R (modifyGet f) (modifyGet g) :=
  fun m m' hm => .ok (h m m' hm).1 (h m m' hm).2 (hc m)

theorem modify_like {f g : Machine → Machine} (h : ∀ m m', m.Like T M E m' → (f m).Like T M E (g m'))
    (hc : ∀ m, (f m).setting = m.setting) : Like T M E Eq (modify f) (modify g) :=
  modifyGet_like (fun m m' hm => ⟨rfl, h m m' hm⟩) hc

theorem fail_like {t u : Token} (h : T t u) (problem : RuntimeProblem) :
    Like T M E R (fail t problem) (fail u problem) :=
  throw_like (.runtime ⟨h, rfl⟩)

theorem ofScope_like (x : Except ScopeFault α) : Like T M E Eq (ofScope x) (ofScope x) := by
  cases x with
  | ok a => exact pure_like rfl
  | error fault => exact throw_like (.scope fault)

theorem deref_like {a : Option α} {b : Option β} (h : Option.Rel R a b) :
    Like T M E R (deref a) (deref b) := by
  cases h with
  | none => exact throw_like .dangling
  | some h => exact pure_like h

theorem deref_same (a : Option α) : Like T M E Eq (deref a) (deref a) := by
  cases a with
  | none => exact throw_like .dangling
  | some a => exact pure_like rfl

/-! ## Operations on the state -/

theorem print_like (text : String) : Like T M E Eq (print text) (print text) :=
  modify_like (fun _ _ hm => { hm with output := congrArg (· ++ text ++ "\n") hm.output }) fun _ => rfl

theorem record_like (hE : ∀ a b e, E a b → E (a.map (·.push e)) (b.map (·.push e))) (event : Event) :
    Like T M E Eq (record event) (record event) :=
  modify_like (fun _ _ hm => { hm with events := hE _ _ event hm.events }) fun _ => rfl

theorem readClock_like : Like T M E Eq readClock readClock :=
  modifyGet_like (fun _ _ hm => ⟨by rw [hm.clock], { hm with clock := by rw [hm.clock] }⟩) fun _ => rfl

theorem newScope_like (bindings : Bindings Value) (enclosing : Ref .scope) :
    Like T M E Eq (newScope bindings enclosing) (newScope bindings enclosing) :=
  modifyGet_like (fun _ _ hm => ⟨by rw [hm.scopes], { hm with scopes := by rw [hm.scopes] }⟩) fun _ => rfl

theorem next_like {m m' : Machine} (h : m.Like T M E m') : m'.functions.next = m.functions.next :=
  congrArg Ref.mk h.functionCount

theorem newFunction_like {f f' : Closure} (h : f.Like T M f') :
    Like T M E Eq (newFunction f) (newFunction f') := by
  refine modifyGet_like (fun m m' hm => ⟨(next_like hm).symm, ?_⟩) fun _ => rfl
  refine { hm with functions := fun r => ?_, functionCount := ?_ }
  · simp only [Heap.get?_push, next_like hm]
    split
    · exact .some h
    · exact hm.functions r
  · simp only [Heap.size_push, hm.functionCount]

theorem newClass_like (k : Klass) : Like T M E Eq (newClass k) (newClass k) :=
  modifyGet_like (fun _ _ hm => ⟨by rw [hm.classes], { hm with classes := by rw [hm.classes] }⟩) fun _ => rfl

theorem newInstance_like (i : Instance) : Like T M E Eq (newInstance i) (newInstance i) :=
  modifyGet_like (fun _ _ hm => ⟨by rw [hm.instances], { hm with instances := by rw [hm.instances] }⟩)
    fun _ => rfl

theorem current_like : Like T M E Eq current current :=
  get_bind_like fun _ _ hm => pure_like hm.current.symm

theorem define_like (name : String) (v : Value) : Like T M E Eq (define name v) (define name v) :=
  modify_like (fun _ _ hm => { hm with scopes := by rw [hm.scopes, hm.current] }) fun _ => rfl

theorem ensuring_like {x : Run α} {y : Run β} (hx : Like T M E R x y) {change change' : Machine → Machine}
    (h : ∀ m m', m.Like T M E m' → (change m).Like T M E (change' m')) {m m' : Machine}
    (hm : m.Like T M E m') {c : Ref .scope × Table} (hc : ∀ n, n.setting = m.setting → (change n).setting = c) :
    Ends T M E R c (ensuring x change m) (ensuring y change' m') := by
  have inside := hx m m' hm
  unfold ensuring
  generalize x m = r at inside
  generalize y m' = r' at inside
  cases inside with
  | ok ha hm same => exact .ok ha (h _ _ hm) (hc _ same)
  | error he hm same => exact .error he (h _ _ hm) (hc _ same)

/-- Whatever is run in another scope, the machine comes back from there. -/
theorem within_like (scope : Ref .scope) {x : Run α} {y : Run β} (hx : Like T M E R x y) :
    Like T M E R (within scope x) (within scope y) := by
  intro m m' hm
  rw [within_eq, within_eq, hm.current]
  have start : Machine.Like T M E { m with current := scope } { m' with current := scope } :=
    { hm with current := rfl }
  refine ensuring_like hx ?back start ?setting
  case back => exact fun _ _ hm => { hm with current := rfl }
  case setting => exact fun _ same => congrArg (m.current, ·) (congrArg Prod.snd same)

theorem functionAt_like (f : Ref .function) :
    Like T M E (Closure.Like T M) (functionAt f) (functionAt f) :=
  fun m m' hm => deref_like (hm.functions f) m m' hm

theorem instanceAt_like (i : Ref .object) : Like T M E Eq (instanceAt i) (instanceAt i) :=
  get_bind_like fun m m' hm => by rw [hm.instances]; exact deref_same _

theorem method?_like (k : Ref .klass) (name : String) :
    Like T M E Eq (method? k name) (method? k name) :=
  get_bind_like fun _ _ hm => pure_like (by rw [hm.classes])

theorem bind_method_like (f : Ref .function) (receiver : Value) :
    Like T M E Eq (bind f receiver) (bind f receiver) :=
  bind_like (functionAt_like f) fun _ _ hf => by
    rw [hf.scope]
    refine bind_like (newScope_like _ _) fun scope _ e => ?_
    cases e
    exact newFunction_like { hf with scope := rfl }

theorem setField_like (i : Ref .object) (name : String) (v : Value) :
    Like T M E Eq (setField i name v) (setField i name v) :=
  modify_like (fun _ _ hm => { hm with instances := by rw [hm.instances] }) fun _ => rfl

section Names

variable (hT : ∀ t u, T t u → t.SameText u)
include hT

theorem lookUp_like {r r' : Reference Nat} (hr : r.Like T M r') : Like T M E Eq (lookUp r) (lookUp r') :=
  get_bind_like fun m m' hm => by
    rw [hm.table _ _ hr.mark, hm.scopes, hm.current, (hT _ _ hr.name).lexeme]
    split
    · exact ofScope_like _
    · split
      · exact pure_like rfl
      · exact fail_like hr.name _

theorem store_like {r r' : Reference Nat} (hr : r.Like T M r') (v : Value) :
    Like T M E Eq (store r v) (store r' v) :=
  get_bind_like fun m m' hm => by
    rw [hm.table _ _ hr.mark, hm.scopes, hm.current, (hT _ _ hr.name).lexeme]
    split
    · refine bind_like (ofScope_like _) fun scope _ e => ?_
      cases e
      exact modify_like (fun _ _ hm => { hm with scopes := by rw [hm.scopes] }) fun _ => rfl
    · split
      · exact modify_like (fun _ _ hm => { hm with scopes := by rw [hm.scopes] }) fun _ => rfl
      · exact fail_like hr.name _

theorem property_like (i : Ref .object) {t u : Token} (h : T t u) :
    Like T M E Eq (property i t) (property i u) :=
  bind_like (instanceAt_like i) fun object _ e => by
    cases e
    rw [(hT t u h).lexeme]
    split
    · exact pure_like rfl
    · refine bind_like (method?_like _ _) fun found _ e => ?_
      cases e
      cases found with
      | none => exact fail_like h _
      | some f => exact bind_like (bind_method_like f _) fun _ _ e => pure_like (congrArg _ e)

theorem superMethod_like {r r' : Reference Nat} (hr : r.Like T M r') {t u : Token} (h : T t u) :
    Like T M E Eq (superMethod r t) (superMethod r' u) :=
  get_bind_like fun m m' hm => by
    rw [hm.table _ _ hr.mark, hm.scopes, hm.current, (hT t u h).lexeme]
    split
    · exact throw_like .unresolvedSuper
    · refine bind_like (ofScope_like _) fun parent _ e => ?_
      cases e
      refine bind_like (ofScope_like _) fun receiver _ e => ?_
      cases e
      split
      · refine bind_like (method?_like _ _) fun found _ e => ?_
        cases e
        cases found with
        | none => exact fail_like h _
        | some f => exact bind_like (bind_method_like f _) fun _ _ e => pure_like (congrArg _ e)
      · exact throw_like .superNotClass

/-! ## Operators -/

theorem applyUnary_like {t u : Token} (h : T t u) (v : Value) :
    Like T M E Eq (ofChecked (t.applyUnary v)) (ofChecked (u.applyUnary v)) := by
  unfold Token.applyUnary
  rw [(hT t u h).kind]
  split
  · exact pure_like rfl
  · split
    · exact pure_like rfl
    · exact fail_like h _

omit hT in
theorem add_like {t u : Token} (h : T t u) (v w : Value) :
    Like T M E Eq (ofChecked (t.add v w)) (ofChecked (u.add v w)) := by
  unfold Token.add
  split
  · exact pure_like rfl
  · exact pure_like rfl
  · exact fail_like h _

theorem arithmetic_like {t u : Token} (h : T t u) (x y : Float) :
    Like T M E Eq (ofChecked (t.arithmetic x y)) (ofChecked (u.arithmetic x y)) := by
  unfold Token.arithmetic
  rw [(hT t u h).kind]
  split
  · exact pure_like rfl
  · exact pure_like rfl
  · split
    · exact fail_like h _
    · exact pure_like rfl
  · exact pure_like rfl
  · exact pure_like rfl
  · exact pure_like rfl
  · exact pure_like rfl
  · exact fail_like h _

theorem applyBinary_like {t u : Token} (h : T t u) (v w : Value) :
    Like T M E Eq (ofChecked (t.applyBinary v w)) (ofChecked (u.applyBinary v w)) := by
  unfold Token.applyBinary
  rw [(hT t u h).kind]
  split
  · exact pure_like rfl
  · exact pure_like rfl
  · exact add_like h v w
  · split
    · exact arithmetic_like hT h _ _
    · exact fail_like h _

theorem settles_like {t u : Token} (h : T t u) (v : Value) : u.settles v = t.settles v := by
  rw [Token.settles, Token.settles, (hT t u h).kind]

theorem display_like {m m' : Machine} (hm : m.Like T M E m') (v : Value) : m'.display v = m.display v := by
  unfold Machine.display Machine.nameOfClass
  rw [hm.classes, hm.instances]
  cases v with
  | function f =>
    have found := hm.functions f
    dsimp only
    generalize m.functions.get? f = r at found
    generalize m'.functions.get? f = r' at found
    cases found with
    | none => rfl
    | some h =>
      simp only [Option.map_some, Option.getD_some, Closure.name, (hT _ _ h.routine.name).lexeme]
  | _ => rfl

end Names

end Run

end Lox
