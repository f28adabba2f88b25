import Lox.Proofs.Visiting
import Lox.Proofs.Growth.Steps

/-! # Runs go by steps

Whatever is run, however deep and however it ends, goes by steps from the machine in which it
begins, through the state of each evaluation that it comes to, to the one that it leaves. A scope
that is opened is opened inside one that is there: inside the current one, or inside the scope in
which a routine was written. -/

namespace Lox

namespace Run

variable {α β : Type}

/-- A run goes by steps, through all that it visits, and what it gives is as told. -/
structure Goes (m : Machine) (x : Watch → Run α) (Q : α → Machine → Prop) : Prop where
  ends : m.Reaches ((x .idle).after m)
  gives : ∀ a m', x .idle m = .ok a m' → Q a m'
  visits : ∃ V, Visits x m V ∧ ∀ e m', V e m' → m.Reaches m' ∧ m'.Reaches ((x .idle).after m)

/-- A run that goes by steps from any machine that is in order. -/
def Passes (x : Watch → Run α) : Prop := ∀ m : Machine, m.InOrder → Goes m x fun _ _ => True

variable {m m' : Machine} {Q : α → Machine → Prop} {R : β → Machine → Prop} {made : List Cell}
  {r outer : Ref .scope}

namespace Goes

theorem of_ends {act : Run α} (ends : m.Reaches (act.after m)) (gives : ∀ a m', act m = .ok a m' → Q a m') :
    Goes m (fun _ => act) Q where
  ends := ends
  gives := gives
  visits := ⟨fun _ _ => False, ⟨fun _ _ => rfl, fun _ _ _ h => h.elim⟩, fun _ _ h => h.elim⟩

theorem result {a : α} (h : Q a m) : Goes m (fun _ => pure a) Q :=
  of_ends (.refl m) (by rintro _ _ ⟨⟩; exact h)

theorem fault (e : Fault) : Goes m (fun _ => throw e) Q := of_ends (.refl m) (by rintro _ _ ⟨⟩)

theorem look : Goes m (fun _ => get) fun a m' => a = m ∧ m' = m :=
  of_ends (.refl m) (by rintro _ _ ⟨⟩; exact ⟨rfl, rfl⟩)

/-- An operation that is a step. -/
theorem step {act : Run α} {a : α} (h : act m = .ok a m') (step : m.Step made m') (hQ : Q a m') :
    Goes m (fun _ => act) Q := by
  refine of_ends ?_ fun b m₁ hb => ?_
  · rw [after_ok h]
    exact step.reaches
  · rw [h] at hb
    cases hb
    exact hQ

theorem mono {x : Watch → Run α} {S : α → Machine → Prop} (h : Goes m x Q) (k : ∀ a m', Q a m' → S a m') :
    Goes m x S := { h with gives := fun a m' ha => k a m' (h.gives a m' ha) }

theorem plain {x : Watch → Run α} (h : Goes m x Q) : Goes m x fun _ _ => True := h.mono fun _ _ _ => trivial

/-- What is visited in a sequence is visited in its first part, or in the rest. -/
theorem bind {x : Watch → Run α} {f : Watch → α → Run β} (hx : Goes m x Q)
    (hf : ∀ a m', m.Reaches m' → Q a m' → Goes m' (fun w => f w a) R) : Goes m (fun w => x w >>= f w) R := by
  obtain ⟨V, first, through⟩ := hx.visits
  have ends := hx.ends
  cases plain : x .idle m with
  | error fault m₁ =>
    have ended : (x .idle >>= f .idle).after m = m₁ := after_error (bind_error plain)
    rw [after_error plain] at ends through
    refine ⟨ended ▸ ends, fun b m' h => ?_, V, first.bind_error plain, ended ▸ through⟩
    rw [bind_error plain] at h
    cases h
  | ok a m₁ =>
    rw [after_ok plain] at ends through
    have rest := hf a m₁ ends (hx.gives a m₁ plain)
    have ended : (x .idle >>= f .idle).after m = (f .idle a).after m₁ := after_bind plain
    obtain ⟨U, later, onwards⟩ := rest.visits
    refine ⟨ended ▸ ends.trans rest.ends, fun b m' h => ?_, _, first.bind_ok plain later, ?_⟩
    · rw [bind_ok plain] at h
      exact rest.gives b m' h
    · rw [ended]
      rintro e m' (early | late)
      · exact ⟨(through e m' early).1, (through e m' early).2.trans rest.ends⟩
      · exact ⟨ends.trans (onwards e m' late).1, (onwards e m' late).2⟩

/-- There and back. -/
theorem within {x : Watch → Run α} (h : m.InOrder) (there : m.Has ⟨.scope, r⟩)
    (hx : Goes { m with current := r } x Q) : Goes m (fun w => within r (x w)) fun _ _ => True := by
  have inside : m.Reaches { m with current := r } := (Machine.Step.move there).reaches
  have back : ((x .idle).after { m with current := r }).Reaches ((Run.within r (x .idle)).after m) := by
    rw [after_within]
    exact (Machine.Step.move (hx.ends.has (inside.has h.current))).reaches
  obtain ⟨V, visits, through⟩ := hx.visits
  refine ⟨inside.trans (hx.ends.trans back), fun _ _ _ => trivial, V, visits.within, fun e m' hv => ?_⟩
  exact ⟨inside.trans (through e m' hv).1, (through e m' hv).2.trans back⟩

/-- A deed begins in a state that is visited. -/
theorem before {x : Watch → Run α} (d : Deed) (h : Goes m x Q) : Goes m (fun w => w.before d (x w)) Q := by
  obtain ⟨V, visits, through⟩ := h.visits
  have same : Watch.idle.before d (x .idle) = x .idle := Watch.before_idle d (x .idle)
  refine ⟨same ▸ h.ends, fun a m' ha => h.gives a m' (same ▸ ha), _, visits.before d, ?_⟩
  rw [same]
  rintro y m' (⟨-, rfl⟩ | inner)
  · exact ⟨.refl m', h.ends⟩
  · exact through y m' inner

end Goes

/-! ## Operations -/

theorem Passes.bind {x : Watch → Run α} {f : Watch → α → Run β} (hx : Passes x)
    (hf : ∀ a, Passes fun w => f w a) : Passes fun w => x w >>= f w :=
  fun m h => (hx m h).bind fun a m' reach _ => hf a m' (reach.inOrder h)

theorem passes_result (a : α) : Passes fun _ => pure a := fun _ _ => .result trivial

theorem passes_fault (e : Fault) : Passes (α := α) fun _ => throw e := fun _ _ => .fault e

theorem passes_look {f : Watch → Machine → Run β} (hf : ∀ m, Passes fun w => f w m) :
    Passes fun w => get >>= f w :=
  fun _ h => Goes.look.bind fun a m' reach _ => hf a m' (reach.inOrder h)

theorem passes_fail (token : Token) (problem : RuntimeProblem) :
    Passes (α := α) fun _ => fail token problem := passes_fault _

theorem passes_ofScope (x : Except ScopeFault α) : Passes fun _ => ofScope x := by
  cases x with
  | ok a => exact passes_result a
  | error e => exact passes_fault _

theorem passes_ofChecked (x : Except RuntimeError α) : Passes fun _ => ofChecked x := by
  cases x with
  | ok a => exact passes_result a
  | error e => exact passes_fault _

theorem passes_deref (found : Option α) : Passes fun _ => deref found := by
  cases found with
  | some a => exact passes_result a
  | none => exact passes_fault _

/-- A change of what is neither made nor written. -/
theorem passes_aside {f : Machine → α × Machine} (scopes : ∀ m, (f m).2.scopes = m.scopes)
    (functions : ∀ m, (f m).2.functions = m.functions) (classes : ∀ m, (f m).2.classes = m.classes)
    (instances : ∀ m, (f m).2.instances = m.instances) (current : ∀ m, (f m).2.current = m.current) :
    Passes fun _ => modifyGet f :=
  fun m _ => .step rfl (.aside (scopes m) (functions m) (classes m) (instances m) (current m)) trivial

theorem passes_print (text : String) : Passes fun _ => Run.print text :=
  passes_aside (fun _ => rfl) (fun _ => rfl) (fun _ => rfl) (fun _ => rfl) fun _ => rfl

theorem passes_record (event : Event) : Passes fun _ => record event :=
  passes_aside (fun _ => rfl) (fun _ => rfl) (fun _ => rfl) (fun _ => rfl) fun _ => rfl

theorem passes_readClock : Passes fun _ => readClock :=
  passes_aside (fun _ => rfl) (fun _ => rfl) (fun _ => rfl) (fun _ => rfl) fun _ => rfl

theorem passes_newClass (k : Klass) : Passes fun _ => newClass k :=
  fun m _ => .step rfl (.klass m k) trivial

theorem passes_newInstance (o : Instance) : Passes fun _ => newInstance o :=
  fun m _ => .step rfl (.object m o) trivial

theorem passes_setField (i : Ref .object) (x : String) (v : Value) : Passes fun _ => setField i x v :=
  fun m _ => .step rfl (.field m i x v) trivial

theorem passes_define (x : String) (v : Value) : Passes fun _ => define x v :=
  fun m _ => .step rfl (.write m m.current x v) trivial

theorem passes_write (r : Ref .scope) (x : String) (v : Value) :
    Passes fun _ => modify fun m => { m with scopes := m.scopes.define r x v } :=
  fun m _ => .step rfl (.write m r x v) trivial

theorem goes_current (h : m.InOrder) : Goes m (fun _ => current) fun r m' => m'.Has ⟨.scope, r⟩ :=
  .of_ends (.refl m) (by rintro _ _ ⟨⟩; exact h.current)

theorem goes_newScope (there : m.Has ⟨.scope, outer⟩) (bindings : Bindings Value) :
    Goes m (fun _ => newScope bindings outer) fun r m' => m'.Has ⟨.scope, r⟩ := by
  have step := Machine.Step.scope there bindings
  exact .step rfl step ((step.grows.has _).mpr (.inr List.mem_cons_self))

theorem goes_newFunction {c : Closure} (there : m.Has ⟨.scope, c.scope⟩) :
    Goes m (fun _ => newFunction c) fun _ m' => m'.Has ⟨.scope, c.scope⟩ :=
  .step rfl (.function there) there

/-- The scope in which a routine was written is there. -/
theorem goes_functionAt (h : m.InOrder) (f : Ref .function) :
    Goes m (fun _ => functionAt f) fun c m' => m'.Has ⟨.scope, c.scope⟩ := by
  have look : functionAt f m = deref (m.functions.get? f) m := rfl
  refine .of_ends ?_ fun c m' hc => ?_
  · rw [after, look]
    cases m.functions.get? f <;> exact .refl m
  · rw [look] at hc
    cases found : m.functions.get? f with
    | some d =>
      rw [found] at hc
      cases hc
      exact h.closures f c found
    | none =>
      rw [found] at hc
      cases hc

theorem passes_functionAt (f : Ref .function) : Passes fun _ => functionAt f :=
  fun _ h => (goes_functionAt h f).plain

theorem passes_instanceAt (i : Ref .object) : Passes fun _ => instanceAt i :=
  passes_look fun _ => passes_deref _

theorem passes_method? (k : Ref .klass) (name : String) : Passes fun _ => method? k name :=
  passes_look fun _ => passes_result _

theorem passes_lookUp (target : Reference Nat) : Passes fun _ => lookUp target := by
  refine passes_look fun m => ?_
  split
  · exact passes_ofScope _
  · split
    · exact passes_result _
    · exact passes_fail _ _

theorem passes_store (target : Reference Nat) (v : Value) : Passes fun _ => store target v := by
  refine passes_look fun m => ?_
  split
  · exact (passes_ofScope _).bind fun scope => passes_write scope _ v
  · split
    · exact passes_write _ _ v
    · exact passes_fail _ _

/-- The new scope is inside the one of the method. -/
theorem passes_bind_method (f : Ref .function) (receiver : Value) : Passes fun _ => bind f receiver :=
  fun _ h => (goes_functionAt h f).bind fun _ _ _ there =>
    (goes_newScope there _).bind fun _ _ _ made => (goes_newFunction made).plain

theorem passes_property (i : Ref .object) (name : Token) : Passes fun _ => property i name := by
  refine (passes_instanceAt i).bind fun object => ?_
  split
  · exact passes_result _
  · refine (passes_method? _ _).bind fun found => ?_
    cases found with
    | some f => exact (passes_bind_method f _).bind fun _ => passes_result _
    | none => exact passes_fail _ _

theorem passes_superMethod (keyword : Reference Nat) (name : Token) :
    Passes fun _ => superMethod keyword name := by
  refine passes_look fun m => ?_
  split
  · exact passes_fault _
  · refine (passes_ofScope _).bind fun parent => (passes_ofScope _).bind fun receiver => ?_
    split
    · refine (passes_method? _ _).bind fun found => ?_
      cases found with
      | some f => exact (passes_bind_method f _).bind fun _ => passes_result _
      | none => exact passes_fail _ _
    · exact passes_fault _

end Run

/-! ## Constructs -/

namespace Level

open Run

variable {m : Machine} {r : Ref .scope}

theorem passes_checkCount (paren : Token) (expected : Nat) (arguments : List Value) :
    Passes fun _ => checkCount paren expected arguments := by
  unfold checkCount
  split
  · exact passes_result _
  · exact passes_fail _ _

theorem goes_methodScope (h : m.InOrder) (parent : Option (Ref .klass)) :
    Goes m (fun _ => methodScope parent) fun r m' => m'.Has ⟨.scope, r⟩ := by
  refine (goes_current h).bind fun outer m' _ there => ?_
  cases parent with
  | none => exact .result there
  | some k => exact goes_newScope there _

theorem goes_makeMethods (there : m.Has ⟨.scope, r⟩) (methods : List (Routine (Stmt Nat))) :
    Goes m (fun _ => makeMethods r methods) fun _ _ => True := by
  unfold makeMethods
  generalize Bindings.empty = made
  induction methods generalizing m made with
  | nil => exact .result trivial
  | cons routine rest ih =>
    rw [List.foldlM_cons]
    refine Goes.bind (Q := fun _ m' => m'.Has ⟨.scope, r⟩) ?_ fun made m' _ still => ih still made
    exact (goes_newFunction (c := ⟨routine, r, _⟩) there).bind fun f m' _ still => .result still

theorem passes_declareFunction (routine : Routine (Stmt Nat)) : Passes fun _ => declareFunction routine :=
  fun _ h => (goes_current h).bind fun scope _ reach there =>
    (goes_newFunction (c := ⟨routine, scope, false⟩) there).bind fun _ m₂ further _ =>
      ((passes_define _ _).bind fun _ => passes_look fun _ => passes_record _) m₂ ((reach.trans further).inOrder h)

section Parts

variable (below : Watch → Level) (hexpr : ∀ e, Passes fun w => (below w).expr e)
  (hstmt : ∀ s, Passes fun w => (below w).stmt s)

include hexpr

theorem passes_evaluateAll (es : List (Expr Nat)) : Passes fun w => (below w).evaluateAll es := by
  induction es with
  | nil => exact passes_result _
  | cons e rest ih => exact (hexpr e).bind fun _ => ih.bind fun _ => passes_result _

theorem passes_valueOf (e : Option (Expr Nat)) : Passes fun w => (below w).valueOf e := by
  cases e with
  | none => exact passes_result _
  | some e => exact hexpr e

theorem passes_parentClass (parent : Option (Reference Nat)) : Passes fun w => (below w).parentClass parent := by
  cases parent with
  | none => exact passes_result _
  | some target =>
    refine (hexpr (.name target)).bind fun v => ?_
    split
    · exact passes_result _
    · exact passes_fail _ _

theorem passes_declareClass (name : Token) (parent : Option (Reference Nat))
    (methods : List (Routine (Stmt Nat))) : Passes fun w => (below w).declareClass name parent methods := by
  refine (passes_parentClass below hexpr parent).bind fun found =>
    (passes_define _ _).bind fun _ => fun m h => ?_
  refine (goes_methodScope h found).bind fun scope _ reach there =>
    (goes_makeMethods there methods).bind fun made m₂ further _ => ?_
  exact ((passes_newClass _).bind fun _ => passes_look fun _ => (passes_record _).bind fun _ =>
    passes_define _ _) m₂ ((reach.trans further).inOrder h)

include hstmt

theorem passes_cycle (condition : Expr Nat) (body : Stmt Nat) :
    ∀ n, Passes fun w => (below w).cycle condition body n
  | 0 => passes_fault _
  | n + 1 => by
    refine (hexpr condition).bind fun v => ?_
    split
    · refine (hstmt body).bind fun outcome => ?_
      cases outcome with
      | completed => exact passes_cycle condition body n
      | returned v => exact passes_result _
    · exact passes_result _

omit hexpr

theorem passes_executeAll (body : List (Stmt Nat)) : Passes fun w => (below w).executeAll body := by
  induction body with
  | nil => exact passes_result _
  | cons s rest ih =>
    refine (hstmt s).bind fun outcome => ?_
    cases outcome with
    | completed => exact ih
    | returned v => exact passes_result _

/-- Statements in another scope that is there. -/
theorem goes_within (h : m.InOrder) (there : m.Has ⟨.scope, r⟩) (body : List (Stmt Nat)) :
    Goes m (fun w => Run.within r ((below w).executeAll body)) fun _ _ => True :=
  .within h there (passes_executeAll below hstmt body _ ((Machine.Step.move there).inOrder h))

theorem goes_enter (h : m.InOrder) {f : Closure} (there : m.Has ⟨.scope, f.scope⟩) (arguments : List Value) :
    Goes m (fun w => (below w).enter f arguments) fun _ _ => True := by
  refine (goes_newScope there _).bind fun scope m₁ reach made =>
    (goes_within below hstmt (reach.inOrder h) made _).bind fun outcome m₂ further _ => ?_
  have ordered : m₂.InOrder := (reach.trans further).inOrder h
  split
  · exact passes_look (fun _ => passes_ofScope _) m₂ ordered
  · cases outcome with
    | completed => exact .result trivial
    | returned v => exact .result trivial

omit hstmt

section Ways

variable (enter : Watch → Closure → List Value → Run Value)
  (henter : ∀ m : Machine, m.InOrder → ∀ c : Closure, m.Has ⟨.scope, c.scope⟩ → ∀ arguments,
    Goes m (fun w => enter w c arguments) fun _ _ => True)

include henter

/-- The initializer that is entered is a bound copy, written in the scope that binds it. -/
theorem passes_constructBy (k : Ref .klass) (initializer : Option (Ref .function)) (arguments : List Value) :
    Passes fun w => constructBy (enter w) k initializer arguments := by
  refine (passes_newInstance _).bind fun i => ?_
  cases initializer with
  | none => exact passes_result _
  | some f =>
    refine (passes_bind_method f _).bind fun bound m h => ?_
    refine (goes_functionAt h bound).bind fun c m₁ reach there => ?_
    exact (henter m₁ (reach.inOrder h) c there arguments).bind fun _ _ _ _ => .result trivial

theorem passes_callBy (callee : Value) (paren : Token) (arguments : List Value) :
    Passes fun w => callBy (enter w) callee paren arguments := by
  cases callee with
  | clock => exact (passes_checkCount _ _ _).bind fun _ => passes_readClock.bind fun _ => passes_result _
  | function f =>
    intro m h
    refine (goes_functionAt h f).bind fun c m₁ reach there => ?_
    refine (passes_checkCount paren c.arity arguments m₁ (reach.inOrder h)).bind fun _ m₂ further _ => ?_
    exact henter m₂ ((reach.trans further).inOrder h) c (further.has there) arguments
  | klass k =>
    refine (passes_method? _ _).bind fun initializer => ?_
    have proceed : ∀ n, Passes fun w => checkCount paren n arguments >>= fun _ =>
        constructBy (enter w) k initializer arguments :=
      fun n => (passes_checkCount _ n _).bind fun _ => passes_constructBy enter henter k initializer arguments
    cases initializer with
    | none => exact proceed 0
    | some f => exact ((passes_functionAt f).bind fun _ => passes_result _).bind proceed
  | nil | bool _ | number _ | string _ | object _ => exact passes_fail _ _

include hexpr

theorem passes_evaluateBy (e : Expr Nat) : Passes fun w => (below w).evaluateBy (enter w) e := by
  cases e with
  | literal value => exact passes_result _
  | grouping inner => exact hexpr inner
  | unary operator right => exact (hexpr right).bind fun _ => passes_ofChecked _
  | binary left operator right =>
    exact (hexpr left).bind fun _ => (hexpr right).bind fun _ => passes_ofChecked _
  | logical left operator right =>
    refine (hexpr left).bind fun l => ?_
    split
    · exact passes_result _
    · exact hexpr right
  | name target => exact passes_lookUp target
  | assign target value =>
    exact (hexpr value).bind fun v => (passes_store target v).bind fun _ => passes_result _
  | call callee paren arguments =>
    exact (hexpr callee).bind fun f => (passes_evaluateAll below hexpr arguments).bind fun vs =>
      passes_callBy enter henter f paren vs
  | get object property =>
    refine (hexpr object).bind fun v => ?_
    split
    · exact passes_property _ _
    · exact passes_fail _ _
  | set object property value =>
    refine (hexpr object).bind fun v => ?_
    split
    · exact (hexpr value).bind fun _ => (passes_setField _ _ _).bind fun _ => passes_result _
    · exact passes_fail _ _
  | this keyword => exact passes_lookUp keyword
  | super keyword method => exact passes_superMethod keyword method

end Ways

include hexpr hstmt

theorem passes_execute (rounds : Nat) (s : Stmt Nat) : Passes fun w => (below w).execute rounds s := by
  cases s with
  | expression value => exact (hexpr value).bind fun _ => passes_result _
  | print value =>
    exact (hexpr value).bind fun _ => passes_look fun _ => (passes_print _).bind fun _ => passes_result _
  | declare name initial =>
    exact (passes_valueOf below hexpr initial).bind fun _ => (passes_define _ _).bind fun _ => passes_result _
  | block body =>
    intro m h
    refine (goes_current h).bind fun outer m₁ reach there =>
      (goes_newScope there _).bind fun scope m₂ further made => ?_
    exact goes_within below hstmt ((reach.trans further).inOrder h) made body
  | branch condition yes no =>
    refine (hexpr condition).bind fun v => ?_
    split
    · exact hstmt yes
    · cases no with
      | none => exact passes_result _
      | some other => exact hstmt other
  | loop condition body => exact passes_cycle below hexpr hstmt condition body rounds
  | function routine => exact (passes_declareFunction routine).bind fun _ => passes_result _
  | leave keyword value => exact (passes_valueOf below hexpr value).bind fun _ => passes_result _
  | klass name parent methods =>
    exact (passes_declareClass below hexpr name parent methods).bind fun _ => passes_result _

omit hexpr

theorem passes_statements (code : List (Stmt Nat)) : Passes fun w => Run.statements (below w) code := by
  induction code with
  | nil => exact passes_result _
  | cons s rest ih => exact (hstmt s).bind fun _ => ih

end Parts

theorem passes_level (rounds n : Nat) : (∀ e, Passes fun w => (w.level rounds n).expr e) ∧
    ∀ s, Passes fun w => (w.level rounds n).stmt s := by
  induction n with
  | zero => exact ⟨fun _ => passes_fault _, fun _ => passes_fault _⟩
  | succ n ih =>
    let below : Watch → Level := fun w => w.level rounds n
    have enter (m : Machine) (h : m.InOrder) (c : Closure) (there : m.Has ⟨.scope, c.scope⟩)
        (arguments : List Value) : Goes m (fun w => w.entering (below w) c arguments) fun _ _ => True :=
      (goes_enter below ih.2 h there arguments).before _
    exact ⟨fun e m h => (passes_evaluateBy below ih.1 (fun w => w.entering (below w)) enter e m h).before _,
      passes_execute below ih.1 ih.2 rounds⟩

end Level

end Lox
