import Lox.Proofs.Watching
import Lox.Proofs.WellFormed

/-! # Properties that constructs have from their parts

A construct runs its parts in sequence, and between them the operations of the machine.
So a property of actions that the operations have and that sequences take over is a
property of whole runs. It may speak of several runs side by side: then it is a
property of families of actions, one for each of the runs. -/

namespace Lox

/-- A property that sequences take over from their members, and that the operations have
which leave alone the bindings, the routines and the classes that there are and the current
scope. -/
structure Run.Plain {ι : Type} (P : (α : Type) → (ι → Run α) → Prop) : Prop where
  result {α : Type} (a : α) : P α fun _ => pure a
  fault (α : Type) (e : Fault) : P α fun _ => throw e
  look : P Machine fun _ => get
  bind {α β : Type} {x : ι → Run α} {f : ι → α → Run β} (hx : P α x)
    (hf : ∀ a, P β fun i => f i a) : P β fun i => x i >>= f i
  print (text : String) : P Unit fun _ => Run.print text
  record (event : Event) : P Unit fun _ => Run.record event
  readClock : P Float fun _ => Run.readClock
  newScope (bindings : Bindings Value) (outer : Ref .scope) : P _ fun _ => Run.newScope bindings outer
  newInstance (i : Instance) : P _ fun _ => Run.newInstance i
  setField (i : Ref .object) (name : String) (v : Value) : P Unit fun _ => Run.setField i name v

/-- A property that the making of any routine and any class has as well. -/
structure Run.Uniform {ι : Type} (P : (α : Type) → (ι → Run α) → Prop) : Prop extends
    Run.Plain P where
  newFunction (f : Closure) : P _ fun _ => Run.newFunction f
  newClass (k : Klass) : P _ fun _ => Run.newClass k

/-- A property that the operations on bindings and on the current scope have as well. -/
structure Run.Closed {ι : Type} (P : (α : Type) → (ι → Run α) → Prop) : Prop extends
    Run.Uniform P where
  write (scope : Ref .scope) (name : String) (v : Value) :
    P Unit fun _ => modify fun m => { m with scopes := m.scopes.define scope name v }
  define (name : String) (v : Value) : P Unit fun _ => Run.define name v
  within {α : Type} (scope : Ref .scope) {x : ι → Run α} (hx : P α x) :
    P α fun i => Run.within scope (x i)

/-- The statements that an arm of a statement consists of, in the scope of the statement. -/
def Stmt.arms {μ : Type} : Stmt μ → List (Stmt μ)
  | .branch _ yes no => yes :: no.toList
  | .loop _ body => [body]
  | _ => []

/-- Parsed code has no declaration for an arm. -/
theorem Stmt.WellFormed.arm {μ : Type} {T : Token → Prop} {s t : Stmt μ} (h : s.WellFormed T)
    (ht : t ∈ s.arms) : t.WellFormed T ∧ t.declared? = none := by
  cases s with
  | branch condition yes no =>
    obtain ⟨-, hyes, hno⟩ := h
    cases no with
    | none => exact List.mem_singleton.mp ht ▸ hyes
    | some other =>
      rcases List.mem_cons.mp ht with rfl | ht
      · exact hyes
      · exact List.mem_singleton.mp ht ▸ hno
  | loop condition body => exact List.mem_singleton.mp ht ▸ h.2
  | _ => cases ht

namespace Run.Plain

variable {ι α : Type} {P : (α : Type) → (ι → Run α) → Prop} (h : Run.Plain P)
include h

/-! ## Operations -/

theorem fail (α : Type) (token : Token) (problem : RuntimeProblem) :
    P α fun _ => Run.fail token problem :=
  h.fault α _

theorem ofScope (x : Except ScopeFault α) : P α fun _ => Run.ofScope x := by
  cases x with
  | ok a => exact h.result a
  | error fault => exact h.fault α _

theorem ofChecked (x : Except RuntimeError α) : P α fun _ => Run.ofChecked x := by
  cases x with
  | ok a => exact h.result a
  | error e => exact h.fault α _

theorem deref (found : Option α) : P α fun _ => Run.deref found := by
  cases found with
  | some a => exact h.result a
  | none => exact h.fault α _

theorem before (w : Watch) (d : Deed) {x : ι → Run α} (hx : P α x) : P α fun i => w.before d (x i) := by
  refine h.bind h.look fun m => ?_
  split
  · exact h.fault α _
  · exact hx

theorem current : P _ fun _ => Run.current := h.bind h.look fun _ => h.result _

theorem functionAt (f : Ref .function) : P _ fun _ => Run.functionAt f :=
  h.bind h.look fun _ => h.deref _

theorem instanceAt (i : Ref .object) : P _ fun _ => Run.instanceAt i :=
  h.bind h.look fun _ => h.deref _

theorem method? (k : Ref .klass) (name : String) : P _ fun _ => Run.method? k name :=
  h.bind h.look fun _ => h.result _

theorem lookUp (r : Reference Nat) : P _ fun _ => Run.lookUp r := by
  refine h.bind h.look fun m => ?_
  split
  · exact h.ofScope _
  · split
    · exact h.result _
    · exact h.fail _ _ _

theorem checkCount (paren : Token) (expected : Nat) (arguments : List Value) :
    P _ fun _ => Level.checkCount paren expected arguments := by
  unfold Level.checkCount
  split
  · exact h.result _
  · exact h.fail _ _ _

theorem methodScope (parent : Option (Ref .klass)) : P _ fun _ => Level.methodScope parent := by
  refine h.bind h.current fun outer => ?_
  cases parent with
  | none => exact h.result outer
  | some k => exact h.newScope _ _

section Methods

variable (hbind : ∀ f receiver, P _ fun _ => Run.bind f receiver)
include hbind

theorem property (i : Ref .object) (name : Token) : P _ fun _ => Run.property i name := by
  refine h.bind (h.instanceAt i) fun object => ?_
  split
  · exact h.result _
  · refine h.bind (h.method? _ _) fun found => ?_
    cases found with
    | some f => exact h.bind (hbind f _) fun _ => h.result _
    | none => exact h.fail _ _ _

theorem superMethod (keyword : Reference Nat) (name : Token) :
    P _ fun _ => Run.superMethod keyword name := by
  refine h.bind h.look fun m => ?_
  split
  · exact h.fault _ _
  · refine h.bind (h.ofScope _) fun parent => h.bind (h.ofScope _) fun receiver => ?_
    split
    · refine h.bind (h.method? _ _) fun found => ?_
      cases found with
      | some f => exact h.bind (hbind f _) fun _ => h.result _
      | none => exact h.fail _ _ _
    · exact h.fault _ _

end Methods

/-! ## Constructs -/

variable (below : ι → Level) (hexpr : ∀ e, P _ fun i => (below i).expr e)
include hexpr

theorem evaluateAll (es : List (Expr Nat)) : P _ fun i => (below i).evaluateAll es := by
  induction es with
  | nil => exact h.result _
  | cons e rest ih => exact h.bind (hexpr e) fun _ => h.bind ih fun _ => h.result _

theorem valueOf (e : Option (Expr Nat)) : P _ fun i => (below i).valueOf e := by
  cases e with
  | none => exact h.result _
  | some e => exact hexpr e

theorem cycle (condition : Expr Nat) {body : Stmt Nat} (hbody : P _ fun i => (below i).stmt body) :
    ∀ n, P _ fun i => (below i).cycle condition body n
  | 0 => h.fault _ _
  | n + 1 => by
    refine h.bind (hexpr condition) fun v => ?_
    split
    · refine h.bind hbody fun outcome => ?_
      cases outcome with
      | completed => exact cycle condition hbody n
      | returned v => exact h.result _
    · exact h.result _

theorem parentClass (parent : Option (Reference Nat)) : P _ fun i => (below i).parentClass parent := by
  cases parent with
  | none => exact h.result _
  | some r =>
    refine h.bind (hexpr (.name r)) fun v => ?_
    split
    · exact h.result _
    · exact h.fail _ _ _

variable (enter : ι → Closure → List Value → Run Value)

theorem assign (target : Reference Nat) (value : Expr Nat)
    (hstore : ∀ v, P _ fun _ => Run.store target v) :
    P _ fun i => (below i).evaluateBy (enter i) (.assign target value) :=
  h.bind (hexpr value) fun v => h.bind (hstore v) fun _ => h.result v

/-- What an expression evaluates. An assignment writes to a scope, and a method that is bound
and a routine that is called are routines that there are; they stand apart. -/
theorem expression (hbind : ∀ f receiver, P _ fun _ => Run.bind f receiver)
    (hcall : ∀ callee paren arguments, P _ fun i => Level.callBy (enter i) callee paren arguments)
    (e : Expr Nat)
    (hassign : ∀ target value, e = .assign target value → P _ fun i => (below i).evaluateBy (enter i) e) :
    P _ fun i => (below i).evaluateBy (enter i) e := by
  cases e with
  | literal value => exact h.result _
  | grouping inner => exact hexpr inner
  | unary operator right => exact h.bind (hexpr right) fun _ => h.ofChecked _
  | binary left operator right =>
    exact h.bind (hexpr left) fun _ => h.bind (hexpr right) fun _ => h.ofChecked _
  | logical left operator right =>
    refine h.bind (hexpr left) fun l => ?_
    split
    · exact h.result _
    · exact hexpr right
  | name target => exact h.lookUp target
  | assign target value => exact hassign target value rfl
  | call callee paren arguments =>
    exact h.bind (hexpr callee) fun f => h.bind (h.evaluateAll below hexpr arguments) fun vs =>
      hcall f paren vs
  | get object property =>
    refine h.bind (hexpr object) fun v => ?_
    split
    · exact h.property hbind _ _
    · exact h.fail _ _ _
  | set object property value =>
    refine h.bind (hexpr object) fun v => ?_
    split
    · exact h.bind (hexpr value) fun _ => h.bind (h.setField _ _ _) fun _ => h.result _
    · exact h.fail _ _ _
  | this keyword => exact h.lookUp keyword
  | super keyword method => exact h.superMethod hbind keyword method

/-- What a statement executes. A declaration writes to the current scope and makes what it
declares, and a block goes to a scope of its own; they stand apart. -/
theorem statement (rounds : Nat) (s : Stmt Nat) (harms : ∀ t ∈ s.arms, P _ fun i => (below i).stmt t)
    (hdeclare : s.declared?.isSome → P _ fun i => (below i).execute rounds s)
    (hblock : ∀ body, s = .block body → P _ fun i => (below i).execute rounds s) :
    P _ fun i => (below i).execute rounds s := by
  cases s with
  | expression value => exact h.bind (hexpr value) fun _ => h.result _
  | print value =>
    exact h.bind (hexpr value) fun _ => h.bind h.look fun _ => h.bind (h.print _) fun _ => h.result _
  | block body => exact hblock body rfl
  | branch condition yes no =>
    refine h.bind (hexpr condition) fun v => ?_
    split
    · exact harms yes (by simp [Stmt.arms])
    · cases no with
      | none => exact h.result _
      | some other => exact harms other (by simp [Stmt.arms])
  | loop condition body => exact h.cycle below hexpr condition (harms body (by simp [Stmt.arms])) rounds
  | leave keyword value => exact h.bind (h.valueOf below hexpr value) fun _ => h.result _
  | declare name initial | function routine | klass name parent methods => exact hdeclare rfl

end Run.Plain

namespace Run.Uniform

variable {ι α : Type} {P : (α : Type) → (ι → Run α) → Prop} (h : Run.Uniform P)
include h

theorem bindMethod (f : Ref .function) (receiver : Value) : P _ fun _ => Run.bind f receiver :=
  h.bind (h.functionAt f) fun _ => h.bind (h.newScope _ _) fun _ => h.newFunction _

theorem makeMethods (scope : Ref .scope) (methods : List (Routine (Stmt Nat))) :
    P _ fun _ => Level.makeMethods scope methods := by
  unfold Level.makeMethods
  generalize Bindings.empty = made
  induction methods generalizing made with
  | nil => exact h.result made
  | cons r rest ih =>
    refine h.bind (f := fun _ made => List.foldlM _ made rest) ?_ ih
    exact h.bind (h.newFunction _) fun _ => h.result _

section Parts

variable (below : ι → Level) (hexpr : ∀ e, P _ fun i => (below i).expr e)

theorem executeAll (hstmt : ∀ s, P _ fun i => (below i).stmt s) (body : List (Stmt Nat)) :
    P _ fun i => (below i).executeAll body := by
  induction body with
  | nil => exact h.result _
  | cons s rest ih =>
    refine h.bind (hstmt s) fun outcome => ?_
    cases outcome with
    | completed => exact ih
    | returned v => exact h.result _

section Calls

variable (enter : ι → Closure → List Value → Run Value) (henter : ∀ f arguments, P _ fun i => enter i f arguments)
include henter

theorem constructBy (k : Ref .klass) (initializer : Option (Ref .function)) (arguments : List Value) :
    P _ fun i => Level.constructBy (enter i) k initializer arguments := by
  refine h.bind (h.newInstance _) fun i => ?_
  cases initializer with
  | none => exact h.result _
  | some f =>
    exact h.bind (h.bindMethod f _) fun bound => h.bind (h.functionAt bound) fun c =>
      h.bind (henter c arguments) fun _ => h.result _

theorem callBy (callee : Value) (paren : Token) (arguments : List Value) :
    P _ fun i => Level.callBy (enter i) callee paren arguments := by
  cases callee with
  | clock => exact h.bind (h.checkCount _ _ _) fun _ => h.bind h.readClock fun _ => h.result _
  | function f =>
    exact h.bind (h.functionAt f) fun c => h.bind (h.checkCount _ _ _) fun _ => henter c arguments
  | klass k =>
    refine h.bind (h.method? _ _) fun initializer => ?_
    have proceed : ∀ n, P _ fun i => Level.checkCount paren n arguments >>= fun _ =>
        Level.constructBy (enter i) k initializer arguments :=
      fun n => h.bind (h.checkCount _ n _) fun _ => h.constructBy enter henter k initializer arguments
    cases initializer with
    | none => exact proceed 0
    | some f => exact h.bind (h.bind (h.functionAt f) fun _ => h.result _) proceed
  | nil | bool _ | number _ | string _ | object _ => exact h.fail _ _ _

include hexpr

/-- An assignment writes to a scope and stands apart. -/
theorem evaluateBy (e : Expr Nat)
    (hassign : ∀ target value, e = .assign target value → P _ fun i => (below i).evaluateBy (enter i) e) :
    P _ fun i => (below i).evaluateBy (enter i) e :=
  h.expression below hexpr enter h.bindMethod (h.callBy enter henter) e hassign

end Calls

include hexpr

section Declarations

variable (hdefine : ∀ name v, P _ fun _ => Run.define name v)
include hdefine

theorem declareClass (name : Token) (parent : Option (Reference Nat))
    (methods : List (Routine (Stmt Nat))) :
    P _ fun i => (below i).declareClass name parent methods :=
  h.bind (h.parentClass below hexpr parent) fun parent => h.bind (hdefine _ _) fun _ =>
    h.bind (h.methodScope parent) fun _ => h.bind (h.makeMethods _ methods) fun _ =>
      h.bind (h.newClass _) fun _ => h.bind h.look fun _ => h.bind (h.record _) fun _ => hdefine _ _

omit hexpr in
theorem declareFunction (routine : Routine (Stmt Nat)) : P _ fun _ => Level.declareFunction routine :=
  h.bind h.current fun _ => h.bind (h.newFunction _) fun _ => h.bind (hdefine _ _) fun _ =>
    h.bind h.look fun _ => h.record _

end Declarations

/-- A declaration writes to the current scope, and a block goes to a scope of its own; they
stand apart. -/
theorem execute (rounds : Nat) (s : Stmt Nat) (harms : ∀ t ∈ s.arms, P _ fun i => (below i).stmt t)
    (hdefine : s.declared?.isSome → ∀ name v, P _ fun _ => Run.define name v)
    (hblock : ∀ body, s = .block body → P _ fun i => (below i).execute rounds s) :
    P _ fun i => (below i).execute rounds s := by
  refine h.statement below hexpr rounds s harms (fun declares => ?_) hblock
  have define := hdefine declares
  cases s with
  | declare name initial =>
    exact h.bind (h.valueOf below hexpr initial) fun _ => h.bind (define _ _) fun _ => h.result _
  | function routine => exact h.bind (h.declareFunction define routine) fun _ => h.result _
  | klass name parent methods =>
    exact h.bind (h.declareClass below hexpr define name parent methods) fun _ => h.result _
  | expression _ | print _ | block _ | branch _ _ _ | loop _ _ | leave _ _ => cases declares

end Parts

end Run.Uniform

namespace Run.Closed

variable {ι : Type} {P : (α : Type) → (ι → Run α) → Prop} (h : Run.Closed P)
include h

theorem store (target : Reference Nat) (v : Value) : P _ fun _ => Run.store target v := by
  refine h.bind h.look fun m => ?_
  split
  · exact h.bind (h.ofScope _) fun scope => h.write scope _ _
  · split
    · exact h.write _ _ _
    · exact h.fail _ _ _

section Parts

variable (below : ι → Level) (hexpr : ∀ e, P _ fun i => (below i).expr e)
  (hstmt : ∀ s, P _ fun i => (below i).stmt s)
include hstmt

theorem enter (f : Closure) (arguments : List Value) : P _ fun i => (below i).enter f arguments := by
  refine h.bind (h.newScope _ _) fun scope =>
    h.bind (h.within scope (h.executeAll below hstmt _)) fun outcome => ?_
  split
  · exact h.bind h.look fun _ => h.ofScope _
  · cases outcome with
    | completed => exact h.result _
    | returned v => exact h.result _

omit hstmt in
theorem evaluatesBy (hexpr : ∀ e, P _ fun i => (below i).expr e) (enter : ι → Closure → List Value → Run Value)
    (henter : ∀ f arguments, P _ fun i => enter i f arguments) (e : Expr Nat) :
    P _ fun i => (below i).evaluateBy (enter i) e := by
  refine h.evaluateBy below hexpr enter henter e fun target value eq => ?_
  cases eq
  exact h.assign below hexpr enter target value (h.store target)

include hexpr

theorem executes (rounds : Nat) (s : Stmt Nat) : P _ fun i => (below i).execute rounds s := by
  refine h.execute below hexpr rounds s (fun t _ => hstmt t) (fun _ => h.define) fun body eq => ?_
  cases eq
  exact h.bind h.current fun outer => h.bind (h.newScope _ outer) fun scope =>
    h.within scope (h.executeAll below hstmt body)

omit hexpr in
theorem statements (code : List (Stmt Nat)) : P _ fun i => Run.statements (below i) code := by
  induction code with
  | nil => exact h.result _
  | cons s rest ih => exact h.bind (hstmt s) fun _ => ih

end Parts

/-- Behind a watch a run has the property too: it may only stop earlier. -/
theorem level (w : Watch) (rounds n : Nat) :
    (∀ e, P _ fun _ => (w.level rounds n).expr e) ∧ ∀ s, P _ fun _ => (w.level rounds n).stmt s := by
  induction n with
  | zero => exact ⟨fun _ => h.fault _ _, fun _ => h.fault _ _⟩
  | succ n ih =>
    let below : ι → Level := fun _ => w.level rounds n
    have enter (c : Closure) (arguments : List Value) : P _ fun _ => w.entering (w.level rounds n) c arguments :=
      h.before w _ (h.enter below ih.2 c arguments)
    exact ⟨fun e => h.before w _ (h.evaluatesBy below ih.1 (fun _ => w.entering (w.level rounds n)) enter e),
      h.executes below ih.1 ih.2 rounds⟩

theorem ofDepth (rounds n : Nat) :
    (∀ e, P _ fun _ => (Level.ofDepth rounds n).expr e) ∧ ∀ s, P _ fun _ => (Level.ofDepth rounds n).stmt s := by
  rw [← Watch.level_idle]
  exact h.level .idle rounds n

end Run.Closed

end Lox
