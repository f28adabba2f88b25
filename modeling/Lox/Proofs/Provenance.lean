import Lox.Proofs.Visiting
import Lox.Proofs.References

/-! # Where code comes from

A run evaluates parts of its program and of the routines that there are, and makes routines of
parts of its program. So what is well-formed, and refers by known references only, evaluates
nothing else, and no operator that it applies is an unknown one. -/

namespace Lox

section Code

variable {μ : Type} (R : Reference μ → Prop)

/-- Well-formed code with known references. -/
structure Expr.From (e : Expr μ) : Prop where
  wellFormed : e.WellFormed fun _ => True
  known : ∀ r ∈ e.references, R r

structure Stmt.From (s : Stmt μ) : Prop where
  wellFormed : s.WellFormed fun _ => True
  known : ∀ r ∈ s.references, R r

structure Routine.From (r : Routine (Stmt μ)) : Prop where
  wellFormed : Routine.WellFormed (fun _ => True) r
  known : ∀ x ∈ Routine.references r, R x

/-- The expressions that an expression evaluates. -/
def Expr.parts : Expr μ → List (Expr μ)
  | .literal _ | .name _ | .this _ | .super _ _ => []
  | .grouping inner => [inner]
  | .unary _ right => [right]
  | .binary left _ right | .logical left _ right => [left, right]
  | .assign _ value => [value]
  | .call callee _ arguments => callee :: arguments
  | .get object _ => [object]
  | .set object _ value => [object, value]

/-- The expressions that a statement evaluates. -/
def Stmt.values : Stmt μ → List (Expr μ)
  | .expression value | .print value => [value]
  | .declare _ initial => initial.toList
  | .branch condition _ _ | .loop condition _ => [condition]
  | .leave _ value => value.toList
  | .klass _ parent _ => parent.toList.map .name
  | .block _ | .function _ => []

/-- The statements that a statement executes. -/
def Stmt.bodies : Stmt μ → List (Stmt μ)
  | .block body => body
  | .branch _ yes no => yes :: no.toList
  | .loop _ body => [body]
  | .expression _ | .print _ | .declare _ _ | .function _ | .leave _ _ | .klass _ _ _ => []

/-- The routines that a statement makes. -/
def Stmt.routines : Stmt μ → List (Routine (Stmt μ))
  | .function routine => [routine]
  | .klass _ _ methods => methods
  | .expression _ | .print _ | .declare _ _ | .block _ | .branch _ _ _ | .loop _ _ | .leave _ _ => []

variable {R}

theorem Expr.From.part {e p : Expr μ} (h : e.From R) (hp : p ∈ e.parts) : p.From R := by
  obtain ⟨formed, known⟩ := h
  have inside : p.references ⊆ e.references := by
    cases e <;> simp [Expr.parts] at hp <;> simp only [Expr.references] <;> grind [Expr.mem_allReferences]
  refine ⟨?_, fun r hr => known r (inside hr)⟩
  cases e <;> simp [Expr.parts, Expr.WellFormed, Expr.allWellFormed_iff] at formed hp <;> grind

theorem Stmt.From.value {s : Stmt μ} {e : Expr μ} (h : s.From R) (he : e ∈ s.values) : e.From R := by
  obtain ⟨formed, known⟩ := h
  have inside : e.references ⊆ s.references := by
    cases s <;> simp [Stmt.values] at he <;> simp only [Stmt.references] <;>
      grind [Expr.references?, Expr.references]
  refine ⟨?_, fun r hr => known r (inside hr)⟩
  cases s <;> simp [Stmt.values, Stmt.WellFormed] at formed he <;>
    grind [Expr.WellFormed?, Expr.WellFormed, Reference.WellFormed?]

theorem Stmt.From.body {s t : Stmt μ} (h : s.From R) (ht : t ∈ s.bodies) : t.From R := by
  obtain ⟨formed, known⟩ := h
  have inside : t.references ⊆ s.references := by
    cases s <;> simp [Stmt.bodies] at ht <;> simp only [Stmt.references] <;>
      grind [Stmt.references?, Stmt.mem_allReferences]
  refine ⟨?_, fun r hr => known r (inside hr)⟩
  cases s <;> simp [Stmt.bodies, Stmt.WellFormed, Stmt.allWellFormed_iff] at formed ht <;>
    grind [Stmt.WellFormed?]

theorem Stmt.From.routine {s : Stmt μ} {r : Routine (Stmt μ)} (h : s.From R) (hr : r ∈ s.routines) :
    Routine.From R r := by
  obtain ⟨formed, known⟩ := h
  have inside : Routine.references r ⊆ s.references := by
    cases s <;> simp [Stmt.routines] at hr <;> simp only [Stmt.references] <;>
      grind [Routine.mem_allReferences]
  refine ⟨?_, fun x hx => known x (inside hx)⟩
  cases s <;> simp [Stmt.routines, Stmt.WellFormed, Routine.allWellFormed_iff] at formed hr <;> grind

theorem Routine.From.statement {r : Routine (Stmt μ)} (h : Routine.From R r) {s : Stmt μ} (hs : s ∈ r.body) :
    s.From R := by
  obtain ⟨name, params, body⟩ := r
  exact ⟨(Stmt.allWellFormed_iff body).mp h.wellFormed.2.2 s hs,
    fun x hx => h.known x (Stmt.mem_allReferences.mpr ⟨s, hs, hx⟩)⟩

end Code

/-- Any other fault than that there is no such operator. -/
def Fault.Known (fault : Fault) : Prop := ∀ t, fault ≠ .runtime ⟨t, .unknownOperator⟩

variable (R : Reference Nat → Prop)

/-- All routines are made of known code. -/
def Machine.From (m : Machine) : Prop := ∀ f c, m.functions.get? f = some c → Routine.From R c.routine

namespace Run

variable {α β : Type} {Q : α → Prop} {S : β → Prop}

/-- How a run ends that has no unknown code and makes none. -/
inductive Remains (Q : α → Prop) : EStateM.Result Fault Machine α → Prop
  | ok {a : α} {m : Machine} (h : Q a) (hm : m.From R) : Remains Q (.ok a m)
  | error {fault : Fault} {m : Machine} (h : fault.Known) (hm : m.From R) : Remains Q (.error fault m)

/-- On a machine without unknown code a run makes none, and gives such a result as is told. -/
def Stays (Q : α → Prop) (x : Run α) : Prop := ∀ m, m.From R → Remains R Q (x m)

variable {R}

theorem stays_pure {a : α} (h : Q a) : Stays R Q (pure a) := fun _ hm => .ok h hm

theorem stays_throw {fault : Fault} (h : fault.Known) : Stays R Q (throw fault) := fun _ hm => .error h hm

theorem stays_bind {x : Run α} {f : α → Run β} (hx : Stays R Q x) (hf : ∀ a, Q a → Stays R S (f a)) :
    Stays R S (x >>= f) := by
  intro m hm
  have first := hx m hm
  change Remains R S (EStateM.bind x f m)
  unfold EStateM.bind
  generalize x m = r at first
  cases first with
  | ok h hm => exact hf _ h _ hm
  | error h hm => exact .error h hm

theorem stays_map {x : Run α} (f : α → β) (hx : Stays R Q x) : Stays R (fun _ => True) (f <$> x) := by
  intro m hm
  have first := hx m hm
  change Remains R _ (EStateM.map f x m)
  unfold EStateM.map
  generalize x m = r at first
  cases first with
  | ok _ hm => exact .ok trivial hm
  | error h hm => exact .error h hm

/-- A step that looks at the machine first. -/
theorem stays_look {f : Machine → Run β} (hf : ∀ m, m.From R → Stays R S (f m)) : Stays R S (get >>= f) :=
  fun m hm => hf m hm m hm

/-- A step that leaves the routines as they are. -/
theorem stays_modifyGet {f : Machine → α × Machine} (h : ∀ m, (f m).2.functions = m.functions) :
    Stays R (fun _ => True) (modifyGet f) := fun m hm => .ok trivial fun g c hc => hm g c (h m ▸ hc)

theorem stays_modify {f : Machine → Machine} (h : ∀ m, (f m).functions = m.functions) :
    Stays R (fun _ => True) (modify f) := stays_modifyGet h

theorem stays_fail (token : Token) {problem : RuntimeProblem} (h : problem ≠ .unknownOperator) :
    Stays R Q (fail token problem) := stays_throw fun _ e => h (by cases e; rfl)

theorem stays_ofScope (x : Except ScopeFault α) : Stays R (fun _ => True) (ofScope x) := by
  cases x with
  | ok a => exact stays_pure trivial
  | error fault => exact stays_throw fun _ e => by cases e

theorem stays_deref {found : Option α} (h : ∀ a, found = some a → Q a) : Stays R Q (deref found) := by
  cases found with
  | some a => exact stays_pure (h a rfl)
  | none => exact stays_throw fun _ e => by cases e

/-! ## Operations -/

theorem stays_functionAt (f : Ref .function) : Stays R (fun c => Routine.From R c.routine) (functionAt f) :=
  stays_look fun _ hm => stays_deref fun c hc => hm f c hc

theorem stays_newFunction {f : Closure} (h : Routine.From R f.routine) :
    Stays R (fun _ => True) (newFunction f) := by
  refine fun m hm => .ok trivial fun g c hc => ?_
  rw [Heap.get?_push] at hc
  split at hc
  · exact Option.some.inj hc ▸ h
  · exact hm g c hc

theorem stays_current : Stays R (fun _ => True) current := stays_look fun _ _ => stays_pure trivial

theorem stays_newScope (bindings : Bindings Value) (outer : Ref .scope) :
    Stays R (fun _ => True) (newScope bindings outer) := stays_modifyGet fun _ => rfl

theorem stays_define (name : String) (v : Value) : Stays R (fun _ => True) (define name v) :=
  stays_modify fun _ => rfl

theorem stays_record (event : Event) : Stays R (fun _ => True) (record event) := stays_modify fun _ => rfl

theorem stays_ensuring {x : Run α} (hx : Stays R Q x) (f : Machine → Machine)
    (h : ∀ m, (f m).functions = m.functions) : Stays R Q (ensuring x f) := by
  intro m hm
  have inside := hx m hm
  unfold ensuring
  generalize x m = r at inside
  cases inside with
  | ok ha hm => exact .ok ha fun g c hc => hm g c (h _ ▸ hc)
  | error he hm => exact .error he fun g c hc => hm g c (h _ ▸ hc)

theorem stays_within (scope : Ref .scope) {x : Run α} (hx : Stays R Q x) : Stays R Q (within scope x) := by
  intro m hm
  rw [within_eq]
  exact stays_ensuring hx (fun after => { after with current := m.current }) (fun _ => rfl) _ hm

theorem stays_bind_method (f : Ref .function) (receiver : Value) : Stays R (fun _ => True) (bind f receiver) :=
  stays_bind (stays_functionAt f) fun _ hc => stays_bind (stays_newScope _ _) fun _ _ => stays_newFunction hc

theorem stays_method? (k : Ref .klass) (name : String) : Stays R (fun _ => True) (method? k name) :=
  stays_look fun _ _ => stays_pure trivial

theorem stays_lookUp (r : Reference Nat) : Stays R (fun _ => True) (lookUp r) := by
  refine stays_look fun m _ => ?_
  split
  · exact stays_ofScope _
  · split
    · exact stays_pure trivial
    · exact stays_fail _ (by decide)

theorem stays_store (r : Reference Nat) (v : Value) : Stays R (fun _ => True) (store r v) := by
  refine stays_look fun m _ => ?_
  split
  · exact stays_bind (stays_ofScope _) fun scope _ => stays_modify fun _ => rfl
  · split
    · exact stays_modify fun _ => rfl
    · exact stays_fail _ (by decide)

/-- A method that has been found is bound, and a missing one is a mistake of the program. -/
theorem stays_found (name : Token) (receiver : Value) (found : Option (Ref .function)) :
    Stays R (fun _ => True) (match found with
      | some f => return Value.function (← bind f receiver)
      | none => fail name .undefinedProperty) := by
  cases found with
  | some f => exact stays_bind (stays_bind_method f receiver) fun _ _ => stays_pure trivial
  | none => exact stays_fail _ (by decide)

theorem stays_property (i : Ref .object) (name : Token) : Stays R (fun _ => True) (property i name) := by
  refine stays_bind (Q := fun _ => True) (stays_look fun _ _ => stays_deref fun _ _ => trivial) fun object _ => ?_
  split
  · exact stays_pure trivial
  · exact stays_bind (stays_method? _ _) fun found _ => stays_found name _ found

theorem stays_superMethod (keyword : Reference Nat) (name : Token) :
    Stays R (fun _ => True) (superMethod keyword name) := by
  refine stays_look fun m _ => ?_
  split
  · exact stays_throw fun _ e => by cases e
  · refine stays_bind (stays_ofScope _) fun parent _ => stays_bind (stays_ofScope _) fun receiver _ => ?_
    split
    · exact stays_bind (stays_method? _ _) fun found _ => stays_found name receiver found
    · exact stays_throw fun _ e => by cases e

/-! ## Operators -/

theorem stays_applyUnary (t : Token) (v : Value) : Stays R (fun _ => True) (ofChecked (t.applyUnary v)) := by
  unfold Token.applyUnary
  split
  · exact stays_pure trivial
  · split
    · exact stays_pure trivial
    · exact stays_fail _ (by decide)

/-- The operators that join two operands are all known. -/
theorem stays_applyBinary {t : Token} (h : t.kind.isBinary = true) (v w : Value) :
    Stays R (fun _ => True) (ofChecked (t.applyBinary v w)) := by
  have arithmetic (x y : Float) (hk : t.kind ≠ .plus ∧ t.kind ≠ .equalEqual ∧ t.kind ≠ .bangEqual) :
      Stays R (fun _ => True) (ofChecked (t.arithmetic x y)) := by
    unfold Token.arithmetic
    split
    case h_3 =>
      split
      · exact stays_fail _ (by decide)
      · exact stays_pure trivial
    case h_8 => grind [Kind.isBinary]
    all_goals exact stays_pure trivial
  unfold Token.applyBinary
  split
  · exact stays_pure trivial
  · exact stays_pure trivial
  · unfold Token.add
    split
    · exact stays_pure trivial
    · exact stays_pure trivial
    · exact stays_fail _ (by decide)
  · split
    · exact arithmetic _ _ ⟨by assumption, by assumption, by assumption⟩
    · exact stays_fail _ (by decide)

end Run

/-! ## Constructs -/

variable {R}

/-- A deed with known code. -/
def Deed.From (R : Reference Nat → Prop) : Deed → Prop
  | .evaluate e => e.From R
  | .enter c _ => Routine.From R c.routine

/-- A level that runs known code only. -/
structure Level.Stays (R : Reference Nat → Prop) (below : Level) : Prop where
  stmt : ∀ s : Stmt Nat, s.From R → Run.Stays R (fun _ => True) (below.stmt s)
  expr : ∀ e : Expr Nat, e.From R → Run.Stays R (fun _ => True) (below.expr e)

namespace Level

open Run

theorem stays_checkCount (paren : Token) (expected : Nat) (arguments : List Value) :
    Run.Stays R (fun _ => True) (checkCount paren expected arguments) := by
  unfold checkCount
  split
  · exact stays_pure trivial
  · exact stays_fail _ (by simp)

theorem stays_makeMethods (scope : Ref .scope) {rs : List (Routine (Stmt Nat))}
    (h : ∀ r ∈ rs, Routine.From R r) : Run.Stays R (fun _ => True) (makeMethods scope rs) := by
  unfold makeMethods
  generalize Bindings.empty = methods
  induction rs generalizing methods with
  | nil => exact stays_pure trivial
  | cons r rest ih =>
    rw [List.foldlM_cons]
    refine stays_bind (Q := fun _ => True) ?_ fun made _ => ih (fun r hr => h r (List.mem_cons_of_mem _ hr)) made
    exact stays_bind (stays_newFunction (h r List.mem_cons_self)) fun _ _ => stays_pure trivial

theorem stays_methodScope (parent : Option (Ref .klass)) : Run.Stays R (fun _ => True) (methodScope parent) := by
  refine stays_bind stays_current fun outer _ => ?_
  cases parent with
  | none => exact stays_pure trivial
  | some k => exact stays_newScope _ _

theorem stays_declareFunction {r : Routine (Stmt Nat)} (h : Routine.From R r) :
    Run.Stays R (fun _ => True) (declareFunction r) :=
  stays_bind stays_current fun _ _ => stays_bind (stays_newFunction h) fun _ _ =>
    stays_bind (stays_define _ _) fun _ _ => stays_look fun _ _ => stays_record _

namespace Stays

variable {below : Level} (hb : below.Stays R)
include hb

theorem executeAll {ss : List (Stmt Nat)} (h : ∀ s ∈ ss, s.From R) :
    Run.Stays R (fun _ => True) (below.executeAll ss) := by
  induction ss with
  | nil => exact stays_pure trivial
  | cons s rest ih =>
    refine stays_bind (hb.stmt s (h s List.mem_cons_self)) fun outcome _ => ?_
    cases outcome with
    | completed => exact ih fun s hs => h s (List.mem_cons_of_mem _ hs)
    | returned v => exact stays_pure trivial

theorem evaluateAll {es : List (Expr Nat)} (h : ∀ e ∈ es, e.From R) :
    Run.Stays R (fun _ => True) (below.evaluateAll es) := by
  induction es with
  | nil => exact stays_pure trivial
  | cons e rest ih =>
    exact stays_bind (hb.expr e (h e List.mem_cons_self)) fun _ _ =>
      stays_bind (ih fun e he => h e (List.mem_cons_of_mem _ he)) fun _ _ => stays_pure trivial

theorem cycle {c : Expr Nat} {s : Stmt Nat} (hc : c.From R) (hs : s.From R) :
    ∀ rounds, Run.Stays R (fun _ => True) (below.cycle c s rounds)
  | 0 => stays_throw fun _ e => by cases e
  | rounds + 1 => by
    refine stays_bind (hb.expr c hc) fun v _ => ?_
    split
    · refine stays_bind (hb.stmt s hs) fun outcome _ => ?_
      cases outcome with
      | completed => exact cycle hc hs rounds
      | returned v => exact stays_pure trivial
    · exact stays_pure trivial

theorem valueOf {e : Option (Expr Nat)} (h : ∀ x ∈ e.toList, x.From R) :
    Run.Stays R (fun _ => True) (below.valueOf e) := by
  cases e with
  | none => exact stays_pure trivial
  | some e => exact hb.expr e (h e List.mem_cons_self)

/-- A routine runs known code, as all routines do that there are. -/
theorem enter {f : Closure} (hf : Routine.From R f.routine) (arguments : List Value) :
    Run.Stays R (fun _ => True) (below.enter f arguments) := by
  refine stays_bind (stays_newScope _ _) fun inside _ =>
    stays_bind (stays_within inside (hb.executeAll fun _ => hf.statement)) fun outcome _ => ?_
  split
  · exact stays_look fun m _ => stays_ofScope _
  · cases outcome with
    | completed => exact stays_pure trivial
    | returned v => exact stays_pure trivial

section Ways

/-! Known routines may be entered in another way, as long as that stays too. -/

variable {enter : Closure → List Value → Run Value}
  (henter : ∀ c arguments, Routine.From R c.routine → Run.Stays R (fun _ => True) (enter c arguments))

omit hb
include henter

theorem constructBy (k : Ref .klass) (initializer : Option (Ref .function)) (arguments : List Value) :
    Run.Stays R (fun _ => True) (Level.constructBy enter k initializer arguments) := by
  refine stays_bind (stays_modifyGet fun _ => rfl) fun i _ => ?_
  cases initializer with
  | none => exact stays_pure trivial
  | some f =>
    exact stays_bind (stays_bind_method f _) fun g _ => stays_bind (stays_functionAt g) fun c hc =>
      stays_bind (henter c arguments hc) fun _ _ => stays_pure trivial

theorem callBy (callee : Value) (paren : Token) (arguments : List Value) :
    Run.Stays R (fun _ => True) (Level.callBy enter callee paren arguments) := by
  cases callee with
  | clock =>
    exact stays_bind (stays_checkCount _ _ _) fun _ _ =>
      stays_bind (stays_modifyGet fun _ => rfl) fun _ _ => stays_pure trivial
  | function f =>
    exact stays_bind (stays_functionAt f) fun c hc => stays_bind (stays_checkCount _ _ _) fun _ _ =>
      henter c arguments hc
  | klass k =>
    refine stays_bind (stays_method? _ _) fun initializer _ => ?_
    have go := fun arity => stays_bind (stays_checkCount (R := R) paren arity arguments) fun _ _ =>
      constructBy henter k initializer arguments
    cases initializer with
    | none => exact stays_bind (stays_pure trivial) fun arity (_ : True) => go arity
    | some f => exact stays_bind (stays_map _ (stays_functionAt f)) fun arity _ => go arity
  | _ => exact stays_fail _ (by decide)

include hb

theorem evaluateBy {e : Expr Nat} (h : e.From R) :
    Run.Stays R (fun _ => True) (below.evaluateBy enter e) := by
  have part {p : Expr Nat} (hp : p ∈ e.parts) := hb.expr p (h.part hp)
  cases e with
  | literal value => exact stays_pure trivial
  | grouping inner => exact part (by simp [Expr.parts])
  | unary operator right => exact stays_bind (part (by simp [Expr.parts])) fun v _ => stays_applyUnary _ v
  | binary left operator right =>
    exact stays_bind (part (by simp [Expr.parts])) fun l _ =>
      stays_bind (part (by simp [Expr.parts])) fun r _ => stays_applyBinary h.wellFormed.1 l r
  | logical left operator right =>
    refine stays_bind (part (by simp [Expr.parts])) fun l _ => ?_
    split
    · exact stays_pure trivial
    · exact part (by simp [Expr.parts])
  | name target => exact stays_lookUp target
  | assign target value =>
    exact stays_bind (part (by simp [Expr.parts])) fun v _ => stays_bind (stays_store target v) fun _ _ =>
      stays_pure trivial
  | call callee paren arguments =>
    exact stays_bind (part (by simp [Expr.parts])) fun f _ =>
      stays_bind (hb.evaluateAll fun a ha => h.part (List.mem_cons_of_mem _ ha)) fun vs _ =>
      callBy henter f paren vs
  | get object property =>
    refine stays_bind (part (by simp [Expr.parts])) fun v _ => ?_
    cases v with
    | object i => exact stays_property i property
    | _ => exact stays_fail _ (by decide)
  | set object property value =>
    refine stays_bind (part (by simp [Expr.parts])) fun v _ => ?_
    cases v with
    | object i =>
      exact stays_bind (part (by simp [Expr.parts])) fun v _ => stays_bind (stays_modify fun _ => rfl) fun _ _ =>
        stays_pure trivial
    | _ => exact stays_fail _ (by decide)
  | this keyword => exact stays_lookUp keyword
  | super keyword method => exact stays_superMethod keyword method

end Ways

theorem parentClass {parent : Option (Reference Nat)} (h : ∀ e ∈ parent.toList.map Expr.name, e.From R) :
    Run.Stays R (fun _ => True) (below.parentClass parent) := by
  cases parent with
  | none => exact stays_pure trivial
  | some r =>
    refine stays_bind (hb.expr _ (h _ List.mem_cons_self)) fun v _ => ?_
    split
    · exact stays_pure trivial
    · exact stays_fail _ (by decide)

theorem declareClass (name : Token) {parent : Option (Reference Nat)} {rs : List (Routine (Stmt Nat))}
    (hp : ∀ e ∈ parent.toList.map Expr.name, e.From R) (h : ∀ r ∈ rs, Routine.From R r) :
    Run.Stays R (fun _ => True) (below.declareClass name parent rs) :=
  stays_bind (hb.parentClass hp) fun k _ => stays_bind (stays_define _ _) fun _ _ =>
    stays_bind (stays_methodScope k) fun scope _ => stays_bind (stays_makeMethods scope h) fun _ _ =>
    stays_bind (stays_modifyGet fun _ => rfl) fun _ _ => stays_look fun _ _ =>
    stays_bind (stays_record _) fun _ _ => stays_define _ _

theorem execute (rounds : Nat) {s : Stmt Nat} (h : s.From R) :
    Run.Stays R (fun _ => True) (below.execute rounds s) := by
  have value {e : Expr Nat} (he : e ∈ s.values) := hb.expr e (h.value he)
  have body {t : Stmt Nat} (ht : t ∈ s.bodies) := hb.stmt t (h.body ht)
  cases s with
  | expression e => exact stays_bind (value (by simp [Stmt.values])) fun _ _ => stays_pure trivial
  | print e =>
    exact stays_bind (value (by simp [Stmt.values])) fun v _ => stays_look fun m _ =>
      stays_bind (stays_modify fun _ => rfl) fun _ _ => stays_pure trivial
  | declare name initial =>
    exact stays_bind (hb.valueOf fun _ => h.value) fun v _ => stays_bind (stays_define _ _) fun _ _ => stays_pure trivial
  | block statements =>
    exact stays_bind stays_current fun outer _ => stays_bind (stays_newScope _ _) fun scope _ =>
      stays_within scope (hb.executeAll fun _ => h.body)
  | branch condition yes no =>
    refine stays_bind (value (by simp [Stmt.values])) fun v _ => ?_
    split
    · exact body (by simp [Stmt.bodies])
    · cases no with
      | none => exact stays_pure trivial
      | some no => exact body (by simp [Stmt.bodies])
  | loop condition repeated =>
    exact hb.cycle (h.value (by simp [Stmt.values])) (h.body (by simp [Stmt.bodies])) rounds
  | function routine =>
    exact stays_bind (stays_declareFunction (h.routine (by simp [Stmt.routines]))) fun _ _ => stays_pure trivial
  | leave keyword e => exact stays_bind (hb.valueOf fun _ => h.value) fun _ _ => stays_pure trivial
  | klass name parent methods =>
    exact stays_bind (hb.declareClass name (fun _ => h.value) fun _ => h.routine) fun _ _ => stays_pure trivial

end Stays

/-- A watch that is for nothing known does not stop a run of known code. -/
theorem stays_watched {w : Watch} (never : ∀ d m, w.stops d m → ¬ d.From R) (rounds n : Nat) :
    (w.level rounds n).Stays R := by
  induction n with
  | zero => exact ⟨fun _ _ => stays_throw fun _ e => (by cases e), fun _ _ => stays_throw fun _ e => (by cases e)⟩
  | succ n ih =>
    have enter (c : Closure) (arguments : List Value) (hc : Routine.From R c.routine) :
        Run.Stays R (fun _ => True) (w.entering (w.level rounds n) c arguments) := by
      intro m hm
      rw [Watch.entering, Watch.before_passed fun stops => never (.enter c arguments) m stops hc]
      exact ih.enter hc arguments m hm
    refine ⟨fun s h => ih.execute rounds h, fun e h m hm => ?_⟩
    rw [Watch.level_expr_passed fun stops => never (.evaluate e) m stops h]
    exact ih.evaluateBy enter h m hm

end Level

theorem Run.stays_statements {level : Level} (hl : level.Stays R) {code : List (Stmt Nat)}
    (h : ∀ s ∈ code, s.From R) : Run.Stays R (fun _ => True) (statements level code) := by
  induction code with
  | nil => exact stays_pure trivial
  | cons s rest ih =>
    exact stays_bind (hl.stmt s (h s List.mem_cons_self)) fun _ _ => ih fun s hs => h s (List.mem_cons_of_mem _ hs)

theorem Run.stays_program {level : Level} (hl : level.Stays R) {code : List (Stmt Nat)}
    (h : ∀ s ∈ code, s.From R) : Run.Stays R (fun _ => True) (program level code) :=
  stays_ensuring (stays_statements hl h) _ fun _ => rfl

section Programs

variable {limits : Limits} {code : List (Stmt Nat)} {m : Machine}

/-- What a known program comes to do is known. -/
theorem ComesTo.from_known {d : Deed} {m' : Machine} (hd : ComesTo limits code m d m')
    (hc : ∀ s ∈ code, s.From R) (hm : m.From R) : d.From R := by
  refine Classical.byContradiction fun unknown => ?_
  let stop : Fault := .runtime ⟨.eof 0, .unknownOperator⟩
  obtain ⟨after, error⟩ := hd stop
  -- a known program does not come to unknown code, where the watch would stop it
  have never (x : Deed) (y : Machine) (stops : (Watch.only d m' stop).stops x y) (known : x.From R) : False :=
    unknown ((Watch.of_stops.mp stops).1 ▸ known)
  have level := Level.stays_watched (w := .only d m' stop) never limits.rounds limits.depth
  have ends : Run.Remains R (fun _ => True) (.error stop after) := error ▸ Run.stays_program level hc m hm
  cases ends with
  | error known _ => exact known _ rfl

end Programs

end Lox
