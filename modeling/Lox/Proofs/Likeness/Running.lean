import Lox.Machine.Execute
import Lox.Proofs.Likeness.Machines

/-! # Like code runs alike

Every construct does the same with like code on like machines: it gives the same
values, writes the same output and fails at like tokens. A level runs the parts of a
construct, so one lemma for each construct takes likeness from one level to the next. -/

namespace Lox

variable (T : Token → Token → Prop) (M : Nat → Nat → Prop)
  (E : Option (Array Event) → Option (Array Event) → Prop)

/-- Levels that run like code alike. -/
structure Level.Like (below below' : Level) : Prop where
  stmt : ∀ s s', Stmt.Like T M s s' → Run.Like T M E Eq (below.stmt s) (below'.stmt s')
  expr : ∀ e e', Expr.Like T M e e' → Run.Like T M E Eq (below.expr e) (below'.expr e')

variable {T M E}

namespace Level

open Run

variable {below below' : Level}

section Parts

variable (hb : below.Like T M E below')
include hb

theorem executeAll_like {ss ss' : List (Stmt Nat)} (h : List.Forall₂ (Stmt.Like T M) ss ss') :
    Run.Like T M E Eq (below.executeAll ss) (below'.executeAll ss') := by
  induction h with
  | nil => exact pure_like rfl
  | cons h _ ih =>
    refine bind_like (hb.stmt _ _ h) fun outcome _ e => ?_
    cases e
    cases outcome with
    | completed => exact ih
    | returned v => exact pure_like rfl

theorem evaluateAll_like {es es' : List (Expr Nat)} (h : List.Forall₂ (Expr.Like T M) es es') :
    Run.Like T M E Eq (below.evaluateAll es) (below'.evaluateAll es') := by
  induction h with
  | nil => exact pure_like rfl
  | cons h _ ih =>
    refine bind_like (hb.expr _ _ h) fun v _ e => ?_
    cases e
    refine bind_like ih fun vs _ e => ?_
    cases e
    exact pure_like rfl

theorem cycle_like {c c' : Expr Nat} {s s' : Stmt Nat} (hc : c.Like T M c') (hs : s.Like T M s') :
    ∀ rounds, Run.Like T M E Eq (below.cycle c s rounds) (below'.cycle c' s' rounds)
  | 0 => throw_like .unfinished
  | rounds + 1 => by
    refine bind_like (hb.expr _ _ hc) fun v _ e => ?_
    cases e
    split
    · refine bind_like (hb.stmt _ _ hs) fun outcome _ e => ?_
      cases e
      cases outcome with
      | completed => exact cycle_like hc hs rounds
      | returned v => exact pure_like rfl
    · exact pure_like rfl

theorem valueOf_like {e e' : Option (Expr Nat)} (h : Option.Rel (Expr.Like T M) e e') :
    Run.Like T M E Eq (below.valueOf e) (below'.valueOf e') := by
  cases h with
  | none => exact pure_like rfl
  | some h => exact hb.expr _ _ h

theorem parentClass_like {r r' : Option (Reference Nat)} (h : Option.Rel (Reference.Like T M) r r') :
    Run.Like T M E Eq (below.parentClass r) (below'.parentClass r') := by
  cases h with
  | none => exact pure_like rfl
  | some h =>
    refine bind_like (hb.expr _ _ (.name h)) fun v _ e => ?_
    cases e
    split
    · exact pure_like rfl
    · exact fail_like h.name _

end Parts

theorem checkCount_like {t u : Token} (h : T t u) (expected : Nat) (arguments : List Value) :
    Run.Like T M E Eq (checkCount t expected arguments) (checkCount u expected arguments) := by
  unfold checkCount
  split
  · exact pure_like rfl
  · exact fail_like h _

theorem methodScope_like (parent : Option (Ref .klass)) :
    Run.Like T M E Eq (methodScope parent) (methodScope parent) := by
  refine bind_like current_like fun outer _ e => ?_
  cases e
  cases parent with
  | none => exact pure_like rfl
  | some k => exact newScope_like _ _

variable (hT : ∀ t u, T t u → t.SameText u)
include hT

theorem lexemes_like {ps ps' : List Token} (h : List.Forall₂ T ps ps') :
    ps'.map (·.lexeme) = ps.map (·.lexeme) := by
  induction h with
  | nil => rfl
  | cons h _ ih => rw [List.map_cons, List.map_cons, ih, (hT _ _ h).lexeme]

omit hT in
theorem arity_like {f f' : Closure} (h : f.Like T M f') : f'.arity = f.arity := by
  obtain ⟨routine, -, -⟩ := h
  unfold Closure.arity
  generalize f.routine = r at routine ⊢
  generalize f'.routine = r' at routine ⊢
  cases routine with
  | mk _ hp _ => exact hp.length_eq.symm

/-- Methods are made in order, and a name stands for the last one made for it. -/
theorem makeMethods_like (scope : Ref .scope) {rs rs' : List (Routine (Stmt Nat))}
    (h : List.Forall₂ (Routine.Like T (Stmt.Like T M)) rs rs') :
    Run.Like T M E Eq (makeMethods scope rs) (makeMethods scope rs') := by
  unfold makeMethods
  generalize Bindings.empty = methods
  induction h generalizing methods with
  | nil => exact pure_like rfl
  | @cons r r' _ _ h _ ih =>
    rw [List.foldlM_cons, List.foldlM_cons, (hT _ _ h.name).lexeme]
    refine bind_like (R := Eq) ?_ fun made _ e => e ▸ ih made
    refine bind_like (newFunction_like ⟨h, rfl, rfl⟩) fun f _ e => ?_
    cases e
    exact pure_like rfl

section Calls

variable (hb : below.Like T M E below')
include hb

theorem enter_like {f f' : Closure} (hf : f.Like T M f') (arguments : List Value) :
    Run.Like T M E Eq (below.enter f arguments) (below'.enter f' arguments) := by
  obtain ⟨r, scope, isInitializer⟩ := f
  obtain ⟨r', _, _⟩ := f'
  obtain ⟨hr, rfl, rfl⟩ := hf
  cases hr with
  | @mk _ _ ps _ body _ hn hp hbody =>
    unfold enter
    dsimp only
    rw [lexemes_like hT hp]
    refine bind_like (newScope_like _ _) fun inside _ e => ?_
    cases e
    refine bind_like (within_like inside (executeAll_like hb hbody)) fun outcome _ e => ?_
    cases e
    split
    · exact get_bind_like fun m m' hm => by rw [hm.scopes]; exact ofScope_like _
    · cases outcome with
      | completed => exact pure_like rfl
      | returned v => exact pure_like rfl

theorem construct_like (k : Ref .klass) (initializer : Option (Ref .function)) (arguments : List Value) :
    Run.Like T M E Eq (below.construct k initializer arguments)
      (below'.construct k initializer arguments) := by
  refine bind_like (newInstance_like _) fun i _ e => ?_
  cases e
  cases initializer with
  | none => exact pure_like rfl
  | some f =>
    refine bind_like (bind_method_like f _) fun g _ e => ?_
    cases e
    refine bind_like (functionAt_like g) fun _ _ hf => ?_
    exact bind_like (enter_like hT hb hf arguments) fun _ _ _ => pure_like rfl

theorem call_like (callee : Value) {t u : Token} (h : T t u) (arguments : List Value) :
    Run.Like T M E Eq (below.call callee t arguments) (below'.call callee u arguments) := by
  cases callee with
  | clock =>
    refine bind_like (checkCount_like h _ _) fun _ _ _ => ?_
    exact bind_like readClock_like fun _ _ e => pure_like (congrArg _ e)
  | function f =>
    refine bind_like (functionAt_like f) fun f f' hf => ?_
    rw [arity_like hf]
    exact bind_like (checkCount_like h _ _) fun _ _ _ => enter_like hT hb hf arguments
  | klass k =>
    refine bind_like (method?_like _ _) fun initializer _ e => ?_
    cases e
    have go := fun arity => bind_like (checkCount_like h arity arguments) fun _ _ _ =>
      construct_like hT hb k initializer arguments
    cases initializer with
    | none => exact bind_like (pure_like rfl) fun arity _ e => e ▸ go arity
    | some f =>
      refine bind_like (map_like (functionAt_like f) fun _ _ hf => (arity_like hf).symm) fun arity _ e => ?_
      cases e
      exact go arity
  | _ => exact fail_like h _

theorem evaluate_like {e e' : Expr Nat} (h : e.Like T M e') :
    Run.Like T M E Eq (below.evaluate e) (below'.evaluate e') := by
  cases h with
  | literal value => exact pure_like rfl
  | grouping h => exact hb.expr _ _ h
  | unary ho h =>
    refine bind_like (hb.expr _ _ h) fun v _ e => ?_
    cases e
    exact applyUnary_like hT ho v
  | binary hl ho hr =>
    refine bind_like (hb.expr _ _ hl) fun l _ e => ?_
    cases e
    refine bind_like (hb.expr _ _ hr) fun r _ e => ?_
    cases e
    exact applyBinary_like hT ho l r
  | logical hl ho hr =>
    refine bind_like (hb.expr _ _ hl) fun l _ e => ?_
    cases e
    rw [settles_like hT ho]
    split
    · exact pure_like rfl
    · exact hb.expr _ _ hr
  | name h => exact lookUp_like hT h
  | assign h he =>
    refine bind_like (hb.expr _ _ he) fun v _ e => ?_
    cases e
    exact bind_like (store_like hT h v) fun _ _ _ => pure_like rfl
  | call hc hp ha =>
    refine bind_like (hb.expr _ _ hc) fun f _ e => ?_
    cases e
    refine bind_like (evaluateAll_like hb ha) fun vs _ e => ?_
    cases e
    exact call_like hT hb f hp vs
  | get ho hp =>
    refine bind_like (hb.expr _ _ ho) fun object _ e => ?_
    cases e
    cases object with
    | object i => exact property_like hT i hp
    | _ => exact fail_like hp _
  | set ho hp hv =>
    refine bind_like (hb.expr _ _ ho) fun object _ e => ?_
    cases e
    rw [(hT _ _ hp).lexeme]
    cases object with
    | object i =>
      refine bind_like (hb.expr _ _ hv) fun v _ e => ?_
      cases e
      exact bind_like (setField_like i _ v) fun _ _ _ => pure_like rfl
    | _ => exact fail_like hp _
  | this h => exact lookUp_like hT h
  | super h hm => exact superMethod_like hT h hm

end Calls

variable (hE : ∀ a b e, E a b → E (a.map (·.push e)) (b.map (·.push e)))
include hE

theorem declareFunction_like {r r' : Routine (Stmt Nat)} (h : r.Like T (Stmt.Like T M) r') :
    Run.Like T M E Eq (declareFunction r) (declareFunction r') := by
  unfold declareFunction
  rw [(hT _ _ h.name).lexeme]
  refine bind_like current_like fun scope _ e => ?_
  cases e
  refine bind_like (newFunction_like ⟨h, rfl, rfl⟩) fun f _ e => ?_
  cases e
  refine bind_like (define_like _ _) fun _ _ _ => get_bind_like fun m m' hm => ?_
  rw [hm.scopes]
  exact record_like hE _

variable (hb : below.Like T M E below')
include hb

theorem declareClass_like {t u : Token} (ht : T t u) {parent parent' : Option (Reference Nat)}
    (hp : Option.Rel (Reference.Like T M) parent parent') {rs rs' : List (Routine (Stmt Nat))}
    (h : List.Forall₂ (Routine.Like T (Stmt.Like T M)) rs rs') :
    Run.Like T M E Eq (below.declareClass t parent rs) (below'.declareClass u parent' rs') := by
  unfold declareClass
  rw [(hT t u ht).lexeme]
  refine bind_like (parentClass_like hb hp) fun k _ e => ?_
  cases e
  refine bind_like (define_like _ _) fun _ _ _ => ?_
  refine bind_like (methodScope_like k) fun scope _ e => ?_
  cases e
  refine bind_like (makeMethods_like hT scope h) fun made _ e => ?_
  cases e
  refine bind_like (newClass_like _) fun c _ e => ?_
  cases e
  refine get_bind_like fun m m' hm => ?_
  unfold Machine.nameOfClass
  rw [hm.classes]
  exact bind_like (record_like hE _) fun _ _ _ => define_like _ _

theorem execute_like (rounds : Nat) {s s' : Stmt Nat} (h : s.Like T M s') :
    Run.Like T M E Eq (below.execute rounds s) (below'.execute rounds s') := by
  cases h with
  | expression h => exact bind_like (hb.expr _ _ h) fun _ _ _ => pure_like rfl
  | print h =>
    refine bind_like (hb.expr _ _ h) fun v _ e => ?_
    cases e
    refine get_bind_like fun m m' hm => ?_
    rw [display_like hT hm]
    exact bind_like (print_like _) fun _ _ _ => pure_like rfl
  | declare hn h =>
    refine bind_like (valueOf_like hb h) fun v _ e => ?_
    cases e
    rw [(hT _ _ hn).lexeme]
    exact bind_like (define_like _ v) fun _ _ _ => pure_like rfl
  | block h =>
    refine bind_like current_like fun outer _ e => ?_
    cases e
    refine bind_like (newScope_like _ _) fun scope _ e => ?_
    cases e
    exact within_like scope (executeAll_like hb h)
  | branch hc hy hn =>
    refine bind_like (hb.expr _ _ hc) fun v _ e => ?_
    cases e
    split
    · exact hb.stmt _ _ hy
    · cases hn with
      | none => exact pure_like rfl
      | some hn => exact hb.stmt _ _ hn
  | loop hc h => exact cycle_like hb hc h rounds
  | function h => exact bind_like (declareFunction_like hT hE h) fun _ _ _ => pure_like rfl
  | leave _ h => exact bind_like (valueOf_like hb h) fun _ _ e => pure_like (congrArg _ e)
  | klass hn hp hm => exact bind_like (declareClass_like hT hE hb hn hp hm) fun _ _ _ => pure_like rfl

omit hb in
theorem ofDepth_like (rounds : Nat) : ∀ n, (ofDepth rounds n).Like T M E (ofDepth rounds n)
  | 0 => ⟨fun _ _ _ => throw_like .tooDeep, fun _ _ _ => throw_like .tooDeep⟩
  | n + 1 => ⟨fun _ _ h => execute_like hT hE (ofDepth_like rounds n) rounds h,
      fun _ _ h => evaluate_like hT (ofDepth_like rounds n) h⟩

omit hb in
theorem ofLimits_like (limits : Limits) : (ofLimits limits).Like T M E (ofLimits limits) :=
  ofDepth_like hT hE limits.rounds limits.depth

end Level

namespace Run

variable {level level' : Level} (hl : level.Like T M E level') {code code' : List (Stmt Nat)}
  (hc : List.Forall₂ (Stmt.Like T M) code code')
include hl hc

theorem statements_like : Run.Like T M E Eq (statements level code) (statements level' code') := by
  induction hc with
  | nil => exact pure_like rfl
  | cons h _ ih => exact bind_like (hl.stmt _ _ h) fun _ _ _ => ih

theorem program_like {m m' : Machine} (hm : m.Like T M E m') :
    Ends T M E Eq (Machine.globals, m.table) (program level code m) (program level' code' m') := by
  refine ensuring_like (statements_like hl hc) ?back hm ?setting
  case back => exact fun _ _ hm => { hm with current := rfl }
  case setting => exact fun _ same => congrArg (Machine.globals, ·) (congrArg Prod.snd same)

end Run

end Lox
