import Lox.Proofs.Calls.Admission
import Lox.Proofs.Lineage.Lookup
import Lox.Proofs.Receivers

/-! # The protocol of calls

A call looks at the number of its arguments once it has them all, and before it does anything
else. What it enters then takes just as many. A class gives a new object of its own, and an
initializer gives the object that it is bound to, in whichever way it has been come by. -/

namespace Lox

/-- Values that can be called. -/
def Value.isCallable : Value → Bool
  | .clock | .function _ | .klass _ => true
  | .nil | .bool _ | .number _ | .string _ | .object _ => false

/-- How many arguments a value takes. A class takes those of the initializer that it finds. -/
inductive Machine.Takes (m : Machine) : Value → Nat → Prop
  | clock : m.Takes .clock 0
  | function {f : Ref .function} {c : Closure} (hf : m.functions.get? f = some c) :
    m.Takes (.function f) c.routine.params.length
  | initialized {r : Ref .klass} {f : Ref .function} {c : Closure}
    (found : m.classes.method? r initializerName = some f) (hf : m.functions.get? f = some c) :
    m.Takes (.klass r) c.routine.params.length
  | plain {r : Ref .klass} (missing : m.classes.method? r initializerName = none) : m.Takes (.klass r) 0

/-- What comes of a call in the state that its callee and its arguments have left. -/
structure Machine.Calls (m : Machine) (callee : Value) (paren : Token) (arguments : List Value)
    (result : EStateM.Result Fault Machine Value) : Prop where
  /-- What cannot be called is refused, -/
  refused : callee.isCallable = false → result = .error (.runtime ⟨paren, .notCallable⟩) m
  /-- and what can be called refuses a wrong number of arguments, before anything else happens. -/
  counted : callee.isCallable = true → ∃ n, m.Takes callee n ∧ (arguments.length ≠ n →
    result = .error (.runtime ⟨paren, .wrongCount n arguments.length⟩) m)
  /-- A class gives an object that was not there before, of this class and no other. -/
  made (r : Ref .klass) (v : Value) (after : Machine) : callee = .klass r → result = .ok v after →
    v = .object m.instances.next ∧ m.instances.get? m.instances.next = none ∧
      ∃ o, after.instances.get? m.instances.next = some o ∧ o.klass = r

/-- A value is the method of the given name, bound to the given object. -/
def Machine.IsMethodOf (m : Machine) (v : Value) (x : String) (i : Ref .object) : Prop :=
  ∃ f c, v = .function f ∧ m.functions.get? f = some c ∧ m.Binds c x i

/-- What holds of calls, and of methods that are asked for, where an expression is evaluated.
An initializer that is called as a method gives the object that it is bound to. -/
def Expr.KeepsProtocol (m : Machine) : Expr Nat → Prop
  | .call callee paren arguments => paren.kind = .rightParen ∧ ∀ rounds n f m₁ vs m₂,
    (Level.ofDepth rounds n).expr callee m = .ok f m₁ →
    (Level.ofDepth rounds n).evaluateAll arguments m₁ = .ok vs m₂ →
    let result := (Level.ofDepth rounds (n + 1)).expr (.call callee paren arguments) m
    m₂.Calls f paren vs result ∧ ∀ i v after, m₁.IsMethodOf f initializerName i →
      result = .ok v after → v = .object i
  | .get object property => ∀ rounds n i m₁ o v after,
    (Level.ofDepth rounds n).expr object m = .ok (.object i) m₁ →
    m₁.instances.get? i = some o → o.fields.get? property.lexeme = none →
    (Level.ofDepth rounds (n + 1)).expr (.get object property) m = .ok v after →
      after.IsMethodOf v property.lexeme i
  | .super keyword method => ∃ d i, m.table.hops? keyword.mark = some (d + 1) ∧
    m.scopes.getAt d "this" m.current = .ok (.object i) ∧ ∀ rounds n v after,
      (Level.ofDepth rounds (n + 1)).expr (.super keyword method) m = .ok v after →
        after.IsMethodOf v method.lexeme i
  | .literal _ | .grouping _ | .unary _ _ | .binary _ _ _ | .logical _ _ _ | .name _ | .assign _ _
  | .set _ _ _ | .this _ => True

variable {m after : Machine} {below : Level} {callee v : Value} {paren : Token} {arguments : List Value}
  {f : Ref .function} {r : Ref .klass} {c : Closure} {rounds n : Nat}

/-! ## The number of arguments -/

theorem Level.call_function (hf : m.functions.get? f = some c) :
    below.call (.function f) paren arguments m =
      if arguments.length = c.arity then below.enter c arguments m
      else .error (.runtime ⟨paren, .wrongCount c.arity arguments.length⟩) m := by
  rw [call, callBy, Run.bind_ok (Run.functionAt_eq hf)]
  exact checkCount_then paren c.arity arguments _ m

theorem Machine.Takes.call_klass (h : m.Takes (.klass r) n) :
    below.call (.klass r) paren arguments m =
      if arguments.length = n then below.construct r (m.classes.method? r initializerName) arguments m
      else .error (.runtime ⟨paren, .wrongCount n arguments.length⟩) m := by
  refine below.call_klass (fun missing => ?_) (fun f found => ?_) paren arguments
  · cases h with
    | initialized found => cases found.symm.trans missing
    | plain => rfl
  · cases h with
    | initialized found' hf =>
      obtain rfl := Option.some.inj (found'.symm.trans found)
      exact ⟨_, hf, rfl⟩
    | plain missing => cases missing.symm.trans found

theorem Machine.Takes.call_wrong (h : m.Takes callee n) (wrong : arguments.length ≠ n) :
    below.call callee paren arguments m =
      .error (.runtime ⟨paren, .wrongCount n arguments.length⟩) m := by
  cases callee with
  | clock =>
    cases h
    exact (Level.checkCount_then paren 0 arguments _ m).trans (if_neg wrong)
  | function f =>
    cases h with
    | function hf => exact (Level.call_function hf).trans (if_neg wrong)
  | klass r => exact h.call_klass.trans (if_neg wrong)
  | nil | bool _ | number _ | string _ | object _ => cases h

/-! ## Construction -/

/-- What an initializer does after the object has been made leaves it in its class. -/
theorem Level.construct_ok {initializer : Option (Ref .function)}
    (h : (ofDepth rounds n).construct r initializer arguments m = .ok v after) :
    v = .object m.instances.next ∧ ∃ o, after.instances.get? m.instances.next = some o ∧ o.klass = r := by
  let new : Machine := { m with instances := m.instances.push ⟨r, .empty⟩ }
  have begun : new.instances.get? m.instances.next = some ⟨r, .empty⟩ := Heap.get?_push_next
  cases initializer with
  | none =>
    cases h
    exact ⟨rfl, _, begun, rfl⟩
  | some f =>
    have h : (Run.bind f (.object m.instances.next) >>= fun g => Run.functionAt g >>= fun c =>
      (ofDepth rounds n).enter c arguments >>= fun _ => pure (.object m.instances.next)) new = .ok v after := h
    obtain ⟨g, m₁, bound, h⟩ := Run.bind_eq_ok h
    obtain ⟨c, m₂, code, h⟩ := Run.bind_eq_ok h
    obtain ⟨_, m₃, entered, h⟩ := Run.bind_eq_ok h
    cases h
    have first := Run.closed_adds.bindMethod (ι := Unit) f (.object m.instances.next) new
    have second := Run.closed_adds.functionAt (ι := Unit) g m₁
    have third := Run.closed_adds.enter (fun _ : Unit => ofDepth rounds n) (adds_ofDepth rounds n).2 c arguments m₂
    rw [Run.after_ok bound] at first
    rw [Run.after_ok code] at second
    rw [Run.after_ok entered] at third
    exact ⟨rfl, ((first.trans second).trans third).instances _ _ begun⟩

namespace Agreement

variable {origin : Scopes} {p : Joint origin} {pending : Option String} {x : String} {i : Ref .object}

/-! ## Bound methods -/

/-- A method that a class finds, when it has been bound to an object. -/
theorem Sim.isMethodOf_binding (h : Sim p) (found : p.machine.classes.method? r x = some f)
    (result : (Run.bind f (.object i) >>= fun g => pure (.function g) : Run Value) p.machine = .ok v after) :
    after.IsMethodOf v x i := by
  obtain ⟨k, c, env, hm⟩ := h.member found
  rw [Run.bind_ok (Run.bind_object hm.left i)] at result
  cases result
  let made : Closure := { c with scope := p.machine.scopes.next }
  have new : (p.machine.binding c i).functions.get? p.machine.functions.next = some made := Heap.get?_push_next
  have this : (p.machine.binding c i).scopes.lookup? p.machine.scopes.next "this" = some (.object i) := by
    rw [Machine.binding, Scopes.lookup?_add_next]
    exact Scopes.get?_single.mpr ⟨rfl, rfl⟩
  have around : (p.machine.binding c i).scopes.enclosing? p.machine.scopes.next = some c.scope := by
    rw [Machine.binding, Scopes.enclosing?, Scopes.get?_add_next]
    rfl
  have bound : (p.machine.binding c i).Bound p.machine.scopes.next i k c :=
    ⟨this, around, hm.klass, ⟨x, f, hm.entry, Heap.get?_push_of_some hm.left⟩, ⟨_, new⟩⟩
  exact ⟨_, made, rfl, new, hm.isMethod.named, k, c, bound, rfl⟩

theorem Keeps.isMethodOf {later : Scopes} {q : Joint later} (k : Keeps p q)
    (h : p.machine.IsMethodOf v x i) : q.machine.IsMethodOf v x i := by
  obtain ⟨f, c, rfl, hf, named, klass, d, bound, same⟩ := h
  exact ⟨f, c, rfl, k.functions f c hf, named, klass, d, k.bound bound, same⟩

theorem Joint.AllowsExpr.keepsProtocol_get (h : Sim p) {object : Expr Nat} {property : Token}
    (ha : p.AllowsExpr pending (.get object property)) :
    (Expr.get object property).KeepsProtocol p.machine := by
  intro rounds n i m₁ o v after hi ho missing result
  obtain ⟨_, q, rfl, hq, -⟩ := ((inStep_ofDepth rounds n).expr object h ha).of_left_ok hi
  have asked : (Level.ofDepth rounds (n + 1)).expr (.get object property) p.machine =
    Run.property i property q.machine := Run.bind_ok hi
  rw [asked, Run.property, Run.bind_ok (instanceAt_eq ho), missing] at result
  obtain ⟨_, _, look, result⟩ := Run.bind_eq_ok result
  cases look
  cases found : q.machine.classes.method? o.klass property.lexeme with
  | some f =>
    rw [found] at result
    exact hq.sim.isMethodOf_binding found result
  | none =>
    rw [found] at result
    cases result

theorem Joint.AllowsExpr.keepsProtocol_super (h : Sim p) {keyword : Reference Nat} {method : Token}
    (ha : p.AllowsExpr pending (.super keyword method)) :
    (Expr.super keyword method).KeepsProtocol p.machine := by
  obtain ⟨scope, i, k, c, parent, there⟩ := ha.superIs h
  obtain ⟨d, hd, -, -, this⟩ := there.address
  refine ⟨d, i, hd, this, fun rounds n v after result => ?_⟩
  have asked : (Level.ofDepth rounds (n + 1)).expr (.super keyword method) p.machine = _ := there.value
  rw [asked] at result
  cases found : p.machine.classes.method? parent method.lexeme with
  | some f =>
    rw [found] at result
    exact h.isMethodOf_binding found result
  | none =>
    rw [found] at result
    cases result

/-! ## Calls -/

theorem Sim.takes (h : Sim p) (hv : p.Valid callee) (callable : callee.isCallable = true) :
    ∃ n, p.machine.Takes callee n := by
  cases callee with
  | clock => exact ⟨0, .clock⟩
  | function f =>
    obtain ⟨c, env, left, -⟩ := hv
    exact ⟨_, .function left⟩
  | klass r =>
    cases found : p.machine.classes.method? r initializerName with
    | none => exact ⟨0, .plain found⟩
    | some f =>
      obtain ⟨k, c, env, hm⟩ := h.member found
      exact ⟨_, .initialized found hm.left⟩
  | nil | bool _ | number _ | string _ | object _ => cases callable

theorem Sim.calls (h : Sim p) (hv : p.Valid callee) :
    p.machine.Calls callee paren arguments ((Level.ofDepth rounds n).call callee paren arguments p.machine) where
  refused other := by
    cases callee with
    | clock | function _ | klass _ => cases other
    | nil | bool _ | number _ | string _ | object _ => rfl
  counted callable := by
    obtain ⟨n, takes⟩ := h.takes hv callable
    exact ⟨n, takes, takes.call_wrong⟩
  made r v after eq result := by
    subst eq
    obtain ⟨k, takes⟩ := h.takes hv rfl
    rw [takes.call_klass] at result
    split at result
    · obtain ⟨rfl, made⟩ := Level.construct_ok result
      exact ⟨rfl, by simp [Heap.get?, Heap.next], made⟩
    · cases result

theorem Sim.call_gives_receiver (h : Sim p) (hv : p.Valid callee) (ha : ∀ v ∈ arguments, p.Valid v)
    (hm : p.machine.IsMethodOf callee initializerName i)
    (result : (Level.ofDepth rounds n).call callee paren arguments p.machine = .ok v after) : v = .object i := by
  obtain ⟨f, c, rfl, hf, binds⟩ := hm
  obtain ⟨d, env, left, -, callable⟩ := hv
  obtain rfl := Option.some.inj (hf.symm.trans left)
  rw [Level.call_function hf] at result
  split at result
  · rename_i count
    exact h.enter_gives_receiver callable ha count binds result
  · cases result

theorem Joint.AllowsExpr.keepsProtocol_call (h : Sim p) {callee : Expr Nat} {paren : Token}
    {arguments : List (Expr Nat)} (ha : p.AllowsExpr pending (.call callee paren arguments)) :
    (Expr.call callee paren arguments).KeepsProtocol p.machine := by
  refine ⟨ha.now.1, fun rounds n f m₁ vs m₂ hf hvs => ?_⟩
  obtain ⟨first, second⟩ := ha.call
  obtain ⟨_, q, rfl, hq, rfl, valid, stays⟩ := ((inStep_ofDepth rounds n).expr callee h first).of_left_ok hf
  obtain ⟨_, r, rfl, hr, rfl, valid', stays'⟩ :=
    ((inStep_ofDepth rounds n).evaluateAll arguments hq.sim (second.stays stays)).of_left_ok hvs
  have call : (Level.ofDepth rounds (n + 1)).expr (.call callee paren arguments) p.machine =
    (Level.ofDepth rounds n).call f paren vs r.machine := (Run.bind_ok hf).trans (Run.bind_ok hvs)
  have still : r.Valid f := stays'.grows.valid valid
  rw [call]
  exact ⟨hr.sim.calls still, fun i v after bound result =>
    hr.sim.call_gives_receiver still valid' (stays'.grows.isMethodOf bound) result⟩

theorem Joint.AllowsExpr.keepsProtocol (h : Sim p) {e : Expr Nat} (ha : p.AllowsExpr pending e) :
    e.KeepsProtocol p.machine := by
  cases e with
  | call callee paren arguments => exact ha.keepsProtocol_call h
  | get object property => exact ha.keepsProtocol_get h
  | super keyword method => exact ha.keepsProtocol_super h
  | literal _ | grouping _ | unary _ _ | binary _ _ _ | logical _ _ _ | name _ | assign _ _ | set _ _ _
  | this _ => trivial

end Agreement

open Agreement

/-- In a unit that has been accepted, a routine is entered only with an argument for each of its
parameters, and every call and every method that is asked for keeps to the protocol. What the
unit does not come to makes no difference: a watch for it changes nothing. -/
theorem Session.calls_keep_protocol {s : Session} (h : s.Reachable) {source : String}
    {code : List (Stmt Nat)} {i : Interpreter} (hp : s.interpreter.prepare? source = some (code, i)) :
    (∀ c arguments m, Enters i.limits code i.machine c arguments m → m.Admits c arguments) ∧
      (∀ e m, Evaluates i.limits code i.machine e m → e.KeepsProtocol m) ∧
      ∀ w : Watch, (∀ d m, ComesTo i.limits code i.machine d m → ¬ w.stops d m) →
        Run.program (w.level i.limits.rounds i.limits.depth) code i.machine =
          Run.program (.ofLimits i.limits) code i.machine := by
  obtain ⟨t, alongside⟩ := exists_alongside h
  obtain ⟨home, accepted⟩ := (Prepared.of_prepare? hp).accepted alongside.beside
  refine ⟨fun c arguments m he => ?_, fun e m he => ?_, fun w => Watch.program_eq⟩
  · obtain ⟨q, env, rfl, hq, callable, valid, count⟩ := accepted.resting.enters accepted.fits he
    exact hq.admits callable valid count
  · obtain ⟨q, pending, rfl, hq, ha⟩ := accepted.resting.evaluates accepted.fits he
    exact ha.keepsProtocol hq

def Deed.isEntry : Deed → Bool
  | .enter _ _ => true
  | _ => false

def Deed.isCall : Deed → Bool
  | .evaluate (.call _ _ _) => true
  | _ => false

theorem Deed.eq_of_isEntry {d : Deed} (h : d.isEntry = true) : ∃ c arguments, d = .enter c arguments := by
  unfold isEntry at h
  split at h
  · exact ⟨_, _, rfl⟩
  · cases h

theorem Deed.eq_of_isCall {d : Deed} (h : d.isCall = true) :
    ∃ callee paren arguments, d = .evaluate (.call callee paren arguments) := by
  unfold isCall at h
  split at h
  · exact ⟨_, _, _, rfl⟩
  · cases h

/-- The initializer is inherited here, and it returns early. It is called by making an object,
and then by its name. -/
theorem Session.calls_keep_protocol_inherited :
    let s := Session.startOn (.ofLimits ⟨8, 8⟩) "lox" false false fun _ => 0
    let source := "class A \x7b init(x) \x7b return; \x7d \x7d class B < A \x7b\x7d B(1).init(2);"
    ∃ code i c vs m callee paren arguments m₁, s.Reachable ∧ s.interpreter.prepare? source = some (code, i) ∧
      Enters i.limits code i.machine c vs m ∧ m.Admits c vs ∧
      Evaluates i.limits code i.machine (.call callee paren arguments) m₁ ∧
      (Expr.call callee paren arguments).KeepsProtocol m₁ := by
  intro s source
  have reachable : s.Reachable := .start _ _ _ _ _
  obtain ⟨code, i, _, m, hp, comes, entry⟩ :=
    s.interpreter.exists_comesTo source Deed.isEntry (by decide +kernel)
  obtain ⟨code', i', _, m₁, hp', comes', call⟩ :=
    s.interpreter.exists_comesTo source Deed.isCall (by decide +kernel)
  obtain ⟨rfl, rfl⟩ := Prod.mk.inj (Option.some.inj (hp.symm.trans hp'))
  obtain ⟨c, vs, rfl⟩ := Deed.eq_of_isEntry entry
  obtain ⟨callee, paren, arguments, rfl⟩ := Deed.eq_of_isCall call
  obtain ⟨entries, evaluations, -⟩ := calls_keep_protocol reachable hp
  exact ⟨code, i, c, vs, m, callee, paren, arguments, m₁, reachable, hp, comes, entries c vs m comes,
    comes', evaluations _ m₁ comes'⟩

end Lox
