import Lox.Proofs.SessionAgreement
import Lox.Proofs.Visiting

/-! # What `this` and `super` mean

A method is written in a scope that binds `super` to the parent of its class, and it
is bound to a receiver in a scope of its own inside that one. Wherever a use of
`this` or `super` is evaluated, the address of the keyword leads to these two
scopes. The parent is thus the one that the class was made with, whatever the class
of the receiver is and whatever the names of the classes stand for by then. -/

namespace Lox

/-- A use of `super` looks the method up from the parent of the class to which the use
belongs, and binds it to what `this` is there. -/
structure Machine.SuperIs (m : Machine) (keyword : Reference Nat) (method : Token)
    (scope : Ref .scope) (receiver : Ref .object) (k : Klass) (c : Closure) (parent : Ref .klass) :
    Prop where
  bound : m.Bound scope receiver k c
  belongs : keyword ∈ Routine.selfReferences c.routine
  inherits : k.parent = some parent
  address : ∃ d, m.table.hops? keyword.mark = some (d + 1) ∧
    m.scopes.scopeAt (d + 1) m.current = .ok c.scope ∧ m.scopes.scopeAt d m.current = .ok scope ∧
    m.scopes.getAt d "this" m.current = .ok (.object receiver)
  value : Run.superMethod keyword method m =
    (match m.classes.method? parent method.lexeme with
      | some f => return .function (← Run.bind f (.object receiver))
      | none => Run.fail method .undefinedProperty : Run Value) m

namespace Agreement

variable {origin : Scopes} {p : Joint origin} {pending : Option String}

theorem scopeAt_around {s : Scopes} {d : Nat} {r around : Ref .scope} :
    ∀ {start : Ref .scope}, s.scopeAt d start = .ok r → s.enclosing? r = some around →
      s.scopeAt (d + 1) start = .ok around := by
  induction d with
  | zero =>
    intro start hr ha
    cases hr
    rw [Scopes.scopeAt_succ ha, Scopes.scopeAt_zero]
  | succ d ih =>
    intro start hr ha
    cases he : s.enclosing? start with
    | none =>
      simp only [Scopes.scopeAt, Scopes.ancestor, he] at hr
      cases d <;> cases hr
    | some outer =>
      rw [Scopes.scopeAt_succ he] at hr ⊢
      exact ih hr ha

/-- Where code that belongs to a method runs, `this` is at the distance that fits. -/
theorem Joint.Activation.at (hs : p.Standing pending) {keyword : Reference Nat}
    (ha : p.Activation p.state.env keyword) {d : Nat}
    (hd : p.state.env.names.distance? "this" = some d) :
    ∃ scope receiver k c, p.machine.Bound scope receiver k c ∧
      keyword ∈ Routine.selfReferences c.routine ∧
      p.scopes.scopeAt d p.machine.current = .ok scope ∧
      p.scopes.getAt d "this" p.machine.current = .ok (.object receiver) := by
  obtain ⟨l, scope, receiver, k, c, hl, home, bound, belongs⟩ := ha
  obtain ⟨d', s, hd', hs', home'⟩ := hs.chain.find hl
  rw [hd] at hd'
  cases hd'
  rw [home] at home'
  cases home'
  exact ⟨scope, receiver, k, c, bound, belongs, hs', getAt_eq hs' bound.this⟩

theorem Joint.AllowsExpr.superIs (h : Sim p) {keyword : Reference Nat} {method : Token}
    (ha : p.AllowsExpr pending (.super keyword method)) :
    ∃ scope receiver k c parent,
      p.machine.SuperIs keyword method scope receiver k c parent := by
  obtain ⟨d, hd, hsuper, hthis⟩ := ha.now
  obtain ⟨scope, receiver, k, c, bound, belongs, place, found⟩ :=
    (ha.self keyword List.mem_cons_self).at ha.standing hthis
  obtain ⟨parent, i, outer, inner, there⟩ := ha.standing.superAt h hsuper hthis
  have around := scopeAt_around place bound.around
  -- both ways lead to the scope in which the method is written
  obtain rfl : outer = c.scope := Except.ok.inj (there.atOuter.symm.trans around)
  obtain ⟨r, hr⟩ := bound.klass
  obtain ⟨x, f, hx, hf⟩ := bound.method
  obtain ⟨c', env, left, -, isMethod⟩ := h.methods r k x f hr hx
  obtain rfl : c = c' := Option.some.inj (hf.symm.trans left)
  have hparent : k.parent = some parent := by
    have e := isMethod.super.symm.trans there.parent
    obtain ⟨k', hk, e'⟩ := Option.map_eq_some_iff.mp e
    cases e'
    exact hk
  refine ⟨scope, receiver, k, c, parent, bound, belongs, hparent, ⟨d, hd, around, place, found⟩, ?_⟩
  have readParent : p.machine.scopes.getAt (d + 1) "super" p.machine.current = .ok (.klass parent) :=
    getAt_eq there.atOuter there.parent
  have readThis : p.machine.scopes.getAt (d + 1 - 1) "this" p.machine.current =
      .ok (.object receiver) := found
  have step : ∀ f : Machine → Run Value, (get >>= f) p.machine = f p.machine p.machine := fun _ => rfl
  rw [Run.superMethod, step, hd]
  dsimp only
  rw [readParent, readThis]
  rfl

end Agreement

open Agreement

/-- A session after a unit with a parent and a child, which has a method of its own. -/
def Session.inherited : Session :=
  ((Session.startOn (.ofLimits ⟨8, 8⟩) "lox" false false fun _ => 0).run
    "class A { m() { return this; } } class B < A { m() { return super.m(); } }").1

end Lox
