import Lox.Proofs.Agreement.Objects

/-! # Expressions on the two sides

Code may run where it fits the names in force and where `this`, if it speaks of it,
is the receiver of the method to which it belongs. Two levels are in step if they do
the same with all such code, and then the levels above them are in step as well. -/

namespace Lox.Agreement

open Lexical (Location Env Store)

variable {origin : Scopes} {p q : Joint origin} {pending : Option String}
  {F G : (Nat → Option Nat) → Surroundings → Prop} {S T : List (Reference Nat)}

/-- Code may run here: `F` says that it fits and `S` has its uses of `this` and `super`. -/
structure Joint.Allows (p : Joint origin) (pending : Option String)
    (F : (Nat → Option Nat) → Surroundings → Prop) (S : List (Reference Nat)) : Prop where
  standing : p.Standing pending
  fits : ∀ hops, p.Knows hops → F hops p.state.env.names
  self : ∀ keyword ∈ S, p.Activation p.state.env keyword

namespace Joint.Allows

theorem stays (h : p.Allows pending F S) (k : Stays p q) : q.Allows pending F S where
  standing := h.standing.stays k
  fits hops hk := by
    rw [k.env]
    exact h.fits hops (k.grows.known hops hk)
  self keyword hk := by
    rw [k.env]
    exact k.grows.activation (h.self keyword hk)

/-- A part of the code. -/
theorem part (h : p.Allows pending F S) (hF : ∀ hops Γ, F hops Γ → G hops Γ) (hS : T ⊆ S) :
    p.Allows pending G T where
  standing := h.standing
  fits hops hk := hF hops _ (h.fits hops hk)
  self keyword hk := h.self keyword (hS hk)

theorem now (h : p.Allows pending F S) : F p.machine.table.hops? p.state.env.names :=
  h.fits _ fun _ _ => rfl

end Joint.Allows

def Joint.AllowsExpr (p : Joint origin) (pending : Option String) (e : Expr Nat) : Prop :=
  p.Allows pending (fun hops Γ => e.Fits hops Γ pending) e.selfReferences

def Joint.AllowsAllExprs (p : Joint origin) (pending : Option String) (es : List (Expr Nat)) : Prop :=
  p.Allows pending (fun hops Γ => Expr.AllFit hops Γ pending es) (Expr.allSelfReferences es)

def Joint.AllowsStmt (p : Joint origin) (s : Stmt Nat) : Prop :=
  p.Allows none (fun hops Γ => s.Fits hops Γ) s.selfReferences

def Joint.AllowsAllStmts (p : Joint origin) (ss : List (Stmt Nat)) : Prop :=
  p.Allows none (fun hops Γ => Stmt.AllFit hops Γ ss) (Stmt.allSelfReferences ss)

/-- A statement has run: the name that it declares, if it declares one, is in scope. -/
structure Advances (p : Joint origin) (s : Stmt Nat) (q : Joint origin) : Prop extends Follows p q where
  standing : q.Standing none
  names : q.state.env.names = p.state.env.names.after s
  this : q.state.env.find? "this" = p.state.env.find? "this"
  stays : s.declared? = none → Stays p q

/-- The two levels do the same with all code that may run. -/
structure InStep (origin : Scopes) (below : Level) (lower : Lexical.Level Nat) : Prop where
  expr : ∀ {p : Joint origin} {pending} (e : Expr Nat), Sim p → p.AllowsExpr pending e →
    Agree p (below.expr e) (lower.expr e) (Gives p)
  stmt : ∀ {p : Joint origin} (s : Stmt Nat), Sim p → p.AllowsStmt s →
    Agree p (below.stmt s) (lower.stmt s)
      (fun a b q => a = b ∧ q.ValidOutcome a ∧ Advances p s q)

/-! ## Operators -/

/-- What an operator makes is no object. -/
def Value.Plain : Value → Prop
  | .nil | .bool _ | .number _ | .string _ => True
  | .clock | .function _ | .klass _ | .object _ => False

theorem Value.Plain.valid {v : Value} (h : Value.Plain v) : p.Valid v := by
  cases v with
  | nil | bool _ | number _ | string _ => trivial
  | clock | function _ | klass _ | object _ => exact h.elim

theorem applyUnary_plain {operator : Token} {v w : Value} (h : operator.applyUnary v = .ok w) :
    Value.Plain w := by
  unfold Token.applyUnary at h
  split at h
  · cases h
    trivial
  · split at h <;> cases h
    trivial

theorem arithmetic_plain {operator : Token} {x y : Float} {w : Value}
    (h : operator.arithmetic x y = .ok w) : Value.Plain w := by
  unfold Token.arithmetic at h
  repeat' split at h
  all_goals cases h
  all_goals trivial

theorem add_plain {operator : Token} {v w u : Value} (h : operator.add v w = .ok u) :
    Value.Plain u := by
  unfold Token.add at h
  split at h <;> cases h <;> trivial

theorem applyBinary_plain {operator : Token} {v w u : Value}
    (h : operator.applyBinary v w = .ok u) : Value.Plain u := by
  unfold Token.applyBinary at h
  split at h
  · cases h; trivial
  · cases h; trivial
  · exact add_plain h
  · split at h
    · exact arithmetic_plain h
    · cases h

theorem agree_ofChecked (h : Sim p) {result : Except RuntimeError Value}
    (hp : ∀ v, result = .ok v → Value.Plain v) :
    Agree p (Run.ofChecked result) (Lexical.Run.ofChecked result) (Gives p) := by
  cases result with
  | ok v => exact .pure h ⟨rfl, (hp v rfl).valid, .refl h⟩
  | error e => exact .throw h trivial

/-! ## `super` -/

theorem isSome_find? {env : Env} {x : String} {d : Nat} (h : env.names.distance? x = some d) :
    ∃ l, env.find? x = some l := by
  cases hl : env.find? x with
  | none =>
    rw [distance?_names.mpr hl] at h
    cases h
  | some l => exact ⟨l, rfl⟩

/-- What a use of `super` finds: the parent, and one scope nearer the receiver. -/
structure SuperAt (p : Joint origin) (d : Nat) (k : Ref .klass) (i : Ref .object) (outer inner : Ref .scope) :
    Prop where
  atOuter : p.scopes.scopeAt (d + 1) p.machine.current = .ok outer
  parent : p.scopes.lookup? outer "super" = some (.klass k)
  atInner : p.scopes.scopeAt d p.machine.current = .ok inner
  receiver : p.scopes.lookup? inner "this" = some (.object i)
  readParent : Lexical.Run.read p.state.env "super" p.state = .ok (.klass k) p.state
  readReceiver : Lexical.Run.read p.state.env "this" p.state = .ok (.object i) p.state

theorem Joint.Standing.superAt (h : Sim p) (hs : p.Standing pending) {d : Nat}
    (hd : p.state.env.names.distance? "super" = some (d + 1))
    (ht : p.state.env.names.distance? "this" = some d) :
    ∃ k i outer inner, SuperAt p d k i outer inner := by
  obtain ⟨l, hl⟩ := isSome_find? hd
  obtain ⟨l', hl'⟩ := isSome_find? ht
  have keyword : ∀ x, ¬ Ordinary x → p.state.env.names.distance? x = some 0 → pending ≠ some x :=
    fun x hx e => absurd e (hs.distance?_ne hx)
  obtain ⟨e, outer, v, he, houter, -, hv, hv'⟩ :=
    h.found hs.chain hs.settled hl (keyword "super" fun hx => hx.2 rfl)
  obtain ⟨e', inner, w, he', hinner, -, hw, hw'⟩ :=
    h.found hs.chain hs.settled hl' (keyword "this" fun hx => hx.1 rfl)
  obtain ⟨k, rfl⟩ := (h.locals.suits outer "super" v hv').super rfl
  obtain ⟨i, rfl⟩ := (h.locals.suits inner "this" w hw').this rfl
  rw [hd] at he
  rw [ht] at he'
  cases he
  cases he'
  exact ⟨k, i, outer, inner, houter, hv', hinner, hw', read_eq hl hv, read_eq hl' hw⟩

theorem agree_superMethod (h : Sim p) {keyword : Reference Nat} {name : Token} {d : Nat}
    {k : Ref .klass} {i : Ref .object} {outer inner : Ref .scope}
    (hd : p.machine.table.hops? keyword.mark = some (d + 1)) (hs : SuperAt p d k i outer inner) :
    Agree p (Run.superMethod keyword name) (Lexical.Run.superMethod name) (Gives p) := by
  have parent : Run.ofScope (p.machine.scopes.getAt (d + 1) "super" p.machine.current) =
      pure (.klass k) := by
    have e := getAt_eq hs.atOuter hs.parent
    exact congrArg Run.ofScope e
  have receiver : Run.ofScope (p.machine.scopes.getAt (d + 1 - 1) "this" p.machine.current) =
      pure (.object i) := by
    have e := getAt_eq hs.atInner hs.receiver
    exact congrArg Run.ofScope e
  have made : (p.machine.instances.get? i).isSome := h.values inner "this" _ hs.receiver
  rw [Run.superMethod, Lexical.Run.superMethod]
  refine .get_left (.get_right ?_)
  simp only [hd, parent, receiver]
  refine .bind_eq rfl hs.readParent (.bind_eq rfl hs.readReceiver ?_)
  refine .bind_eq rfl (h.method?_eq k name.lexeme) ?_
  cases hm : p.machine.classes.method? k name.lexeme with
  | none => exact .fail h _ _
  | some f =>
    obtain ⟨k, c, env, hm⟩ := h.member hm
    refine (agree_bind h hm made).bind ?_
    rintro a _ q hq ⟨rfl, ⟨e, env, hd⟩, stays⟩
    exact .pure hq.sim ⟨rfl, hd.valid, stays⟩

end Lox.Agreement
