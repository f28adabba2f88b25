import Lox.Machine.Object
import Lox.Proofs.Fits

/-! # How the scopes of a run come about

A running program opens scopes for blocks and calls, binds methods to receivers,
makes scopes for `super`, and writes to names of its own choice. So `this` and
`super` are only ever bound by the making of a scope, and what they are bound to
never changes. -/

namespace Lox.Scopes

/-- The scopes before any program has run. -/
def first : Scopes := .add .empty (.ofList [("clock", .clock)]) none

/-- What a run has made of the scopes that it began with. -/
inductive Evolves (s : Scopes) : Scopes → Prop
  | same : Evolves s s
  /-- a block, or a call -/
  | opened {t : Scopes} (h : Evolves s t) (bindings : Bindings Value) (outer : Ref .scope)
      (ordinary : ∀ x ∈ bindings.names, Ordinary x) : Evolves s (t.add bindings (some outer))
  /-- a method bound to its receiver -/
  | bound {t : Scopes} (h : Evolves s t) (receiver : Ref .object) (outer : Ref .scope) :
      Evolves s (t.add (.ofList [("this", .object receiver)]) (some outer))
  /-- the methods of a class with a parent -/
  | inherited {t : Scopes} (h : Evolves s t) (parent : Ref .klass) (outer : Ref .scope) :
      Evolves s (t.add (.ofList [("super", .klass parent)]) (some outer))
  | written {t : Scopes} (h : Evolves s t) (r : Ref .scope) (x : String) (v : Value)
      (ordinary : Ordinary x) : Evolves s (t.define r x v)

variable {s t u : Scopes} {r outer : Ref .scope} {x y : String} {v : Value}

/-! ## Reading what has been added or written -/

theorem get?_add_of_isSome {bindings : Bindings Value} {enclosing : Option (Ref .scope)}
    (h : (s.get? r).isSome) : (s.add bindings enclosing).get? r = s.get? r := by
  rw [add, Heap.get?_push]
  split
  · rename_i e
    subst e
    simp [Heap.get?, Heap.next] at h
  · rfl

theorem get?_add_next (bindings : Bindings Value) (enclosing : Option (Ref .scope)) :
    (s.add bindings enclosing).get? s.next = some ⟨bindings, enclosing⟩ := by
  rw [add, Heap.get?_push, if_pos rfl]

theorem get?_next : s.get? s.next = none := by
  simp [Heap.get?, Heap.next]

theorem isSome_get?_define : ((s.define r x v).get? outer).isSome = (s.get? outer).isSome := by
  rw [define, Heap.get?_modify]
  split
  · rename_i e
    rw [Option.isSome_map, e]
  · rfl

theorem enclosing?_define : (s.define r x v).enclosing? outer = s.enclosing? outer := by
  rw [enclosing?, enclosing?, define, Heap.get?_modify]
  split
  · rename_i e
    subst e
    cases s.get? outer <;> rfl
  · rfl

theorem lookup?_define (h : (s.get? r).isSome) :
    (s.define r x v).lookup? outer y =
      if outer = r ∧ y = x then some v else s.lookup? outer y := by
  obtain ⟨scope, hr⟩ := Option.isSome_iff_exists.mp h
  rw [lookup?, lookup?, define, Heap.get?_modify]
  by_cases e : outer = r
  · subst e
    simp [hr, Bindings.get?_set]
  · simp [e]

theorem lookup?_define_of_ne (h : y ≠ x) : (s.define r x v).lookup? outer y = s.lookup? outer y := by
  rw [lookup?, lookup?, define, Heap.get?_modify]
  split
  · rename_i e
    subst e
    cases s.get? outer with
    | none => rfl
    | some scope => simp [Bindings.get?_set, h]
  · rfl

theorem isSome_of_lookup? (h : s.lookup? r x = some v) : (s.get? r).isSome := by
  cases hr : s.get? r with
  | none => simp [lookup?, hr] at h
  | some scope => rfl

theorem isSome_of_enclosing? (h : s.enclosing? r = some outer) : (s.get? r).isSome := by
  cases hr : s.get? r with
  | none => simp [enclosing?, hr] at h
  | some scope => rfl

theorem lookup?_next : s.lookup? s.next x = none := by
  rw [lookup?, get?_next]; rfl

theorem lookup?_add_of_isSome {bindings : Bindings Value} {enclosing : Option (Ref .scope)}
    (h : (s.get? r).isSome) : (s.add bindings enclosing).lookup? r x = s.lookup? r x := by
  rw [lookup?, lookup?, get?_add_of_isSome h]

theorem lookup?_add_next {bindings : Bindings Value} {enclosing : Option (Ref .scope)} :
    (s.add bindings enclosing).lookup? s.next x = bindings.get? x := by
  rw [lookup?, get?_add_next]; rfl

theorem isSome_get?_add {bindings : Bindings Value} {enclosing : Option (Ref .scope)} :
    ((s.add bindings enclosing).get? r).isSome ↔ (s.get? r).isSome ∨ r = s.next := by
  rw [add, Heap.get?_push]
  split <;> simp [*]

@[simp] theorem scopeAt_zero : s.scopeAt 0 r = .ok r := rfl

theorem scopeAt_succ (h : s.enclosing? r = some outer) (n : Nat) :
    s.scopeAt (n + 1) r = s.scopeAt n outer := by
  simp only [scopeAt, ancestor, h]

/-! ## What lasts -/

namespace Evolves

theorem trans (h : Evolves s t) (k : Evolves t u) : Evolves s u := by
  induction k with
  | same => exact h
  | opened _ bindings outer ordinary ih => exact ih.opened bindings outer ordinary
  | bound _ receiver outer ih => exact ih.bound receiver outer
  | inherited _ parent outer ih => exact ih.inherited parent outer
  | written _ r x v ordinary ih => exact ih.written r x v ordinary

theorem isSome (h : Evolves s t) (hr : (s.get? r).isSome) : (t.get? r).isSome := by
  induction h with
  | same => exact hr
  | opened _ _ _ _ ih | bound _ _ _ ih | inherited _ _ _ ih =>
    rw [get?_add_of_isSome ih]; exact ih
  | written _ _ _ _ _ ih => rw [isSome_get?_define]; exact ih

theorem enclosing?_eq (h : Evolves s t) (hr : (s.get? r).isSome) :
    t.enclosing? r = s.enclosing? r := by
  induction h with
  | same => rfl
  | opened h _ _ _ ih | bound h _ _ ih | inherited h _ _ ih =>
    rw [enclosing?, get?_add_of_isSome (h.isSome hr)]; exact ih
  | written _ _ _ _ _ ih => rw [enclosing?_define]; exact ih

/-- A name that no program can choose keeps its value in every scope that there is. -/
theorem lookup?_eq (h : Evolves s t) (hx : ¬ Ordinary x) (hr : (s.get? r).isSome) :
    t.lookup? r x = s.lookup? r x := by
  induction h with
  | same => rfl
  | opened h _ _ _ ih | bound h _ _ ih | inherited h _ _ ih =>
    rw [lookup?_add_of_isSome (h.isSome hr)]; exact ih
  | written _ _ y _ hy ih =>
    rw [lookup?_define_of_ne (fun (e : x = y) => hx (e ▸ hy))]; exact ih

theorem this_eq (h : Evolves s t) (hr : (s.get? r).isSome) :
    t.lookup? r "this" = s.lookup? r "this" := h.lookup?_eq (fun hx => hx.1 rfl) hr

theorem super_eq (h : Evolves s t) (hr : (s.get? r).isSome) :
    t.lookup? r "super" = s.lookup? r "super" := h.lookup?_eq (fun hx => hx.2 rfl) hr

end Evolves

/-! ## Where the names that no program can choose come from -/

/-- A scope of a run that binds `this` was made to bind it to a receiver, and a scope
that binds `super` was made to bind it to a class. -/
structure SelfAsMade (t : Scopes) : Prop where
  this : ∀ r v, t.lookup? r "this" = some v → ∃ (u : Scopes) (receiver : Ref .object) (outer : Ref .scope),
    r = u.next ∧ v = .object receiver ∧
      (u.add (.ofList [("this", .object receiver)]) (some outer)).Evolves t
  super : ∀ r v, t.lookup? r "super" = some v → ∃ (u : Scopes) (parent : Ref .klass) (outer : Ref .scope),
    r = u.next ∧ v = .klass parent ∧
      (u.add (.ofList [("super", .klass parent)]) (some outer)).Evolves t

theorem get?_single {a : Value} : (Bindings.ofList [(y, a)]).get? x = some v ↔ x = y ∧ v = a := by
  rw [Bindings.get?_ofList (by simp)]
  simp [Prod.mk.injEq]

/-- What a new scope does not bind was bound before. -/
theorem lookup?_add (bindings : Bindings Value) (enclosing : Option (Ref .scope))
    (h : (s.add bindings enclosing).lookup? r x = some v) :
    (r = s.next ∧ bindings.get? x = some v) ∨ s.lookup? r x = some v := by
  rw [lookup?, add, Heap.get?_push] at h
  split at h
  · rename_i e
    exact .inl ⟨e, h⟩
  · exact .inr h

namespace SelfAsMade

variable {bindings : Bindings Value} {enclosing : Option (Ref .scope)}

theorem first : first.SelfAsMade := by
  have only : ∀ r x v, Scopes.first.lookup? r x = some v → x = "clock" := by
    intro r x v h
    rcases lookup?_add _ _ h with ⟨-, h⟩ | h
    · exact (get?_single.mp h).1
    · cases h
  exact ⟨fun r v h => absurd (only r _ v h) (by decide),
    fun r v h => absurd (only r _ v h) (by decide)⟩

/-- A step keeps where the bindings come from if it makes those that it adds. -/
theorem step (h : s.SelfAsMade) (grows : ∀ u : Scopes, u.Evolves s → u.Evolves t)
    (this : ∀ r v, t.lookup? r "this" = some v → s.lookup? r "this" = some v ∨
      ∃ receiver outer, r = s.next ∧ v = .object receiver ∧
        t = s.add (.ofList [("this", .object receiver)]) (some outer))
    (super : ∀ r v, t.lookup? r "super" = some v → s.lookup? r "super" = some v ∨
      ∃ parent outer, r = s.next ∧ v = .klass parent ∧
        t = s.add (.ofList [("super", .klass parent)]) (some outer)) : t.SelfAsMade where
  this r v hv := by
    rcases this r v hv with old | ⟨receiver, outer, hr, value, rfl⟩
    · obtain ⟨u, receiver, outer, hr, hv, history⟩ := h.this r v old
      exact ⟨u, receiver, outer, hr, hv, grows _ history⟩
    · exact ⟨s, receiver, outer, hr, value, .same⟩
  super r v hv := by
    rcases super r v hv with old | ⟨parent, outer, hr, value, rfl⟩
    · obtain ⟨u, parent, outer, hr, hv, history⟩ := h.super r v old
      exact ⟨u, parent, outer, hr, hv, grows _ history⟩
    · exact ⟨s, parent, outer, hr, value, .same⟩

end SelfAsMade

end Lox.Scopes
