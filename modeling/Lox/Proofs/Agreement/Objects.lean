import Lox.Proofs.Agreement.Entering

/-! # Methods and their receivers

A method that is found by way of an instance, of `super` or of a class that is called
is bound to its receiver in a scope of its own on both sides. -/

namespace Lox.Agreement

open Lexical (Location Env Store)

variable {origin : Scopes} {p q : Joint origin} {f : Ref .function} {k : Klass} {c : Closure} {env : Env} {x : String}

theorem mem_of_methodFrom? {classes : Heap .klass Klass} {n : Nat} {start : Option (Ref .klass)}
    (h : classes.methodFrom? x n start = some f) :
    ∃ r k, classes.get? r = some k ∧ k.methods.get? x = some f := by
  induction n generalizing start with
  | zero => cases h
  | succ n ih =>
    cases start with
    | none => cases h
    | some r =>
      rw [Heap.methodFrom?] at h
      cases hr : classes.get? r with
      | none => rw [hr] at h; cases h
      | some k =>
        simp only [hr] at h
        cases hk : k.methods.get? x with
        | none => rw [hk] at h; exact ih h
        | some g =>
          rw [hk] at h
          cases h
          exact ⟨r, k, hr, hk⟩

/-- A function of the program, under its name in the table of a class. -/
structure Member (p : Joint origin) (f : Ref .function) (k : Klass) (x : String) (c : Closure) (env : Env) :
    Prop where
  klass : ∃ r, p.machine.classes.get? r = some k
  entry : k.methods.get? x = some f
  left : p.machine.functions.get? f = some c
  right : p.state.functions.get? f = some ⟨c.routine, env, c.isInitializer⟩
  isMethod : p.IsMethod k x c env

theorem Sim.member (h : Sim p) {r : Ref .klass} (hf : p.machine.classes.method? r x = some f) :
    ∃ k c env, Member p f k x c env := by
  obtain ⟨r, k, hr, hk⟩ := mem_of_methodFrom? hf
  obtain ⟨c, env, hc, hs, hm⟩ := h.methods r k x f hr hk
  exact ⟨k, c, env, ⟨r, hr⟩, hk, hc, hs, hm⟩

theorem Member.stays (h : Member p f k x c env) (g : Stays p q) : Member q f k x c env where
  klass := h.klass.imp fun r hr => g.grows.classes r k hr
  entry := h.entry
  left := g.grows.functions f c h.left
  right := g.grows.closures f _ h.right
  isMethod := g.grows.isMethod h.isMethod

theorem lexical_functionAt_eq {s : Lexical.State Nat} {c : Lexical.Closure Nat}
    (h : s.functions.get? f = some c) : Lexical.Run.functionAt f s = .ok c s := by
  change Lexical.Run.deref (s.functions.get? f) s = _
  rw [h]
  rfl

theorem instanceAt_eq {m : Machine} {i : Ref .object} {o : Instance}
    (h : m.instances.get? i = some o) : Run.instanceAt i m = .ok o m := by
  change Run.deref (m.instances.get? i) m = _
  rw [h]
  rfl

theorem lexical_instanceAt_eq {s : Lexical.State Nat} {i : Ref .object} {o : Instance}
    (h : s.instances.get? i = some o) : Lexical.Run.instanceAt i s = .ok o s := by
  change Lexical.Run.deref (s.instances.get? i) s = _
  rw [h]
  rfl

/-- Both sides look a method up in the same tables. -/
theorem Sim.method?_eq (h : Sim p) (r : Ref .klass) (name : String) :
    Lexical.Run.method? r name p.state = .ok (p.machine.classes.method? r name) p.state := by
  rw [h.shared.classes]
  rfl

/-- A callable function with the code of the given closure. -/
structure BoundTo (c : Closure) (q : Joint origin) (f : Ref .function) (d : Closure) (env : Env) : Prop where
  code : d.routine = c.routine
  left : q.machine.functions.get? f = some d
  right : q.state.functions.get? f = some ⟨d.routine, env, d.isInitializer⟩
  callable : q.Callable d env

theorem agree_bind (h : Sim p) (hm : Member p f k x c env) {i : Ref .object}
    (hi : (p.machine.instances.get? i).isSome) :
    Agree p (Run.bind f (.object i)) (Lexical.Run.bind f (.object i))
      (fun a b q => a = b ∧ (∃ d env, BoundTo c q a d env) ∧ Stays p q) := by
  rw [Run.bind, Lexical.Run.bind]
  refine .bind_eq (Run.functionAt_eq hm.left) (lexical_functionAt_eq hm.right) ?_
  have made := agree_newScope h [("this", .object i)] c.scope (by simp)
    (by
      intro e he
      rw [List.mem_singleton.mp he]
      exact ⟨.receiver i, hi⟩)
    (.bound .same i c.scope)
  refine made.bind fun scope frame q hq ho => ?_
  have hq' := hm.stays ho.toStays
  have step := agree_newFunction hq.sim ⟨c.routine, scope, c.isInitializer⟩ (frame :: env)
  refine step.mono fun g g' t ht hg => ?_
  obtain ⟨rfl, left, right, -, hscopes, hstore, stays⟩ := hg
  obtain ⟨l, hl⟩ : ∃ l, frame.get? "this" = some l := Bindings.mem_names.mp (by simp [ho.names])
  have this : t.scopes.lookup? scope "this" = some (.object i) := by
    rw [hscopes]
    exact ho.holds "this" _ (by simp)
  have bound : t.machine.Bound scope i k c :=
    ⟨this, stays.grows.enclosing ho.around, hq'.klass.imp fun r hr => stays.grows.classes r k hr,
      ⟨x, f, hq'.entry, stays.grows.functions f c hq'.left⟩, ⟨g, left⟩⟩
  have found : Env.find? (frame :: env) "this" = some l := by
    rw [Env.find?_cons, hl]
    rfl
  have callable : t.Callable ⟨c.routine, scope, c.isInitializer⟩ (frame :: env) := {
    chain := ⟨fun x l hx => stays.grows.homeAt (ho.places x l hx), c.scope,
      stays.grows.enclosing ho.around, stays.grows.chain hq'.isMethod.chain⟩
    settled := ⟨fun x l hx _ => stays.grows.settled l (ho.filled x l hx),
      stays.grows.settledIn hq'.isMethod.settled⟩
    made := stays.grows.scopes.isSome (Scopes.isSome_of_enclosing? ho.around)
    fits := fun hops hk => by
      rw [Env.names_cons, ho.names]
      exact hq'.isMethod.fits hops (stays.grows.known hops hk)
    self := fun keyword hk => ⟨l, scope, i, k, c, found,
      stays.grows.homeAt (ho.places "this" l hl), bound, hk⟩
    initializer := fun _ => ⟨frame, env, l, rfl, hl⟩
    bound := fun _ => ⟨i, k, c, bound, rfl⟩ }
  exact ⟨rfl, ⟨⟨c.routine, scope, c.isInitializer⟩, frame :: env, rfl, left, right, callable⟩,
    ho.toStays.trans stays⟩

theorem BoundTo.valid {d : Closure} (h : BoundTo c q f d env) : q.Valid (.function f) :=
  ⟨d, env, h.left, h.right, h.callable⟩

theorem agree_property (h : Sim p) {i : Ref .object} (hi : (p.machine.instances.get? i).isSome)
    (name : Token) : Agree p (Run.property i name) (Lexical.Run.property i name) (Gives p) := by
  obtain ⟨o, ho⟩ := Option.isSome_iff_exists.mp hi
  have ho' : p.state.instances.get? i = some o := by rw [← h.shared.instances, ho]
  rw [Run.property, Lexical.Run.property]
  refine .bind_eq (instanceAt_eq ho) (lexical_instanceAt_eq ho') ?_
  cases hf : o.fields.get? name.lexeme with
  | some v => exact .pure h ⟨rfl, h.fields i o name.lexeme v ho hf, .refl h⟩
  | none =>
    refine .bind_eq rfl (h.method?_eq o.klass name.lexeme) ?_
    cases hm : p.machine.classes.method? o.klass name.lexeme with
    | none => exact .fail h _ _
    | some f =>
      obtain ⟨k, c, env, hm⟩ := h.member hm
      refine (agree_bind h hm hi).bind ?_
      rintro a _ q hq ⟨rfl, ⟨d, env, hd⟩, stays⟩
      exact .pure hq.sim ⟨rfl, hd.valid, stays⟩

end Lox.Agreement
