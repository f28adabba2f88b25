import Lox.Proofs.Agreement.Programs

/-! # What a routine is entered with

Only what can be called is entered, and only with one argument for each parameter. So in
the scope in which its body begins each parameter stands for its argument, and nothing
else has a name there. -/

namespace Lox

/-- The scope of a call before its body runs. -/
def Closure.bindings (c : Closure) (arguments : List Value) : Bindings Value :=
  .ofList ((c.routine.params.map (·.lexeme)).zip arguments)

/-- The state in which the body of a routine begins. -/
def Machine.entered (m : Machine) (c : Closure) (arguments : List Value) : Machine :=
  { m with
    scopes := m.scopes.add (c.bindings arguments) (some c.scope)
    current := m.scopes.next }

/-- What a call gives once the body has ended. -/
def Closure.give (c : Closure) (outcome : Outcome) : Run Value :=
  if c.isInitializer then do Run.ofScope ((← get).scopes.getAt 0 "this" c.scope)
  else
    match outcome with
    | .returned v => pure v
    | .completed => pure .nil

/-- The body runs in the new scope, and the call goes back from there before it gives a value. -/
theorem Level.enter_at (below : Level) (c : Closure) (arguments : List Value) (m : Machine) :
    below.enter c arguments m =
      (Run.ensuring (below.executeAll c.routine.body) (fun after => { after with current := m.current }) >>=
        c.give) (m.entered c arguments) := by
  rw [enter_eq]
  rfl

theorem Closure.give_initializer {c : Closure} (h : c.isInitializer) (outcome : Outcome) (m : Machine) :
    c.give outcome m = Run.ofScope (m.scopes.getAt 0 "this" c.scope) m := by
  unfold give
  rw [if_pos h]
  rfl

/-- A closure is the method of the given name of a class, bound to an object: it is written in
a scope of its own, which binds `this` to the object around the code of the method. -/
structure Machine.Binds (m : Machine) (c : Closure) (x : String) (i : Ref .object) : Prop where
  named : c.routine.name.lexeme = x
  method : ∃ k d, m.Bound c.scope i k d ∧ c = { d with scope := c.scope }

/-- What holds where a routine is entered. -/
structure Machine.Admits (m : Machine) (c : Closure) (arguments : List Value) : Prop where
  count : arguments.length = c.routine.params.length
  distinct : (c.routine.params.map (·.lexeme)).Nodup
  body (below : Level) : below.enter c arguments m =
    (Run.ensuring (below.executeAll c.routine.body) (fun after => { after with current := m.current }) >>=
      c.give) (m.entered c arguments)
  /-- The scope in which the body begins is a new one inside that of the closure, -/
  fresh : m.scopes.get? (m.entered c arguments).current = none
  scope : (m.entered c arguments).scopes.get? (m.entered c arguments).current =
    some ⟨c.bindings arguments, some c.scope⟩
  /-- has the names of the parameters and no other, -/
  names : (c.bindings arguments).names = c.routine.params.map (·.lexeme)
  /-- and gives to each parameter the argument in its place. -/
  values (n : Nat) (x : Token) (v : Value) : c.routine.params[n]? = some x → arguments[n]? = some v →
    (c.bindings arguments).get? x.lexeme = some v
  /-- An initializer is a method of that name which is bound to an object, -/
  initializer : c.isInitializer ↔ ∃ i, m.Binds c initializerName i
  /-- and a call of it that ends gives this object, whatever its body returns. -/
  receiver (i : Ref .object) (h : m.Binds c initializerName i) (rounds n : Nat) (v : Value) (after : Machine) :
    (Level.ofDepth rounds n).enter c arguments m = .ok v after → v = .object i

theorem Run.ofScope_eq_ok {α : Type} {x : Except ScopeFault α} {a : α} {m m' : Machine}
    (h : ofScope x m = .ok a m') : x = .ok a ∧ m' = m := by
  cases x with
  | ok b =>
    cases h
    exact ⟨rfl, rfl⟩
  | error fault => cases h

namespace Closure

variable {c : Closure} {arguments : List Value}

theorem names_zip (count : arguments.length = c.routine.params.length) :
    ((c.routine.params.map (·.lexeme)).zip arguments).map (·.1) = c.routine.params.map (·.lexeme) :=
  List.map_fst_zip (by simp [count])

theorem names_bindings (count : arguments.length = c.routine.params.length)
    (distinct : (c.routine.params.map (·.lexeme)).Nodup) :
    (c.bindings arguments).names = c.routine.params.map (·.lexeme) := by
  rw [bindings, Bindings.names_ofList (by rwa [names_zip count]), names_zip count]

/-- No parameter is bound again for a later one. -/
theorem get?_bindings (count : arguments.length = c.routine.params.length)
    (distinct : (c.routine.params.map (·.lexeme)).Nodup) {n : Nat} {x : Token} {v : Value}
    (hx : c.routine.params[n]? = some x) (hv : arguments[n]? = some v) :
    (c.bindings arguments).get? x.lexeme = some v := by
  rw [bindings, Bindings.get?_ofList (by rwa [names_zip count])]
  refine List.mem_of_getElem? (i := n) (List.getElem?_zip_eq_some.mpr ⟨?_, hv⟩)
  rw [List.getElem?_map, hx]
  rfl

end Closure

namespace Agreement

open Lexical (Env)

variable {origin : Scopes} {p : Joint origin} {c : Closure} {env : Env} {arguments : List Value}
  {x : String} {i : Ref .object}

theorem Joint.Callable.distinct (h : p.Callable c env) : (c.routine.params.map (·.lexeme)).Nodup :=
  (Routine.fits_iff.mp (h.fits _ fun _ _ => rfl)).1

/-- The methods with the name of an initializer are the initializers. -/
theorem Sim.marked (h : Sim p) (hb : p.machine.Binds c x i) : c.isInitializer = (x == initializerName) := by
  obtain ⟨rfl, k, d, bound, same⟩ := hb
  obtain ⟨r, hr⟩ := bound.klass
  obtain ⟨x, f, hx, hf⟩ := bound.method
  obtain ⟨d', env, left, -, isMethod⟩ := h.methods r k x f hr hx
  obtain rfl : d = d' := Option.some.inj (hf.symm.trans left)
  rw [same, isMethod.named, ← isMethod.marked]

theorem Sim.isInitializer_iff (h : Sim p) (hc : p.Callable c env) :
    c.isInitializer ↔ ∃ i, p.machine.Binds c initializerName i := by
  constructor
  · intro hi
    obtain ⟨i, k, d, bound, same⟩ := hc.bound hi
    have binds : p.machine.Binds c c.routine.name.lexeme i := ⟨rfl, k, d, bound, same⟩
    have own := h.marked binds
    rw [hi] at own
    rw [← eq_of_beq own.symm]
    exact ⟨i, binds⟩
  · rintro ⟨i, hb⟩
    rw [h.marked hb]
    rfl

/-- The scope of a bound method has the receiver still when the body has ended. -/
theorem Sim.enter_gives_receiver (h : Sim p) (hc : p.Callable c env) (hv : ∀ v ∈ arguments, p.Valid v)
    (hn : arguments.length = c.arity) (hb : p.machine.Binds c initializerName i) {rounds n : Nat} {v : Value}
    {after : Machine} (result : (Level.ofDepth rounds n).enter c arguments p.machine = .ok v after) :
    v = .object i := by
  obtain ⟨_, q, rfl, hq, -⟩ := ((inStep_ofDepth rounds n).enter h hc hv hn).of_left_ok result
  obtain ⟨k, d, bound, -⟩ := hb.method
  have this : q.scopes.lookup? c.scope "this" = some (.object i) := by
    rw [hq.grows.scopes.this_eq hc.made]
    exact bound.this
  rw [Level.enter_at] at result
  obtain ⟨outcome, last, -, given⟩ := Run.bind_eq_ok result
  rw [Closure.give_initializer ((h.isInitializer_iff hc).mpr ⟨i, hb⟩)] at given
  -- reading the receiver is the last step of the call
  obtain ⟨found, rfl⟩ := Run.ofScope_eq_ok given
  exact Except.ok.inj (found.symm.trans (getAt_eq rfl this))

/-- What can be called admits as many arguments as it has parameters. -/
theorem Sim.admits (h : Sim p) (hc : p.Callable c env) (hv : ∀ v ∈ arguments, p.Valid v)
    (hn : arguments.length = c.arity) : p.machine.Admits c arguments where
  count := hn
  distinct := hc.distinct
  body below := below.enter_at c arguments p.machine
  fresh := Scopes.get?_next
  scope := Scopes.get?_add_next _ _
  names := Closure.names_bindings hn hc.distinct
  values _ _ _ hx hv := Closure.get?_bindings hn hc.distinct hx hv
  initializer := h.isInitializer_iff hc
  receiver _ hb _ _ _ _ result := h.enter_gives_receiver hc hv hn hb result

/-! ## Entries in a run -/

/-- What holds of all that can be called with as many arguments holds wherever a run enters
a routine. -/
theorem Resting.enters (h : Resting p) {code : List (Stmt Nat)}
    (fits : ∀ hops, p.Knows hops → Stmt.AllFit hops [] code) {limits : Limits} {m : Machine}
    (he : Enters limits code p.machine c arguments m) :
    ∃ (q : Joint p.scopes) (env : Env), q.machine = m ∧ Sim q ∧ q.Callable c env ∧
      (∀ v ∈ arguments, q.Valid v) ∧ arguments.length = c.arity := by
  obtain ⟨q, hm, hq, _ | ⟨callable, valid, count⟩⟩ := h.allowed fits he
  exact ⟨q, _, hm, hq, callable, valid, count⟩

end Agreement

end Lox
