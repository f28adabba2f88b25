import Lox.Proofs.History
import Lox.Proofs.Lexical
import Lox.Proofs.SelfReferences

/-! # A machine beside a reference state

Both belong to the same run. The machine finds a local variable by counting scopes
outwards, the reference state by the map of names in force; `home` says for every
location in which scope, and under which name, the machine keeps the same variable.
What is said here of a closure or a value stays true for as long as the run goes on:
whatever `Grows` does not take it away. -/

namespace Lox

/-- A scope that binds a method of a class to a receiver. -/
structure Machine.Bound (m : Machine) (scope : Ref .scope) (receiver : Ref .object) (k : Klass)
    (c : Closure) : Prop where
  this : m.scopes.lookup? scope "this" = some (.object receiver)
  around : m.scopes.enclosing? scope = some c.scope
  klass : ∃ r, m.classes.get? r = some k
  method : ∃ x f, k.methods.get? x = some f ∧ m.functions.get? f = some c
  copy : ∃ f, m.functions.get? f = some ⟨c.routine, scope, c.isInitializer⟩

namespace Lexical

/-- The names in force, scope by scope. -/
def Env.names (env : Env) : Surroundings := env.map Bindings.names

namespace Env

variable {frame : Bindings Location} {outer env : Env} {x : String} {l : Location}

@[simp] theorem names_cons : names (frame :: outer) = frame.names :: names outer := rfl

theorem find?_cons : find? (frame :: outer) x = (frame.get? x).or (find? outer x) := by
  simp only [find?, List.findSome?_cons]
  cases frame.get? x <;> rfl

end Env

end Lexical

namespace Agreement

open Lexical (Location Env Store)

structure Joint (origin : Scopes) where
  home : List (Ref .scope × String)
  /-- the marks below this number have been given to references -/
  known : Nat
  machine : Machine
  state : Lexical.State Nat

variable {origin : Scopes}

/-- Every name in the given scopes has a value, except one of the innermost scope. -/
def Settled (s : Store) : Option String → Env → Prop
  | _, [] => True
  | pending, frame :: outer =>
    (∀ x l, frame.get? x = some l → pending ≠ some x → (s.get? l).isSome) ∧ Settled s none outer

namespace Joint

variable (p : Joint origin)

def scopes : Scopes := p.machine.scopes

def store : Store := p.state.store

/-- Addresses that agree with the table on all references that there are. -/
def Knows (hops : Nat → Option Nat) : Prop := ∀ i < p.known, hops i = p.machine.table.hops? i

/-- The names in force have their locations in the chain of scopes that begins here. -/
def Scoped : Env → Ref .scope → Prop
  | [], r => r = Machine.globals
  | frame :: outer, r =>
    (∀ x l, frame.get? x = some l → p.home[l.index]? = some (r, x)) ∧
      ∃ around, p.scopes.enclosing? r = some around ∧ Scoped outer around

/-- The keyword belongs to a method, and `this` is the receiver of that method. -/
def Activation (env : Env) (keyword : Reference Nat) : Prop :=
  ∃ l scope receiver k method, env.find? "this" = some l ∧
    p.home[l.index]? = some (scope, "this") ∧ p.machine.Bound scope receiver k method ∧
    keyword ∈ Routine.selfReferences method.routine

/-- A closure of the machine beside the scopes that the reference state gives it. -/
structure Closes (c : Closure) (env : Env) : Prop where
  chain : p.Scoped env c.scope
  settled : Settled p.store none env
  made : (p.scopes.get? c.scope).isSome

/-- A closure that a program can call. -/
structure Callable (c : Closure) (env : Env) : Prop extends p.Closes c env where
  fits : ∀ hops, p.Knows hops → Routine.Fits hops env.names c.routine
  self : ∀ keyword ∈ Routine.selfReferences c.routine, p.Activation env keyword
  initializer : c.isInitializer → ∃ frame outer l, env = frame :: outer ∧ frame.get? "this" = some l
  bound : c.isInitializer → ∃ i k d, p.machine.Bound c.scope i k d ∧ c = { d with scope := c.scope }

/-- A closure under its name in the table of a class. It can be called once it is bound. -/
structure IsMethod (k : Klass) (x : String) (c : Closure) (env : Env) : Prop extends p.Closes c env where
  fits : ∀ hops, p.Knows hops → Routine.Fits hops (["this"] :: env.names) c.routine
  super : p.scopes.lookup? c.scope "super" = k.parent.map .klass
  named : c.routine.name.lexeme = x
  marked : c.isInitializer = (x == initializerName)

/-- What the two sides keep for a function. -/
def FunctionIs (f : Ref .function) (P : Closure → Env → Prop) : Prop :=
  ∃ c env, p.machine.functions.get? f = some c ∧
    p.state.functions.get? f = some ⟨c.routine, env, c.isInitializer⟩ ∧ P c env

/-- A value that a program may hold: what it refers to has been made. -/
def Valid : Value → Prop
  | .function f => p.FunctionIs f p.Callable
  | .klass k => (p.machine.classes.get? k).isSome
  | .object i => (p.machine.instances.get? i).isSome
  | .nil | .bool _ | .number _ | .string _ | .clock => True

end Joint

/-- What is true of closures and values stays true. -/
structure Keeps {origin later : Scopes} (p : Joint origin) (q : Joint later) : Prop where
  home : p.home <+: q.home
  scopes : p.scopes.Evolves q.scopes
  functions : ∀ f c, p.machine.functions.get? f = some c → q.machine.functions.get? f = some c
  closures : ∀ f c, p.state.functions.get? f = some c → q.state.functions.get? f = some c
  classes : ∀ k c, p.machine.classes.get? k = some c → q.machine.classes.get? k = some c
  instances : ∀ i, (p.machine.instances.get? i).isSome → (q.machine.instances.get? i).isSome
  settled : ∀ l, (p.store.get? l).isSome → (q.store.get? l).isSome
  known : ∀ hops, q.Knows hops → p.Knows hops

/-- What the rest of a run leaves in place. -/
structure Grows (p q : Joint origin) : Prop extends Keeps p q where
  /-- no other scope that there was has a new name -/
  fresh : ∀ r x, (r, x) ∈ q.home → (p.scopes.get? r).isSome → r ≠ p.machine.current →
    (r, x) ∈ p.home
  marks : q.known = p.known
  table : q.machine.table = p.machine.table
  current : q.machine.current = p.machine.current

namespace Grows

variable {p q r : Joint origin}

theorem refl (p : Joint origin) : Grows p p where
  home := List.prefix_refl _
  scopes := .same
  functions _ _ h := h
  closures _ _ h := h
  classes _ _ h := h
  instances _ h := h
  settled _ h := h
  known _ h := h
  fresh _ _ h _ _ := h
  marks := rfl
  table := rfl
  current := rfl

end Grows

namespace Keeps

variable {later last : Scopes} {p : Joint origin} {q : Joint later} {r : Joint last}

theorem trans (h : Keeps p q) (k : Keeps q r) : Keeps p r where
  home := h.home.trans k.home
  scopes := h.scopes.trans k.scopes
  functions f c hf := k.functions f c (h.functions f c hf)
  closures f c hf := k.closures f c (h.closures f c hf)
  classes c x hc := k.classes c x (h.classes c x hc)
  instances i hi := k.instances i (h.instances i hi)
  settled l hl := k.settled l (h.settled l hl)
  known hops hk := h.known hops (k.known hops hk)

theorem homeAt (h : Keeps p q) {i : Nat} {e : Ref .scope × String} (he : p.home[i]? = some e) :
    q.home[i]? = some e := by
  obtain ⟨more, hm⟩ := h.home
  have hi : i < p.home.length := (List.getElem?_eq_some_iff.mp he).1
  rw [← hm, List.getElem?_append_left hi, he]

theorem enclosing (h : Keeps p q) {s around : Ref .scope}
    (hs : p.scopes.enclosing? s = some around) : q.scopes.enclosing? s = some around := by
  rw [h.scopes.enclosing?_eq (Scopes.isSome_of_enclosing? hs), hs]

theorem chain (h : Keeps p q) {env : Env} {s : Ref .scope} (hs : p.Scoped env s) :
    q.Scoped env s := by
  induction env generalizing s with
  | nil => exact hs
  | cons frame outer ih =>
    obtain ⟨hf, around, ha, ho⟩ := hs
    exact ⟨fun x l hl => h.homeAt (hf x l hl), around, h.enclosing ha, ih ho⟩

theorem settledIn (h : Keeps p q) {pending : Option String} {env : Env}
    (hs : Settled p.store pending env) : Settled q.store pending env := by
  induction env generalizing pending with
  | nil => trivial
  | cons frame outer ih =>
    exact ⟨fun x l hl hx => h.settled l (hs.1 x l hl hx), ih hs.2⟩

theorem bound (h : Keeps p q) {s : Ref .scope} {receiver : Ref .object} {k : Klass} {c : Closure}
    (hb : p.machine.Bound s receiver k c) : q.machine.Bound s receiver k c := by
  obtain ⟨this, around, ⟨r, hr⟩, ⟨x, f, hx, hf⟩, ⟨g, hg⟩⟩ := hb
  refine ⟨?_, h.enclosing around, ⟨r, h.classes r k hr⟩, ⟨x, f, hx, h.functions f c hf⟩,
    ⟨g, h.functions g _ hg⟩⟩
  rw [← this]
  exact h.scopes.this_eq (Scopes.isSome_of_lookup? this)

theorem activation (h : Keeps p q) {env : Env} {keyword : Reference Nat}
    (ha : p.Activation env keyword) : q.Activation env keyword := by
  obtain ⟨l, s, receiver, k, c, hl, hs, hb, hk⟩ := ha
  exact ⟨l, s, receiver, k, c, hl, h.homeAt hs, h.bound hb, hk⟩

theorem closes (h : Keeps p q) {c : Closure} {env : Env} (hc : p.Closes c env) : q.Closes c env :=
  ⟨h.chain hc.chain, h.settledIn hc.settled, h.scopes.isSome hc.made⟩

theorem callable (h : Keeps p q) {c : Closure} {env : Env} (hc : p.Callable c env) :
    q.Callable c env where
  toCloses := h.closes hc.toCloses
  fits hops hk := hc.fits hops (h.known hops hk)
  self keyword hk := h.activation (hc.self keyword hk)
  initializer := hc.initializer
  bound hi := by
    obtain ⟨i, k, d, hb, same⟩ := hc.bound hi
    exact ⟨i, k, d, h.bound hb, same⟩

theorem isMethod (h : Keeps p q) {k : Klass} {x : String} {c : Closure} {env : Env}
    (hc : p.IsMethod k x c env) : q.IsMethod k x c env where
  toCloses := h.closes hc.toCloses
  fits hops hk := hc.fits hops (h.known hops hk)
  super := by rw [← hc.super]; exact h.scopes.super_eq hc.made
  named := hc.named
  marked := hc.marked

theorem functionIs (h : Keeps p q) {f : Ref .function} {P Q : Closure → Env → Prop}
    (hPQ : ∀ c env, P c env → Q c env) (hf : p.FunctionIs f P) : q.FunctionIs f Q := by
  obtain ⟨c, env, hm, hs, hP⟩ := hf
  exact ⟨c, env, h.functions f c hm, h.closures f _ hs, hPQ c env hP⟩

theorem valid (h : Keeps p q) {v : Value} (hv : p.Valid v) : q.Valid v := by
  cases v with
  | function f => exact h.functionIs (fun _ _ hc => h.callable hc) hv
  | klass k =>
    obtain ⟨c, hc⟩ := Option.isSome_iff_exists.mp hv
    exact Option.isSome_iff_exists.mpr ⟨c, h.classes k c hc⟩
  | object i => exact h.instances i hv
  | nil | bool _ | number _ | string _ | clock => trivial

end Keeps

theorem Grows.trans {p q r : Joint origin} (h : Grows p q) (k : Grows q r) : Grows p r where
  toKeeps := h.toKeeps.trans k.toKeeps
  fresh s x hx hs hc := by
    have inside : (s, x) ∈ q.home := k.fresh s x hx (h.scopes.isSome hs) (h.current ▸ hc)
    exact h.fresh s x inside hs hc
  marks := k.marks.trans h.marks
  table := k.table.trans h.table
  current := k.current.trans h.current

end Agreement

end Lox
