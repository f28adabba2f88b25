import Lox.Proofs.Agreement.Joint
import Lox.Proofs.Agreement.Locals
import Lox.Proofs.Lineage.Chains

/-! # Both sides in step

`Sim` says what holds of a machine and a reference state between any two steps of a
run, `Agree` that an action of the one side and an action of the other end in the
same way and keep it so. -/

namespace Lox

/-- Faults that a program is answerable for, and the limits of a run. -/
def Fault.Foreseen : Fault → Prop
  | runtime _ | tooDeep | unfinished => True
  | scope _ | unresolvedSuper | superNotClass | dangling => False

def Closure.code (c : Closure) : Routine (Stmt Nat) × Bool := (c.routine, c.isInitializer)

def Lexical.Closure.code {μ : Type} (c : Lexical.Closure μ) : Routine (Stmt μ) × Bool :=
  (c.routine, c.isInitializer)

namespace Agreement

open Lexical (Location Env Store)

variable {origin : Scopes}

/-- What both sides keep in the same form. -/
structure Shared (m : Machine) (s : Lexical.State Nat) : Prop where
  functions : m.functions.cells.map Closure.code = s.functions.cells.map Lexical.Closure.code
  classes : m.classes = s.classes
  instances : m.instances = s.instances
  clock : m.clock = s.clock
  output : m.output = s.output

theorem Shared.next {m : Machine} {s : Lexical.State Nat} (h : Shared m s) :
    m.functions.next = s.functions.next := by
  have e := congrArg Array.size h.functions
  rw [Array.size_map, Array.size_map] at e
  rw [Heap.next, Heap.next, e]

structure Sim (p : Joint origin) : Prop where
  locals : Locals p.home p.scopes p.store p.state.globals
  shared : Shared p.machine p.state
  history : origin.Evolves p.scopes
  here : (p.scopes.get? p.machine.current).isSome
  values : ∀ r x v, p.scopes.lookup? r x = some v → p.Valid v
  fields : ∀ i o x v, p.machine.instances.get? i = some o → o.fields.get? x = some v → p.Valid v
  methods : ∀ r k x f, p.machine.classes.get? r = some k → k.methods.get? x = some f →
    p.FunctionIs f (p.IsMethod k x)
  founded : p.machine.Founded

/-- A later pair of the same run. -/
structure Follows (p q : Joint origin) : Prop where
  grows : Grows p q
  sim : Sim q

theorem Follows.trans {p q r : Joint origin} (h : Follows p q) (k : Follows q r) : Follows p r :=
  ⟨h.grows.trans k.grows, k.sim⟩

theorem Follows.refl {p : Joint origin} (h : Sim p) : Follows p p := ⟨.refl p, h⟩

/-- Two results, after the given pair, that are related or are the same fault. -/
def Ends {α β : Type} (p : Joint origin) (x : EStateM.Result Fault Machine α)
    (y : EStateM.Result Fault (Lexical.State Nat) β) (Q : α → β → Joint origin → Prop) : Prop :=
  ∃ q, Follows p q ∧
    ((∃ a b, x = .ok a q.machine ∧ y = .ok b q.state ∧ Q a b q) ∨
      ∃ e, x = .error e q.machine ∧ y = .error e q.state ∧ e.Foreseen)

/-- Both actions give results that are related, or both end with the same fault. -/
def Agree {α β : Type} (p : Joint origin) (x : Run α) (y : Lexical.Run Nat β)
    (Q : α → β → Joint origin → Prop) : Prop := Ends p (x p.machine) (y p.state) Q

section Agree

variable {α β γ δ : Type} {p q : Joint origin} {x : Run α} {y : Lexical.Run Nat β}
  {Q : α → β → Joint origin → Prop} {R : γ → δ → Joint origin → Prop}

namespace Ends

theorem ok {a : α} {b : β} (hf : Follows p q) (hQ : Q a b q) :
    Ends p (.ok a q.machine) (.ok b q.state) Q := ⟨q, hf, .inl ⟨a, b, rfl, rfl, hQ⟩⟩

theorem error {e : Fault} (hf : Follows p q) (he : e.Foreseen) :
    Ends (α := α) (β := β) p (.error e q.machine) (.error e q.state) Q :=
  ⟨q, hf, .inr ⟨e, rfl, rfl, he⟩⟩

theorem since {rx : EStateM.Result Fault Machine α} {ry : EStateM.Result Fault (Lexical.State Nat) β}
    (hf : Follows p q) (h : Ends q rx ry Q) : Ends p rx ry Q := by
  obtain ⟨r, hr, h⟩ := h
  exact ⟨r, hf.trans hr, h⟩

theorem bind {m : Machine} {s : Lexical.State Nat} {f : α → Run γ} {g : β → Lexical.Run Nat δ}
    (h : Ends p (x m) (y s) Q)
    (k : ∀ a b q, Follows p q → Q a b q → Ends p (f a q.machine) (g b q.state) R) :
    Ends p ((x >>= f) m) ((y >>= g) s) R := by
  simp only [Bind.bind, EStateM.bind]
  obtain ⟨q, hf, ⟨a, b, hx, hy, hQ⟩ | ⟨e, hx, hy, he⟩⟩ := h
  · rw [hx, hy]
    exact k a b q hf hQ
  · rw [hx, hy]
    exact .error hf he

end Ends

namespace Agree

theorem of_ok {a : α} {b : β} (q : Joint origin) (hx : x p.machine = .ok a q.machine)
    (hy : y p.state = .ok b q.state) (hf : Follows p q) (hQ : Q a b q) : Agree p x y Q := by
  rw [Agree, hx, hy]
  exact .ok hf hQ

theorem pure (h : Sim p) {a : α} {b : β} (hQ : Q a b p) :
    Agree p (Pure.pure a) (Pure.pure b) Q := .ok (.refl h) hQ

theorem throw (h : Sim p) {e : Fault} (he : e.Foreseen) :
    Agree p (MonadExcept.throw e) (MonadExcept.throw e) Q := .error (.refl h) he

theorem fail (h : Sim p) (token : Token) (problem : RuntimeProblem) :
    Agree p (Run.fail token problem) (Lexical.Run.fail token problem) Q := throw h trivial

theorem bind {f : α → Run γ} {g : β → Lexical.Run Nat δ} (h : Agree p x y Q)
    (k : ∀ a b q, Follows p q → Q a b q → Agree q (f a) (g b) R) :
    Agree p (x >>= f) (y >>= g) R :=
  Ends.bind h fun a b q hf hQ => .since hf (k a b q hf hQ)

/-- Reading does not change the pair. -/
theorem bind_eq {f : α → Run γ} {g : β → Lexical.Run Nat δ} {a : α} {b : β}
    (hx : x p.machine = .ok a p.machine) (hy : y p.state = .ok b p.state)
    (k : Agree p (f a) (g b) R) : Agree p (x >>= f) (y >>= g) R := by
  simp only [Agree, Bind.bind, EStateM.bind, hx, hy]
  exact k

theorem mono {R : α → β → Joint origin → Prop} (h : Agree p x y Q)
    (k : ∀ a b q, Follows p q → Q a b q → R a b q) : Agree p x y R := by
  obtain ⟨q, hf, ⟨a, b, hx, hy, hQ⟩ | he⟩ := h
  · exact ⟨q, hf, .inl ⟨a, b, hx, hy, k a b q hf hQ⟩⟩
  · exact ⟨q, hf, .inr he⟩

theorem left {x' : Run α} (h : Agree p x' y Q) (e : x p.machine = x' p.machine) : Agree p x y Q := by
  rw [Agree, e]
  exact h

/-- A result of the one side is one of both. -/
theorem of_left_ok (h : Agree p x y Q) {a : α} {m : Machine} (hx : x p.machine = .ok a m) :
    ∃ b q, q.machine = m ∧ Follows p q ∧ Q a b q := by
  obtain ⟨q, hf, ⟨a', b, hx', -, hQ⟩ | ⟨e, hx', -⟩⟩ := h
  · rw [hx] at hx'
    cases hx'
    exact ⟨b, q, rfl, hf, hQ⟩
  · rw [hx] at hx'
    cases hx'

/-! Reading the state is a step of its own on either side. -/

theorem get_left {f : Machine → Run α} (h : Agree p (f p.machine) y Q) :
    Agree p (get >>= f) y Q := h

theorem get_right {g : Lexical.State Nat → Lexical.Run Nat β} (h : Agree p x (g p.state) Q) :
    Agree p x (get >>= g) Q := h

end Agree

end Agree

end Agreement

end Lox
