import Lox.Proofs.Growth
import Lox.Proofs.Hops

/-! # The steps of a run

A run makes scopes, routines, classes and objects one at a time and writes to names and fields.
What a step makes was not there before. A scope is made inside one that is there, and a routine is
written in one that is there, so however many steps there are, every way outwards ends in the
globals. -/

namespace Lox

/-- Something that a machine makes. -/
abbrev Cell : Type := (sort : CellSort) × Ref sort

namespace Heap

variable {sort : CellSort} {α : Type} {heap : Heap sort α} {r : Ref sort}

theorem isSome_get?_iff : (heap.get? r).isSome ↔ r.index < heap.size :=
  ⟨index_lt_size, isSome_of_index_lt⟩

end Heap

namespace Machine

/-- How many there are of each sort. -/
def count (m : Machine) : CellSort → Nat
  | .scope => m.scopes.size
  | .function => m.functions.size
  | .klass => m.classes.size
  | .object => m.instances.size

def Has (m : Machine) : Cell → Prop
  | ⟨.scope, r⟩ => (m.scopes.get? r).isSome
  | ⟨.function, f⟩ => (m.functions.get? f).isSome
  | ⟨.klass, k⟩ => (m.classes.get? k).isSome
  | ⟨.object, i⟩ => (m.instances.get? i).isSome

/-- One step of a run, and what it makes. -/
inductive Step : Machine → List Cell → Machine → Prop
  | scope {m : Machine} {outer : Ref .scope} (there : m.Has ⟨.scope, outer⟩) (bindings : Bindings Value) :
      Step m [⟨.scope, m.scopes.next⟩] { m with scopes := m.scopes.add bindings (some outer) }
  | function {m : Machine} {c : Closure} (there : m.Has ⟨.scope, c.scope⟩) :
      Step m [⟨.function, m.functions.next⟩] { m with functions := m.functions.push c }
  | klass (m : Machine) (k : Klass) :
      Step m [⟨.klass, m.classes.next⟩] { m with classes := m.classes.push k }
  | object (m : Machine) (o : Instance) :
      Step m [⟨.object, m.instances.next⟩] { m with instances := m.instances.push o }
  | write (m : Machine) (r : Ref .scope) (x : String) (v : Value) :
      Step m [] { m with scopes := m.scopes.define r x v }
  | field (m : Machine) (i : Ref .object) (x : String) (v : Value) :
      Step m [] { m with instances := m.instances.modify i fun object =>
        { object with fields := object.fields.set x v } }
  | move {m : Machine} {r : Ref .scope} (there : m.Has ⟨.scope, r⟩) : Step m [] { m with current := r }
  /-- output, readings of the time, events and addresses -/
  | aside {m m' : Machine} (scopes : m'.scopes = m.scopes) (functions : m'.functions = m.functions)
      (classes : m'.classes = m.classes) (instances : m'.instances = m.instances)
      (current : m'.current = m.current) : Step m [] m'

/-- Some steps in turn, and what they make. -/
inductive Steps : Machine → List Cell → Machine → Prop
  | done (m : Machine) : Steps m [] m
  | step {m m' m'' : Machine} {made more : List Cell} (first : m.Step made m') (rest : Steps m' more m'') :
      Steps m (made ++ more) m''

/-- Steps lead from the one machine to the other. -/
def Reaches (m m' : Machine) : Prop := ∃ made, m.Steps made m'

/-- What steps from the one machine to the other leave of it, and what they add. -/
structure Grows (m : Machine) (made : List Cell) (m' : Machine) : Prop extends m.Precedes m' where
  /-- the value of a field may be another -/
  fields : ∀ i o x, m.instances.get? i = some o → x ∈ o.fields.names →
    ∃ o', m'.instances.get? i = some o' ∧ x ∈ o'.fields.names
  /-- There is what there was and what has been made, -/
  has : ∀ c, m'.Has c ↔ m.Has c ∨ c ∈ made
  /-- which was not there before -/
  fresh : ∀ c ∈ made, ¬ m.Has c
  /-- and has been made only once. -/
  once : made.Nodup

/-- A machine in which every scope is around another, in the end, as the globals are. -/
structure InOrder (m : Machine) : Prop where
  built : m.scopes.Built
  globals : m.Has ⟨.scope, globals⟩
  outermost : ∀ r, m.Has ⟨.scope, r⟩ → (m.scopes.enclosing? r = none ↔ r = Machine.globals)
  closures : ∀ f c, m.functions.get? f = some c → m.Has ⟨.scope, c.scope⟩
  current : m.Has ⟨.scope, m.current⟩

variable {m m' m'' : Machine} {made more : List Cell} {c : Cell} {r outer : Ref .scope} {n : Nat}

/-! ## What is added -/

theorem has_iff : m.Has c ↔ c.2.index < m.count c.1 := by
  obtain ⟨sort, r⟩ := c
  cases sort <;> exact Heap.isSome_get?_iff

theorem has_of_count (same : ∀ sort, m'.count sort = m.count sort) : m'.Has c ↔ m.Has c := by
  rw [has_iff, has_iff, same]

/-- The next of a sort is not there yet. -/
theorem not_has_next (sort : CellSort) : ¬ m.Has ⟨sort, ⟨m.count sort⟩⟩ := by
  rw [has_iff]
  exact Nat.lt_irrefl _

theorem has_of_count_succ {sort : CellSort}
    (grown : ∀ other, m'.count other = m.count other + if other = sort then 1 else 0) :
    m'.Has c ↔ m.Has c ∨ c = ⟨sort, ⟨m.count sort⟩⟩ := by
  obtain ⟨other, ⟨i⟩⟩ := c
  rw [has_iff, has_iff, grown]
  dsimp only
  by_cases e : other = sort
  · subst e
    simp only [if_true, Sigma.mk.injEq, heq_eq_eq, true_and, Ref.mk.injEq]
    omega
  · simp [e]

namespace Grows

theorem trans (h : m.Grows made m') (k : m'.Grows more m'') : m.Grows (made ++ more) m'' where
  toPrecedes := h.toPrecedes.trans k.toPrecedes
  fields i o x ho hx := by
    obtain ⟨o', ho', hx'⟩ := h.fields i o x ho hx
    exact k.fields i o' x ho' hx'
  has c := by rw [k.has, h.has, List.mem_append, or_assoc]
  fresh c hc there := by
    rcases List.mem_append.mp hc with hc | hc
    · exact h.fresh c hc there
    · exact k.fresh c hc ((h.has c).mpr (.inl there))
  once := by
    refine List.nodup_append.mpr ⟨h.once, k.once, ?_⟩
    rintro c hc _ hd rfl
    exact k.fresh c hd ((h.has c).mpr (.inr hc))

/-- Where nothing is made, nothing is new. -/
theorem of_precedes (before : m.Precedes m')
    (fields : ∀ i o x, m.instances.get? i = some o → x ∈ o.fields.names →
      ∃ o', m'.instances.get? i = some o' ∧ x ∈ o'.fields.names)
    (same : ∀ sort, m'.count sort = m.count sort) : m.Grows [] m' where
  toPrecedes := before
  fields := fields
  has c := by simp [has_of_count same]
  fresh _ hc := by cases hc
  once := List.nodup_nil

theorem refl (m : Machine) : m.Grows [] m :=
  of_precedes (.refl m) (fun _ o _ ho hx => ⟨o, ho, hx⟩) fun _ => rfl

/-- The next of a sort is made. -/
theorem of_next (sort : CellSort) (before : m.Precedes m')
    (fields : ∀ i o, m.instances.get? i = some o → m'.instances.get? i = some o)
    (grown : ∀ other, m'.count other = m.count other + if other = sort then 1 else 0) :
    m.Grows [⟨sort, ⟨m.count sort⟩⟩] m' where
  toPrecedes := before
  fields i o _ ho hx := ⟨o, fields i o ho, hx⟩
  has c := by rw [has_of_count_succ grown, List.mem_singleton]
  fresh c hc := by
    rw [List.mem_singleton.mp hc]
    exact not_has_next sort
  once := by simp

end Grows

/-- A step adds what it makes and leaves the rest in place. -/
theorem Step.grows (step : m.Step made m') : m.Grows made m' := by
  cases step with
  | @scope outer there bindings =>
    refine .of_next .scope (.newScope m bindings (some outer)) (fun _ _ ho => ho) fun other => ?_
    cases other <;> simp [count, Scopes.add]
  | @function c there =>
    refine .of_next .function (.newFunction m c) (fun _ _ ho => ho) fun other => ?_
    cases other <;> simp [count]
  | klass k =>
    refine .of_next .klass (.newClass m k) (fun _ _ ho => ho) fun other => ?_
    cases other <;> simp [count]
  | object o =>
    refine .of_next .object (.newInstance m o) (fun _ _ => Heap.get?_push_of_some) fun other => ?_
    cases other <;> simp [count]
  | write r x v =>
    refine .of_precedes (.write m r x v) (fun _ o _ ho hx => ⟨o, ho, hx⟩) fun other => ?_
    cases other <;> simp [count, Scopes.define]
  | field i x v =>
    refine .of_precedes (.setField m i x v) (fun j o y ho hy => ?_) fun other => ?_
    · rw [Heap.get?_modify]
      split
      · rename_i e
        rw [← e, ho]
        exact ⟨_, rfl, Bindings.mem_names_set.mpr (.inl hy)⟩
      · exact ⟨o, ho, hy⟩
    · cases other <;> simp [count]
  | move there => exact .of_precedes (.of_eq rfl rfl rfl rfl) (fun _ o _ ho hx => ⟨o, ho, hx⟩) fun _ => rfl
  | aside scopes functions classes instances current =>
    refine .of_precedes (.of_eq functions classes instances scopes)
      (fun _ o _ ho hx => ⟨o, instances ▸ ho, hx⟩) fun other => ?_
    cases other <;> simp [count, *]

theorem Steps.grows (steps : m.Steps made m') : m.Grows made m' := by
  induction steps with
  | done m => exact .refl m
  | step first _ ih => exact first.grows.trans ih

theorem Steps.append (first : m.Steps made m') (rest : m'.Steps more m'') : m.Steps (made ++ more) m'' := by
  induction first with
  | done => exact rest
  | step one _ ih =>
    rw [List.append_assoc]
    exact .step one (ih rest)

theorem Step.reaches (step : m.Step made m') : m.Reaches m' := ⟨_, .step step (.done m')⟩

/-! ## Every way outwards ends in the globals -/

theorem InOrder.start (reading : Nat → Float) (recording : Bool) : (start reading recording).InOrder where
  built := Scopes.Built.empty.add _ none fun _ e => by cases e
  globals := rfl
  outermost r there := by
    have first : r.index < 1 := has_iff.mp there
    obtain ⟨i⟩ := r
    obtain rfl : i = 0 := Nat.lt_one_iff.mp first
    exact ⟨fun _ => rfl, fun _ => rfl⟩
  closures f c hf := by cases hf
  current := rfl

theorem Step.inOrder (step : m.Step made m') (h : m.InOrder) : m'.InOrder := by
  have grows := step.grows
  have kept (r : Ref .scope) (there : m.Has ⟨.scope, r⟩) : m'.Has ⟨.scope, r⟩ := (grows.has _).mpr (.inl there)
  cases step with
  | @scope outer there bindings =>
    refine ⟨h.built.add bindings (some outer) fun r e => Option.some.inj e ▸ there, kept _ h.globals,
      fun r made => ?_, fun f c hf => kept _ (h.closures f c hf), kept _ h.current⟩
    rcases (grows.has _).mp made with old | new
    · rw [grows.enclosing r old]
      exact h.outermost r old
    · obtain rfl : r = m.scopes.next := by simpa using new
      have inside : (m.scopes.add bindings (some outer)).enclosing? m.scopes.next = some outer := by
        rw [Scopes.enclosing?, Scopes.get?_add_next]
        rfl
      rw [inside]
      constructor
      · intro e
        cases e
      · intro e
        exact absurd h.globals (e ▸ not_has_next .scope)
  | @function c there =>
    refine { h with closures := fun f d hf => ?_ }
    have hf : (m.functions.push c).get? f = some d := hf
    rw [Heap.get?_push] at hf
    split at hf
    · cases hf
      exact there
    · exact h.closures f d hf
  | klass k => exact { h with }
  | object o => exact { h with }
  | write r x v =>
    refine ⟨h.built.define r x v, kept _ h.globals, fun q made => ?_, fun f c hf => kept _ (h.closures f c hf),
      kept _ h.current⟩
    have old : m.Has ⟨.scope, q⟩ := ((grows.has _).mp made).resolve_right (by simp)
    rw [grows.enclosing q old]
    exact h.outermost q old
  | field i x v => exact { h with }
  | move there => exact { h with current := there }
  | aside scopes functions classes instances current =>
    obtain ⟨built, globals, outermost, closures, here⟩ := h
    refine ⟨scopes ▸ built, kept _ globals, fun r made => ?_, fun f c hf => ?_, ?_⟩
    · rw [scopes]
      exact outermost r (((grows.has _).mp made).resolve_right (by simp))
    · exact kept _ (closures f c (functions ▸ hf))
    · rw [current]
      exact kept _ here

theorem Steps.inOrder (steps : m.Steps made m') (h : m.InOrder) : m'.InOrder := by
  induction steps with
  | done => exact h
  | step first _ ih => exact ih (first.inOrder h)

namespace Reaches

theorem refl (m : Machine) : m.Reaches m := ⟨[], .done m⟩

theorem aside (scopes : m'.scopes = m.scopes) (functions : m'.functions = m.functions)
    (classes : m'.classes = m.classes) (instances : m'.instances = m.instances)
    (current : m'.current = m.current) : m.Reaches m' :=
  (Step.aside scopes functions classes instances current).reaches

theorem trans (h : m.Reaches m') (k : m'.Reaches m'') : m.Reaches m'' := by
  obtain ⟨made, first⟩ := h
  obtain ⟨more, rest⟩ := k
  exact ⟨_, first.append rest⟩

theorem inOrder (h : m.Reaches m') (ordered : m.InOrder) : m'.InOrder := by
  obtain ⟨made, steps⟩ := h
  exact steps.inOrder ordered

theorem has (h : m.Reaches m') (there : m.Has c) : m'.Has c := by
  obtain ⟨made, steps⟩ := h
  exact (steps.grows.has c).mpr (.inl there)

end Reaches

namespace InOrder

variable (h : m.InOrder)
include h

theorem reaches_globals (there : m.Has ⟨.scope, r⟩) : ∃ n, m.scopes.scopeAt n r = .ok Machine.globals := by
  obtain ⟨n, q, found, last⟩ := h.built.nested.exists_outermost r
  have made : m.Has ⟨.scope, q⟩ := h.built.nested.isSome_scopeAt there found
  exact ⟨n, (h.outermost q made).mp last ▸ found⟩

/-- Hops lead where they led. -/
theorem scopeAt_eq (before : m.Precedes m') (there : m.Has ⟨.scope, r⟩) (n : Nat) :
    m'.scopes.scopeAt n r = m.scopes.scopeAt n r := by
  induction n generalizing r with
  | zero => rfl
  | succ n ih =>
    cases around : m.scopes.enclosing? r with
    | none =>
      rw [Scopes.scopeAt_outermost around, Scopes.scopeAt_outermost ((before.enclosing r there).trans around)]
    | some outer =>
      have made : m.Has ⟨.scope, outer⟩ :=
        h.built.nested.isSome_scopeAt there ((Scopes.scopeAt_succ around 0).trans Scopes.scopeAt_zero)
      rw [Scopes.scopeAt_succ around, Scopes.scopeAt_succ ((before.enclosing r there).trans around), ih made]

end InOrder

end Machine

end Lox
