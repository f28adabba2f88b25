import Lox.Proofs.Likeness.Parsing
import Lox.Proofs.Likeness.Resolving
import Lox.Proofs.Likeness.Running
import Lox.Proofs.StaticErrors

/-! # Interpreters that are given like sources

Numbering, resolving and running like programs keeps two interpreters alike, as long
as marks are related one to one. -/

namespace Lox

variable {T : Token → Token → Prop} {M : Nat → Nat → Prop}
  {E : Option (Array Event) → Option (Array Event) → Prop}

theorem Closure.like_refl (hT : ∀ t, T t t) (hM : ∀ n, M n n) (f : Closure) : f.Like T M f :=
  ⟨Routine.like_refl hT hM f.routine, rfl, rfl⟩

theorem Machine.like_refl (hT : ∀ t, T t t) (hE : ∀ a, E a a) (m : Machine) : m.Like T Eq E m where
  scopes := rfl
  functions f := by
    cases m.functions.get? f with
    | none => exact .none
    | some c => exact .some (c.like_refl hT fun _ => rfl)
  functionCount := rfl
  classes := rfl
  instances := rfl
  current := rfl
  table _ _ e := e ▸ rfl
  clock := rfl
  output := rfl
  events := hE m.events

/-- Related marks that are recorded stay related. -/
theorem Table.recordAll_like (hM : ∀ m m' n n', M m m' → M n n' → (m' = n' ↔ m = n))
    {entries entries' : List Entry} (h : List.Forall₂ (Entry.Like T M) entries entries') :
    ∀ t t' : Table, (∀ n n', M n n' → t'.hops? n' = t.hops? n) →
      ∀ n n', M n n' → (t'.recordAll entries').hops? n' = (t.recordAll entries).hops? n := by
  induction h with
  | nil => exact fun _ _ ht => ht
  | cons he _ ih =>
    refine fun t t' ht => ih _ _ fun n n' hn => ?_
    simp only [Table.hops?_record, he.hops, hM _ _ _ _ hn he.reference.mark, ht n n' hn]

variable (T M E) in
structure Interpreter.Like (i i' : Interpreter) : Prop where
  limits : i'.limits = i.limits
  machine : i.machine.Like T M E i'.machine
  nextMark : i'.nextMark = i.nextMark

namespace Interpreter

variable {i i' : Interpreter}

theorem Like.refl (hT : ∀ t, T t t) (hE : ∀ a, E a a) (i : Interpreter) : i.Like T Eq E i :=
  ⟨rfl, i.machine.like_refl hT hE, rfl⟩

theorem Like.learn (h : i.Like T M E i') (hM : ∀ m m' n n', M m m' → M n n' → (m' = n' ↔ m = n))
    {entries entries' : List Entry} (he : List.Forall₂ (Entry.Like T M) entries entries') :
    (i.learn entries).Like T M E (i'.learn entries') :=
  { h with machine := { h.machine with table := Table.recordAll_like hM he _ _ h.machine.table } }

theorem Like.takeEvents {F : Option (Array Event) → Option (Array Event) → Prop} (h : i.Like T M E i')
    (hE : ∀ a b, E a b → F (a.map fun _ => #[]) (b.map fun _ => #[])) :
    i.takeEvents.2.Like T M F i'.takeEvents.2 :=
  { h with machine := { h.machine with events := hE _ _ h.machine.events } }

theorem execute_ends (limits : i'.limits = i.limits) (next : i'.nextMark = i.nextMark)
    {code code' : List (Stmt Nat)} {c : Ref .scope × Table}
    (ends : Run.Ends T M E Eq c (Run.program (.ofLimits i.limits) code i.machine)
      (Run.program (.ofLimits i.limits) code' i'.machine)) :
    (i.execute code).1.Like T M E (i'.execute code').1 ∧
      Option.Rel (Fault.Like T) (i.execute code).2 (i'.execute code').2 := by
  unfold Interpreter.execute
  rw [limits]
  generalize Run.program (.ofLimits i.limits) code i.machine = r at ends ⊢
  generalize Run.program (.ofLimits i.limits) code' i'.machine = r' at ends ⊢
  cases ends with
  | ok _ hm _ => exact ⟨⟨rfl, hm, next⟩, .none⟩
  | error hf hm _ => exact ⟨⟨rfl, hm, next⟩, .some hf⟩

section Run

variable (hT : ∀ t u, T t u → t.SameText u)
  (hE : ∀ a b e, E a b → E (a.map (·.push e)) (b.map (·.push e)))
include hT hE

theorem Like.execute (h : i.Like T M E i') {code code' : List (Stmt Nat)}
    (hc : List.Forall₂ (Stmt.Like T M) code code') :
    (i.execute code).1.Like T M E (i'.execute code').1 ∧
      Option.Rel (Fault.Like T) (i.execute code).2 (i'.execute code').2 :=
  execute_ends h.limits h.nextMark
    (Run.program_like (Level.ofLimits_like (M := M) hT hE i.limits) hc h.machine)

/-- Sources that are read as like programs are performed alike. -/
theorem Like.perform (h : i.Like T M E i') {a b : String}
    (hs : List.Forall₂ (Stmt.Like T Eq) (parse (scan a).tokens).statements (parse (scan b).tokens).statements)
    (hM : ∀ m m' n n', M m m' → M n n' → (m' = n' ↔ m = n))
    (hn : Relates M 0 i.nextMark (i.number (parse (scan a).tokens).statements).2.nextMark) :
    (i.perform a).1.Like T M E (i'.perform b).1 ∧
      Option.Rel (Fault.Like T) (i.perform a).2 (i'.perform b).2 := by
  unfold Interpreter.perform
  generalize (parse (scan a).tokens).statements = p at hs hn ⊢
  generalize (parse (scan b).tokens).statements = q at hs ⊢
  obtain ⟨-, next, like⟩ := Stmt.numberAll_like (M := M) (d := 0) p hs i.nextMark
  have code := like hn
  rw [Nat.add_zero] at next code
  have numbered : (i.number p).2.Like T M E (i'.number q).2 := by
    refine ⟨h.limits, h.machine, ?_⟩
    rw [Interpreter.number, Interpreter.number, h.nextMark]
    exact next
  have same : (i'.number q).1 = (Stmt.numberAll q i.nextMark).1 := by rw [Interpreter.number, h.nextMark]
  dsimp only
  rw [same]
  exact (numbered.learn hM (resolve_like hT code).1).execute hT hE code

end Run

end Interpreter

end Lox
