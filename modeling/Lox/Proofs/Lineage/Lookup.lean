import Lox.Proofs.Lineage.Histories

/-! # Methods are looked up by lineage

The classes above a class are the parent with which it was made, the parent of that one
and so on to the end. A method of the class is the one that stands last under its name in
the nearest body. Both are settled when the class is made: what the names of the classes
stand for later makes no difference. -/

namespace Lox

/-! ## Operations -/

namespace Level

variable (below : Level) {m : Machine}

theorem checkCount_then {α : Type} (paren : Token) (n : Nat) (arguments : List Value) (act : Run α)
    (m : Machine) : (checkCount paren n arguments >>= fun _ => act) m =
      if arguments.length = n then act m
      else .error (.runtime ⟨paren, .wrongCount n arguments.length⟩) m := by
  unfold checkCount
  split <;> rfl

/-- A call of a class checks the number of arguments by the initializer that the class finds. -/
theorem call_klass {r : Ref .klass} {n : Nat}
    (none : m.classes.method? r initializerName = none → n = 0)
    (some : ∀ f, m.classes.method? r initializerName = some f →
      ∃ c, m.functions.get? f = some c ∧ c.arity = n) (paren : Token) (arguments : List Value) :
    below.call (.klass r) paren arguments m =
      if arguments.length = n then below.construct r (m.classes.method? r initializerName) arguments m
      else .error (.runtime ⟨paren, .wrongCount n arguments.length⟩) m := by
  have look : Run.method? r initializerName m = .ok (m.classes.method? r initializerName) m := rfl
  rw [call, callBy, Run.bind_ok look]
  cases found : m.classes.method? r initializerName with
  | none =>
    rw [none found]
    exact checkCount_then paren 0 arguments _ m
  | some f =>
    obtain ⟨c, hc, rfl⟩ := some f found
    exact (Run.bind_ok (Agreement.arityAt_eq hc)).trans (checkCount_then paren c.arity arguments _ m)

end Level

/-- A machine after a method has been bound to an object: the copy of the method is written
in a scope of its own, which binds `this` and nothing else. -/
def Machine.binding (m : Machine) (c : Closure) (i : Ref .object) : Machine :=
  { m with
    scopes := m.scopes.add (.ofList [("this", .object i)]) (some c.scope)
    functions := m.functions.push { c with scope := m.scopes.next } }

theorem Run.bind_object {m : Machine} {f : Ref .function} {c : Closure} (hc : m.functions.get? f = some c)
    (i : Ref .object) : Run.bind f (.object i) m = .ok m.functions.next (m.binding c i) := by
  rw [Run.bind, bind_ok (Run.functionAt_eq hc)]
  rfl

/-! ## One state -/

variable {m m' last : Machine} {d d' : Declaration} {k : Klass} {declared : List Declaration}
  {declaration : Ref .klass → Declaration}

/-- A class that is made by a declaration has always been. -/
theorem Machine.MadeBy.earlier (h : last.MadeBy k d) (before : m.Precedes last) (h' : m.MadeBy k d') :
    m.MadeBy k d := by
  obtain ⟨scope, later⟩ := h.table
  obtain ⟨scope', now⟩ := h'.table
  refine { h with table := ⟨scope, fun x => ?_⟩ }
  have later := later x
  have now := now x
  generalize k.methods.get? x = found at later now ⊢
  generalize d.method? x = routine at later ⊢
  generalize d'.method? x = routine' at now
  cases later with
  | none => exact .none
  | some hf =>
    cases now with
    | some hf' =>
      refine .some ?_
      rw [hf', ← before.functions _ _ hf', hf]

end Lox
