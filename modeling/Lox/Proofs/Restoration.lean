import Lox.Proofs.Agreement.Locals
import Lox.Proofs.Uniformity

/-! # The current scope is restored

Whatever is run, the machine comes back to the scope in which that began: at its end,
when it returns and when a fault stops it. Nothing is asked of the code, of the machine
or of its table, which may lead to scopes that are not there. -/

namespace Lox

namespace Run

variable {α β : Type}

/-- The machine that an action leaves, however it ends. -/
def after (act : Run α) (m : Machine) : Machine :=
  match act m with
  | .ok _ m' | .error _ m' => m'

section After

variable {x : Run α} {f : α → Run β} {m m' : Machine} {a : α} {fault : Fault}

theorem after_ok (h : x m = .ok a m') : x.after m = m' := by rw [after, h]

theorem after_error (h : x m = .error fault m') : x.after m = m' := by rw [after, h]

theorem after_bind (h : x m = .ok a m') : (x >>= f).after m = (f a).after m' := by
  rw [after, after, bind_ok h]

theorem after_ensuring (act : Run α) (change : Machine → Machine) (m : Machine) :
    (ensuring act change).after m = change (act.after m) := by
  rw [after, after, ensuring]
  cases act m <;> rfl

theorem after_within (scope : Ref .scope) (act : Run α) (m : Machine) :
    (within scope act).after m =
      { act.after { m with current := scope } with current := m.current } := by
  rw [after, within_eq, ← after, after_ensuring]

theorem after_program (level : Level) (code : List (Stmt Nat)) (m : Machine) :
    (program level code).after m =
      { (statements level code).after m with current := Machine.globals } :=
  after_ensuring ..

end After

/-- An action that leaves the machine in the scope in which it has begun. -/
def Restores (act : Run α) : Prop := ∀ m, (act.after m).current = m.current

theorem Restores.bind {x : Run α} {f : α → Run β} (hx : x.Restores) (hf : ∀ a, (f a).Restores) :
    (x >>= f).Restores := by
  intro m
  have first := hx m
  cases hm : x m with
  | error fault m' =>
    rw [after_error hm] at first
    rwa [after_error (bind_error hm)]
  | ok a m' =>
    rw [after_ok hm] at first
    rw [after_bind hm]
    exact (hf a m').trans first

/-- There is a way back from every scope, and it does not depend on the action taken. -/
theorem restores_within (scope : Ref .scope) (act : Run α) : (within scope act).Restores := by
  intro m
  rw [after_within]

theorem closed_restores : Closed fun α (act : Unit → Run α) => (act ()).Restores where
  result _ _ := rfl
  fault _ _ _ := rfl
  look _ := rfl
  bind := Restores.bind
  print _ _ := rfl
  record _ _ := rfl
  readClock _ := rfl
  newScope _ _ _ := rfl
  newFunction _ _ := rfl
  newClass _ _ := rfl
  newInstance _ _ := rfl
  setField _ _ _ _ := rfl
  write _ _ _ _ := rfl
  define _ _ _ := rfl
  within scope _ _ := restores_within scope _

end Run

namespace Level

/-- A level at which the current scope is restored, whatever is run and however it ends. -/
structure Restoring (level : Level) : Prop where
  stmt (s : Stmt Nat) : (level.stmt s).Restores
  expr (e : Expr Nat) : (level.expr e).Restores
  /-- statements in the current scope -/
  row (body : List (Stmt Nat)) : (level.executeAll body).Restores
  /-- statements in a scope of their own -/
  block (scope : Ref .scope) (body : List (Stmt Nat)) :
    (Run.within scope (level.executeAll body)).Restores
  call (callee : Value) (paren : Token) (arguments : List Value) :
    (level.call callee paren arguments).Restores
  enter (f : Closure) (arguments : List Value) : (level.enter f arguments).Restores
  construct (k : Ref .klass) (initializer : Option (Ref .function)) (arguments : List Value) :
    (level.construct k initializer arguments).Restores
  declareClass (name : Token) (parent : Option (Reference Nat))
    (methods : List (Routine (Stmt Nat))) : (level.declareClass name parent methods).Restores
  /-- a program ends in the global scope, wherever it begins -/
  program (code : List (Stmt Nat)) (m : Machine) :
    ((Run.program level code).after m).current = Machine.globals

theorem Restoring.of_parts {level : Level} (hstmt : ∀ s, (level.stmt s).Restores)
    (hexpr : ∀ e, (level.expr e).Restores) : level.Restoring :=
  let h := Run.closed_restores
  let below : Unit → Level := fun _ => level
  { stmt := hstmt
    expr := hexpr
    row := h.executeAll below hstmt
    block := fun scope _ => Run.restores_within scope _
    call := h.callBy (fun _ => level.enter) (h.enter below hstmt)
    enter := h.enter below hstmt
    construct := h.constructBy (fun _ => level.enter) (h.enter below hstmt)
    declareClass := h.declareClass below hexpr h.define
    program := fun code m => by rw [Run.after_program] }

theorem restoring_ofDepth (rounds n : Nat) : (ofDepth rounds n).Restoring := by
  obtain ⟨hexpr, hstmt⟩ := Run.closed_restores.ofDepth (ι := Unit) rounds n
  exact .of_parts hstmt hexpr

/-! ## Declaring a class from inside -/

/-- Declares a class by going into the scope that holds `super`, and back by hand. -/
def declareClassInside (below : Level) (name : Token) (parent : Option (Reference Nat))
    (methods : List (Routine (Stmt Nat))) : Run Unit := do
  let parent ← below.parentClass parent
  Run.define name.lexeme .nil
  let enclosing ← Run.current
  match parent with
  | some k =>
    Run.moveTo (← Run.newScope .empty enclosing)
    Run.define "super" (.klass k)
  | none => pure ()
  let made ← makeMethods (← Run.current) methods
  let k ← Run.newClass ⟨name.lexeme, parent, made⟩
  Run.record (.classMade name.lexeme (parent.map (← get).nameOfClass) made)
  Run.moveTo enclosing
  Run.define name.lexeme (.klass k)

/-- Making methods does not fail, and does the same wherever the machine stands. -/
theorem makeMethods_anywhere (scope : Ref .scope) (methods : List (Routine (Stmt Nat))) (m : Machine) :
    ∃ (made : Bindings (Ref .function)) (m' : Machine), ∀ c,
      makeMethods scope methods { m with current := c } = .ok made { m' with current := c } := by
  unfold makeMethods
  generalize Bindings.empty = made
  induction methods generalizing made m with
  | nil => exact ⟨made, m, fun c => rfl⟩
  | cons r rest ih =>
    let f : Closure := ⟨r, scope, r.name.lexeme == initializerName⟩
    exact ih { m with functions := m.functions.push f } (made.set r.name.lexeme m.functions.next)

/-- It is the same: nothing that happens in between can fail. -/
theorem declareClassInside_eq (below : Level) (name : Token) (parent : Option (Reference Nat))
    (methods : List (Routine (Stmt Nat))) :
    below.declareClassInside name parent methods = below.declareClass name parent methods := by
  refine bind_congr fun parent => bind_congr fun _ => ?_
  funext m
  cases parent with
  | none =>
    obtain ⟨made, m', h⟩ := makeMethods_anywhere m.current methods m
    have same := h m.current
    change EStateM.bind (makeMethods m.current methods) _ m =
      EStateM.bind (makeMethods m.current methods) _ m
    rw [EStateM.bind, EStateM.bind, same]
    rfl
  | some k =>
    let inside := m.scopes.next
    have opened : (m.scopes.add .empty (some m.current)).define inside "super" (.klass k) =
        m.scopes.add (.ofList [("super", .klass k)]) (some m.current) := Scopes.define_add _ _ _ _ _
    obtain ⟨made, m', h⟩ := makeMethods_anywhere inside methods
      { m with scopes := m.scopes.add (.ofList [("super", .klass k)]) (some m.current) }
    change EStateM.bind (makeMethods inside methods) _
      { m with
        scopes := (m.scopes.add .empty (some m.current)).define inside "super" (.klass k)
        current := inside } =
      EStateM.bind (makeMethods inside methods) _
        { m with scopes := m.scopes.add (.ofList [("super", .klass k)]) (some m.current) }
    rw [opened, EStateM.bind, EStateM.bind, h inside, h m.current]
    rfl

/-- Statements, expressions and calls of every kind restore the current scope at any depth
and for any number of rounds, and a class may be declared from inside the scope of its
methods. -/
theorem scope_restored (rounds n : Nat) :
    (ofDepth rounds n).Restoring ∧
      ∀ name parent methods, (ofDepth rounds n).declareClass name parent methods =
        (ofDepth rounds n).declareClassInside name parent methods :=
  ⟨restoring_ofDepth rounds n, fun name parent methods =>
    (declareClassInside_eq _ name parent methods).symm⟩

end Level

end Lox
