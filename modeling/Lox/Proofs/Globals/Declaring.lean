import Lox.Proofs.Globals.Sparing

/-! # Declarations outside all scopes

A declaration in the outermost scope evaluates what it has to, and then gives its name a
value, or stops before with the global names as they were. Nothing that comes after the
first binding can fail, so that there is no declaration by halves. -/

namespace Lox

/-- What is left of an earlier machine after a declaration: one global name has a value that
may be new, and the others have been spared. -/
structure Machine.Declared (G : Bindings Value → Prop) (x : String) (m m' : Machine) : Prop where
  current : m'.current = m.current
  made : (m'.scopes.get? Machine.globals).isSome
  bindings : ∃ g v, g.names = m.globalBindings.names ∧ G g ∧ m'.globalBindings = g.set x v

namespace Run

variable {G : Bindings Value → Prop} {α β : Type} {x : String}

/-- An action that does not fail and leaves the globals and the current scope alone. -/
def Still (act : Run α) : Prop :=
  ∀ m : Machine, (m.scopes.get? Machine.globals).isSome → ∃ a m', act m = .ok a m' ∧
    m'.current = m.current ∧ (m'.scopes.get? Machine.globals).isSome ∧
    m'.globalBindings = m.globalBindings

/-- An action that does not fail in the outermost scope and gives one name a value there. -/
def Binds (x : String) (act : Run α) : Prop :=
  ∀ m : Machine, (m.scopes.get? Machine.globals).isSome → m.current = Machine.globals →
    ∃ a m' v, act m = .ok a m' ∧ m'.current = Machine.globals ∧
      (m'.scopes.get? Machine.globals).isSome ∧ m'.globalBindings = m.globalBindings.set x v

/-- An action that, begun in the outermost scope, ends with a declaration or before it. -/
def Declares (G : Bindings Value → Prop) (x : String) (act : Run α) : Prop :=
  ∀ m : Machine, m.Ready G → m.current = Machine.globals →
    (∀ a m', act m = .ok a m' → m.Declared G x m') ∧ ∀ fault m', act m = .error fault m' → m.Spared G m'

theorem still_of_scopes {act : Run α} (h : ∀ m, ∃ a m', act m = .ok a m' ∧ m'.current = m.current ∧
    m'.scopes = m.scopes) : act.Still := by
  intro m made
  obtain ⟨a, m', result, current, scopes⟩ := h m
  exact ⟨a, m', result, current, scopes ▸ made, congrArg (Scopes.bindings · _) scopes⟩

theorem Still.bind {act : Run α} {f : α → Run β} (hx : act.Still) (hf : ∀ a, (f a).Still) :
    (act >>= f).Still := by
  intro m made
  obtain ⟨a, m₁, first, current, made₁, same⟩ := hx m made
  obtain ⟨b, m₂, rest, current₂, made₂, same₂⟩ := hf a m₁ made₁
  exact ⟨b, m₂, (bind_ok first).trans rest, current₂.trans current, made₂, same₂.trans same⟩

theorem still_pure (a : α) : Still (pure a) := still_of_scopes fun m => ⟨a, m, rfl, rfl, rfl⟩

theorem still_get : Still (get : Run Machine) := still_of_scopes fun m => ⟨m, m, rfl, rfl, rfl⟩

theorem still_newFunction (f : Closure) : (Run.newFunction f).Still :=
  still_of_scopes fun _ => ⟨_, _, rfl, rfl, rfl⟩

theorem still_newClass (k : Klass) : (Run.newClass k).Still :=
  still_of_scopes fun _ => ⟨_, _, rfl, rfl, rfl⟩

theorem still_record (event : Event) : (Run.record event).Still :=
  still_of_scopes fun _ => ⟨_, _, rfl, rfl, rfl⟩

theorem still_current : Run.current.Still := still_of_scopes fun _ => ⟨_, _, rfl, rfl, rfl⟩

theorem still_newScope (bindings : Bindings Value) (outer : Ref .scope) :
    (Run.newScope bindings outer).Still := fun _ made =>
  ⟨_, _, rfl, rfl, (congrArg Option.isSome (Scopes.get?_add_of_isSome made)).trans made,
    Scopes.bindings_add made⟩

theorem still_methodScope (parent : Option (Ref .klass)) : (Level.methodScope parent).Still := by
  refine still_current.bind fun outer => ?_
  cases parent with
  | none => exact still_pure outer
  | some k => exact still_newScope _ outer

theorem still_makeMethods (scope : Ref .scope) (methods : List (Routine (Stmt Nat))) :
    (Level.makeMethods scope methods).Still := by
  unfold Level.makeMethods
  generalize Bindings.empty = made
  induction methods generalizing made with
  | nil => exact still_pure made
  | cons r rest ih =>
    rw [List.foldlM_cons]
    exact ((still_newFunction _).bind fun _ => still_pure _).bind ih

theorem binds_define (x : String) (v : Value) : (Run.define x v).Binds x := by
  intro m made home
  refine ⟨(), { m with scopes := m.scopes.define m.current x v }, v, rfl, home, ?_, ?_⟩
  · exact Scopes.isSome_get?_define.trans made
  · change (m.scopes.define m.current x v).bindings Machine.globals = _
    rw [home]
    exact Scopes.bindings_define made

theorem Still.binds {act : Run α} {f : α → Run β} (hx : act.Still) (hf : ∀ a, (f a).Binds x) :
    (act >>= f).Binds x := by
  intro m made home
  obtain ⟨a, m₁, first, current, made₁, same⟩ := hx m made
  obtain ⟨b, m₂, v, rest, home₂, made₂, bound⟩ := hf a m₁ made₁ (current.trans home)
  exact ⟨b, m₂, v, (bind_ok first).trans rest, home₂, made₂, same ▸ bound⟩

theorem Binds.still {act : Run α} {f : α → Run β} (hx : act.Binds x) (hf : ∀ a, (f a).Still) :
    (act >>= f).Binds x := by
  intro m made home
  obtain ⟨a, m₁, v, first, home₁, made₁, bound⟩ := hx m made home
  obtain ⟨b, m₂, rest, current, made₂, same⟩ := hf a m₁ made₁
  exact ⟨b, m₂, v, (bind_ok first).trans rest, current.trans home₁, made₂, same.trans bound⟩

/-- Of two bindings of a name the later one counts. -/
theorem Binds.again {act : Run α} {f : α → Run β} (hx : act.Binds x) (hf : ∀ a, (f a).Binds x) :
    (act >>= f).Binds x := by
  intro m made home
  obtain ⟨a, m₁, v, first, home₁, made₁, bound⟩ := hx m made home
  obtain ⟨b, m₂, u, rest, home₂, made₂, again⟩ := hf a m₁ made₁ home₁
  refine ⟨b, m₂, u, (bind_ok first).trans rest, home₂, made₂, ?_⟩
  rw [again, bound, Bindings.set_set]

theorem Binds.declares {act : Run α} (h : act.Binds x) : act.Declares G x := by
  intro m ready home
  obtain ⟨a, m₁, v, result, home₁, made, bound⟩ := h m ready.made home
  constructor
  · intro a' m' result'
    rw [result] at result'
    cases result'
    exact ⟨home₁.trans home.symm, made, _, v, rfl, ready.values, bound⟩
  · intro fault m' result'
    rw [result] at result'
    cases result'

theorem Spares.declares {act : Run α} {f : α → Run β} (hx : act.Spares G False)
    (hf : ∀ a, (f a).Declares G x) : (act >>= f).Declares G x := by
  intro m ready home
  have first := hx m ready False.elim
  cases hm : act m with
  | error fault m₁ =>
    rw [after_error hm] at first
    rw [bind_error hm]
    constructor
    · intro a m' result
      cases result
    · intro fault' m' result
      cases result
      exact first
  | ok a m₁ =>
    rw [after_ok hm] at first
    obtain ⟨done, stopped⟩ := hf a m₁ first.toReady (first.current.trans home)
    rw [bind_ok hm]
    refine ⟨fun b m' result => ?_, fun fault m' result => first.trans (stopped fault m' result)⟩
    obtain ⟨current, made, g, v, names, values, bound⟩ := done b m' result
    exact ⟨current.trans first.current, made, g, v, names.trans first.names, values, bound⟩

theorem Declares.completed {act : Run α} (h : act.Declares G x) :
    (act >>= fun _ => pure Outcome.completed).Declares G x := by
  intro m ready home
  obtain ⟨done, stopped⟩ := h m ready home
  cases hm : act m with
  | ok a m₁ =>
    rw [bind_ok hm]
    constructor
    · intro b m' result
      cases result
      exact done a m₁ hm
    · intro fault m' result
      cases result
  | error fault m₁ =>
    rw [bind_error hm]
    constructor
    · intro b m' result
      cases result
    · intro fault' m' result
      cases result
      exact stopped fault m₁ hm

end Run

namespace Level

open Run

variable {G : Bindings Value → Prop} {T : Token → Prop} {x : String} {w : Watch} {limits : Limits} {n : Nat}

theorem declareFunction_binds (routine : Routine (Stmt Nat)) :
    (declareFunction routine).Binds routine.name.lexeme :=
  still_current.binds fun _ => (still_newFunction _).binds fun f =>
    (binds_define _ (.function f)).still fun _ => still_get.bind fun _ => still_record _

/-- The name of a class is bound before its methods are made, and then to the class. -/
theorem Sparing.declareClass {below : Level} (h : below.Sparing G T) (name : Token)
    (parent : Option (Reference Nat)) (methods : List (Routine (Stmt Nat))) :
    (below.declareClass name parent methods).Declares G name.lexeme := by
  refine ((uniform_spares G False).parentClass (fun _ => below) h.expr parent).declares fun parent => ?_
  refine Binds.declares ((binds_define name.lexeme .nil).again fun _ => ?_)
  exact (still_methodScope parent).binds fun scope => (still_makeMethods scope methods).binds fun made =>
    (still_newClass _).binds fun k => still_get.binds fun _ => (still_record _).binds fun _ =>
      binds_define _ (.klass k)

theorem Sparing.declares {below : Level} (h : below.Sparing G T) (rounds : Nat) {s : Stmt Nat}
    (hs : s.declared? = some x) : (below.execute rounds s).Declares G x := by
  cases s with
  | declare name initial =>
    cases hs
    exact ((uniform_spares G False).valueOf (fun _ => below) h.expr initial).declares fun v =>
      (binds_define name.lexeme v).declares.completed
  | function routine =>
    cases hs
    exact (declareFunction_binds routine).declares.completed
  | klass name parent methods =>
    cases hs
    exact (h.declareClass name parent methods).completed
  | _ => cases hs

/-- A declaration at the top of a program that runs behind a watch. -/
theorem declares_level (guards : w.Guards G limits) (hn : n ≤ limits.depth) {s : Stmt Nat}
    (hs : s.declared? = some x) : ((w.level limits.rounds n).stmt s).Declares G x := by
  cases n with
  | zero =>
    refine fun m ready _ => ⟨fun a m' result => ?_, fun fault m' result => ?_⟩
    · cases result
    · cases result
      exact .refl ready
  | succ n =>
    have below : (w.level limits.rounds n).Sparing G fun _ => True :=
      sparing_level guards (Nat.le_of_succ_le hn)
    exact below.declares limits.rounds hs

end Level

end Lox
