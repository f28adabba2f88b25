import Lox.Proofs.Visiting
import Lox.Proofs.Restoration

/-! # Runs spare the global names

The global names are those of the outermost scope. Code runs in other scopes than that
one, but for the statements of a program itself, and an address never leads to it. So a
run writes to a global name only where it gives a value to a name that has no address,
and such a name has to be there already. -/

namespace Lox

/-- The global names and their values. -/
def Machine.globalBindings (m : Machine) : Bindings Value := m.scopes.bindings Machine.globals

/-- A target that has an address is found in a scope that is not the outermost one. The
value that is assigned is evaluated before. -/
def Expr.WritesLocal (m : Machine) : Expr Nat → Prop
  | .assign target value => ∀ rounds n v after, (Level.ofDepth rounds n).expr value m = .ok v after →
    ∀ d, after.table.hops? target.mark = some d →
      ∃ scope, after.scopes.scopeAt d after.current = .ok scope ∧ scope ≠ Machine.globals
  | .literal _ | .grouping _ | .unary _ _ | .binary _ _ _ | .logical _ _ _ | .name _ | .call _ _ _
  | .get _ _ | .set _ _ _ | .this _ | .super _ _ => True

theorem Bindings.set_set {α : Type} (b : Bindings α) (x : String) (a c : α) :
    (b.set x a).set x c = b.set x c := by
  obtain ⟨pairs⟩ := b
  refine congrArg Bindings.mk ?_
  change setIn x c (setIn x a pairs) = setIn x c pairs
  induction pairs with
  | nil => simp [setIn]
  | cons p rest ih =>
    by_cases h : x == p.1
    · simp [setIn, h]
    · simp [setIn, h, ih]

theorem Bindings.names_set_of_mem {α : Type} {b : Bindings α} {x : String} (h : x ∈ b.names) (a : α) :
    (b.set x a).names = b.names := by
  rw [names_set, if_pos (List.contains_iff_mem.mpr h)]

namespace Scopes

variable {s : Scopes} {r other : Ref .scope} {x : String} {v : Value}

theorem bindings_add {bindings : Bindings Value} {outer : Option (Ref .scope)}
    (h : (s.get? r).isSome) : (s.add bindings outer).bindings r = s.bindings r := by
  rw [Scopes.bindings, Scopes.bindings, get?_add_of_isSome h]

theorem bindings_define (h : (s.get? r).isSome) :
    (s.define r x v).bindings r = (s.bindings r).set x v := by
  obtain ⟨scope, hr⟩ := Option.isSome_iff_exists.mp h
  rw [Scopes.bindings, Scopes.bindings, define, Heap.get?_modify, if_pos rfl, hr]
  rfl

theorem bindings_define_of_ne (h : other ≠ r) : (s.define other x v).bindings r = s.bindings r := by
  rw [Scopes.bindings, Scopes.bindings, define, Heap.get?_modify, if_neg (Ne.symm h)]

theorem isSome_lookup?_iff : (s.lookup? r x).isSome ↔ x ∈ (s.bindings r).names := by
  rw [Bindings.mem_names, ← Option.isSome_iff_exists, lookup?, Scopes.bindings]
  cases s.get? r <;> rfl

theorem next_ne (h : (s.get? r).isSome) : s.next ≠ r := by
  rintro rfl
  rw [get?_next] at h
  cases h

end Scopes

/-- A machine that has the outermost scope, with values that a condition allows. -/
structure Machine.Ready (G : Bindings Value → Prop) (m : Machine) : Prop where
  made : (m.scopes.get? Machine.globals).isSome
  values : G m.globalBindings

/-- What is left of an earlier machine: its scope and the names of its globals. -/
structure Machine.Spared (G : Bindings Value → Prop) (m m' : Machine) : Prop extends m'.Ready G where
  current : m'.current = m.current
  names : m'.globalBindings.names = m.globalBindings.names

namespace Machine.Spared

variable {G : Bindings Value → Prop} {m m' m'' : Machine}

theorem refl (h : m.Ready G) : m.Spared G m := { h with current := rfl, names := rfl }

theorem trans (h : m.Spared G m') (k : m'.Spared G m'') : m.Spared G m'' :=
  { k with current := k.current.trans h.current, names := k.names.trans h.names }

end Machine.Spared

namespace Run

variable {G : Bindings Value → Prop} {inside : Prop} {α β : Type} {m m' : Machine} {x : String}

/-- An action that spares the global names and gives them values that the condition allows.
It may be one for code that stands inside another scope. -/
def Spares (G : Bindings Value → Prop) (inside : Prop) (act : Run α) : Prop :=
  ∀ m : Machine, m.Ready G → (inside → m.current ≠ Machine.globals) → m.Spared G (act.after m)

/-- An action that changes neither the outermost scope nor the current one. -/
theorem spares_still {act : Run α} (h : ∀ m, (act.after m).current = m.current)
    (hs : ∀ m, (act.after m).scopes = m.scopes) : act.Spares G inside := by
  intro m ready _
  have same : (act.after m).globalBindings = m.globalBindings := congrArg (Scopes.bindings · _) (hs m)
  exact ⟨⟨hs m ▸ ready.made, same ▸ ready.values⟩, h m, congrArg _ same⟩

theorem Spares.bind {act : Run α} {f : α → Run β} (hx : act.Spares G inside)
    (hf : ∀ a, (f a).Spares G inside) : (act >>= f).Spares G inside := by
  intro m ready hc
  have first := hx m ready hc
  cases hm : act m with
  | error fault m' =>
    rw [after_error hm] at first
    rwa [after_error (bind_error hm)]
  | ok a m' =>
    rw [after_ok hm] at first
    have rest := hf a m' first.toReady fun h => first.current ▸ hc h
    rw [after_bind hm]
    exact first.trans rest

theorem Spares.weaken {act : Run α} (h : act.Spares G False) : act.Spares G inside :=
  fun m ready _ => h m ready False.elim

theorem spares_newScope (bindings : Bindings Value) (outer : Ref .scope) :
    (Run.newScope bindings outer).Spares G inside := by
  intro m ready _
  have same : (m.scopes.add bindings (some outer)).bindings Machine.globals = m.globalBindings :=
    Scopes.bindings_add ready.made
  have kept : (m.scopes.add bindings (some outer)).get? Machine.globals = m.scopes.get? Machine.globals :=
    Scopes.get?_add_of_isSome ready.made
  refine ⟨⟨?_, ?_⟩, rfl, congrArg Bindings.names same⟩
  · exact (congrArg Option.isSome kept).trans ready.made
  · exact (congrArg G same).mpr ready.values

theorem uniform_spares (G : Bindings Value → Prop) (inside : Prop) :
    Uniform fun α (act : Unit → Run α) => (act ()).Spares G inside where
  result _ := spares_still (fun _ => rfl) fun _ => rfl
  fault _ _ := spares_still (fun _ => rfl) fun _ => rfl
  look := spares_still (fun _ => rfl) fun _ => rfl
  bind := Spares.bind
  print _ := spares_still (fun _ => rfl) fun _ => rfl
  record _ := spares_still (fun _ => rfl) fun _ => rfl
  readClock := spares_still (fun _ => rfl) fun _ => rfl
  newScope := spares_newScope
  newFunction _ := spares_still (fun _ => rfl) fun _ => rfl
  newClass _ := spares_still (fun _ => rfl) fun _ => rfl
  newInstance _ := spares_still (fun _ => rfl) fun _ => rfl
  setField _ _ _ := spares_still (fun _ => rfl) fun _ => rfl

/-- A name of another scope is given a value. -/
theorem spared_define {scope : Ref .scope} (h : m.Ready G) (hs : scope ≠ Machine.globals) (x : String)
    (v : Value) : m.Spared G { m with scopes := m.scopes.define scope x v } := by
  have same := Scopes.bindings_define_of_ne (s := m.scopes) (x := x) (v := v) hs
  exact ⟨⟨Scopes.isSome_get?_define.trans h.made, (congrArg G same).mpr h.values⟩, rfl,
    congrArg Bindings.names same⟩

/-- A global name that there is gets another value. -/
theorem spared_rebind {x : String} {v : Value} (h : m.Ready G) (hx : x ∈ m.globalBindings.names)
    (values : G (m.globalBindings.set x v)) :
    m.Spared G { m with scopes := m.scopes.define Machine.globals x v } := by
  have same := Scopes.bindings_define (x := x) (v := v) h.made
  refine ⟨⟨Scopes.isSome_get?_define.trans h.made, (congrArg G same).mpr values⟩, rfl, ?_⟩
  exact (congrArg Bindings.names same).trans (Bindings.names_set_of_mem hx v)

/-- In a scope inside another one names can be given. -/
theorem spares_define (x : String) (v : Value) : (Run.define x v).Spares G True :=
  fun _ ready hc => spared_define ready (hc trivial) x v

/-- Whatever is done in another scope, the way back leads to the present one. -/
theorem spares_within {scope : Ref .scope} (hs : scope ≠ Machine.globals) {act : Run α}
    (h : act.Spares G True) : (within scope act).Spares G inside := by
  intro m ready _
  have inner := h { m with current := scope } ⟨ready.made, ready.values⟩ fun _ => hs
  rw [after_within]
  exact ⟨⟨inner.made, inner.values⟩, rfl, inner.names⟩

/-- A scope that has just been made is not the outermost one. -/
theorem spares_opening {bindings : Bindings Value} {outer : Ref .scope} {f : Ref .scope → Run β}
    (h : ∀ scope, scope ≠ Machine.globals → (f scope).Spares G inside) :
    (Run.newScope bindings outer >>= f).Spares G inside := by
  intro m ready hc
  have opened := spares_newScope bindings outer m ready hc
  have rest := h m.scopes.next (Scopes.next_ne ready.made)
    { m with scopes := m.scopes.add bindings (some outer) } opened.toReady hc
  exact opened.trans rest

/-! ## Assignments -/

variable {target : Reference Nat} {v : Value}

theorem get_bind (f : Machine → Run α) (m : Machine) : (get >>= f) m = f m m := rfl

theorem store_local {d : Nat} {scope : Ref .scope} (hd : m.table.hops? target.mark = some d)
    (hs : m.scopes.scopeAt d m.current = .ok scope) :
    Run.store target v m = .ok () { m with scopes := m.scopes.define scope target.name.lexeme v } := by
  rw [Run.store, get_bind, hd]
  dsimp only
  rw [hs]
  rfl

theorem store_global (hd : m.table.hops? target.mark = none)
    (hx : target.name.lexeme ∈ m.globalBindings.names) :
    Run.store target v m =
      .ok () { m with scopes := m.scopes.define Machine.globals target.name.lexeme v } := by
  rw [Run.store, get_bind, hd]
  dsimp only
  rw [if_pos (Scopes.isSome_lookup?_iff.mpr hx)]
  rfl

theorem store_unknown (hd : m.table.hops? target.mark = none)
    (hx : target.name.lexeme ∉ m.globalBindings.names) :
    Run.store target v m = .error (.runtime ⟨target.name, .undefinedVariable⟩) m := by
  rw [Run.store, get_bind, hd]
  dsimp only
  rw [if_neg (mt Scopes.isSome_lookup?_iff.mp hx)]
  rfl

end Run

/-- A watch that lets through only what writes to no other scope than it may, and to global
names only as the condition allows. -/
structure Watch.Guards (w : Watch) (G : Bindings Value → Prop) (limits : Limits) : Prop where
  writesLocal {e : Expr Nat} {m : Machine} (h : ¬ w.stops (.evaluate e) m) : e.WritesLocal m
  assigned {target : Reference Nat} {value : Expr Nat} {m m' : Machine} {n : Nat} {v : Value}
    (h : ¬ w.stops (.evaluate (.assign target value)) m) (hn : n < limits.depth)
    (given : (Level.ofDepth limits.rounds n).expr value m = .ok v m')
    (free : m'.table.hops? target.mark = none) (bound : target.name.lexeme ∈ m'.globalBindings.names)
    (values : G m'.globalBindings) : G (m'.globalBindings.set target.name.lexeme v)

/-- A level that spares the global names. Parsed statements that declare nothing spare them
also where the outermost scope is the current one. -/
structure Level.Sparing (G : Bindings Value → Prop) (T : Token → Prop) (level : Level) : Prop where
  expr (e : Expr Nat) : (level.expr e).Spares G False
  stmt (s : Stmt Nat) : (level.stmt s).Spares G True
  plain {s : Stmt Nat} (formed : s.WellFormed T) (h : s.declared? = none) : (level.stmt s).Spares G False

namespace Level

open Run

variable {G : Bindings Value → Prop} {T : Token → Prop} {w : Watch} {limits : Limits} {n : Nat}
  {inside : Prop}

theorem Sparing.enter {below : Level} (h : below.Sparing G T) (f : Closure) (arguments : List Value) :
    (below.enter f arguments).Spares G inside := by
  have uniform := uniform_spares G inside
  have row := (uniform_spares G True).executeAll (fun _ => below) h.stmt f.routine.body
  refine spares_opening fun scope hs => (spares_within hs row).bind fun outcome => ?_
  cases f.isInitializer with
  | true =>
    have look : Spares G inside (get : Run Machine) := uniform.look
    exact look.bind fun m => uniform.ofScope _
  | false =>
    cases outcome with
    | completed => exact uniform.result _
    | returned v => exact uniform.result _

theorem Sparing.block {below : Level} (h : below.Sparing G T) (rounds : Nat) (body : List (Stmt Nat)) :
    (below.execute rounds (.block body)).Spares G inside := by
  have row := (uniform_spares G True).executeAll (fun _ => below) h.stmt body
  exact Spares.bind (uniform_spares G inside).current fun outer =>
    spares_opening fun scope hs => spares_within hs row

/-- An assignment writes to a local variable, or to a global name that there is. -/
theorem assign_spared (guards : w.Guards G limits) (hn : n < limits.depth)
    (h : (w.level limits.rounds n).Sparing G T) {target : Reference Nat} {value : Expr Nat} {m : Machine}
    (ready : m.Ready G) (hw : ¬ w.stops (.evaluate (.assign target value)) m)
    (enter : Closure → List Value → Run Value) :
    m.Spared G (((w.level limits.rounds n).evaluateBy enter (.assign target value)).after m) := by
  have first := h.expr value m ready False.elim
  cases given : (w.level limits.rounds n).expr value m with
  | error fault m' =>
    rw [after_error given] at first
    rwa [evaluateBy, after_error (bind_error given)]
  | ok v m' =>
    rw [after_ok given] at first
    have plain := Watch.expr_of_ok given
    have rest : m'.Spared G ((Run.store target v >>= fun _ => pure v).after m') := by
      cases hd : m'.table.hops? target.mark with
      | some d =>
        obtain ⟨scope, hs, other⟩ := guards.writesLocal hw limits.rounds n v m' plain d hd
        rw [after, bind_ok (store_local hd hs)]
        exact spared_define first.toReady other _ v
      | none =>
        by_cases bound : target.name.lexeme ∈ m'.globalBindings.names
        · rw [after, bind_ok (store_global hd bound)]
          exact spared_rebind first.toReady bound (guards.assigned hw hn plain hd bound first.values)
        · rw [after_error (bind_error (store_unknown hd bound))]
          exact .refl first.toReady
    rw [evaluateBy, after_bind given]
    exact first.trans rest

theorem Sparing.execute {below : Level} (h : below.Sparing G T) (rounds : Nat) (s : Stmt Nat) :
    (below.execute rounds s).Spares G True := by
  have expr : ∀ e, (below.expr e).Spares G True := fun e => (h.expr e).weaken
  refine (uniform_spares G True).execute (fun _ => below) expr rounds s (fun t _ => h.stmt t)
    (fun _ => spares_define) ?_
  rintro body rfl
  exact h.block rounds body

/-- A statement that declares nothing has no arm that does. -/
theorem Sparing.execute_plain {below : Level} (h : below.Sparing G T) (rounds : Nat) {s : Stmt Nat}
    (formed : s.WellFormed T) (plain : s.declared? = none) : (below.execute rounds s).Spares G False := by
  refine (uniform_spares G False).execute (fun _ => below) h.expr rounds s
    (fun t ht => h.plain (formed.arm ht).1 (formed.arm ht).2) (fun declares => ?_) ?_
  · rw [plain] at declares
    cases declares
  · rintro body rfl
    exact h.block rounds body

/-- Behind a watch, code of any depth leaves the names of the globals as they are. -/
theorem sparing_level (guards : w.Guards G limits) (hn : n ≤ limits.depth) :
    (w.level limits.rounds n).Sparing G T := by
  induction n with
  | zero =>
    have stops (inside : Prop) (α : Type) : (throw .tooDeep : Run α).Spares G inside :=
      (uniform_spares G inside).fault α .tooDeep
    exact ⟨fun _ => stops False _, fun _ => stops True _, fun _ _ => stops False _⟩
  | succ n ih =>
    have below := ih (Nat.le_of_succ_le hn)
    refine ⟨fun e m ready hc => ?_, below.execute limits.rounds, below.execute_plain limits.rounds⟩
    by_cases hw : w.stops (.evaluate e) m
    · rw [after_error (Watch.level_expr_stopped hw)]
      exact .refl ready
    · rw [after, Watch.level_expr_passed hw]
      by_cases assigns : ∃ target value, e = .assign target value
      · obtain ⟨target, value, rfl⟩ := assigns
        exact assign_spared guards hn below ready hw _
      · have others : ∀ target value, e ≠ .assign target value :=
          fun target value same => assigns ⟨target, value, same⟩
        have uniform := uniform_spares G False
        have enter (c : Closure) (arguments : List Value) :
            (w.entering (w.level limits.rounds n) c arguments).Spares G False :=
          (uniform_spares G False).before w _ (x := fun _ => (w.level limits.rounds n).enter c arguments)
            (below.enter c arguments)
        exact uniform.evaluateBy (fun _ => w.level limits.rounds n) below.expr
          (fun _ => w.entering (w.level limits.rounds n)) enter e
          (fun target value same => absurd same (others target value)) m ready hc

end Level

end Lox
