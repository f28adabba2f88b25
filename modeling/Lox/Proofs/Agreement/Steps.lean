import Lox.Proofs.Agreement.Sim

/-! # The operations of the two sides

One statement for each operation that a run is made of. -/

namespace Lox.Agreement

open Lexical (Location Env Store)

variable {origin : Scopes} {p q r : Joint origin}

/-- A later pair where the scopes in force are as they were. -/
structure Stays (p q : Joint origin) : Prop extends Follows p q where
  env : q.state.env = p.state.env
  owned : ∀ x, (p.machine.current, x) ∈ q.home → (p.machine.current, x) ∈ p.home

namespace Stays

theorem refl (h : Sim p) : Stays p p := ⟨.refl h, rfl, fun _ hx => hx⟩

theorem trans (h : Stays p q) (k : Stays q r) : Stays p r where
  toFollows := h.toFollows.trans k.toFollows
  env := k.env.trans h.env
  owned x hx := h.owned x (h.grows.current ▸ k.owned x (h.grows.current ▸ hx))

end Stays

/-- An expression gives the same value on both sides, and nothing comes into scope. -/
def Gives (p : Joint origin) (v w : Value) (q : Joint origin) : Prop := v = w ∧ q.Valid v ∧ Stays p q

/-- The last part of an expression gives the value of the whole. -/
theorem Agree.gives {x : Run Value} {y : Lexical.Run Nat Value} (h : Agree q x y (Gives q)) (k : Stays p q) :
    Agree q x y (Gives p) :=
  h.mono fun _ _ _ _ ⟨same, valid, last⟩ => ⟨same, valid, k.trans last⟩

/-- What is new on both sides has to be looked at, and the rest lasts. -/
theorem Sim.follow (h : Sim p) (g : Grows p q)
    (locals : Locals q.home q.scopes q.store q.state.globals) (shared : Shared q.machine q.state)
    (values : ∀ r x v, q.scopes.lookup? r x = some v → p.scopes.lookup? r x = some v ∨ q.Valid v)
    (fields : ∀ i o x v, q.machine.instances.get? i = some o → o.fields.get? x = some v →
      (∃ o, p.machine.instances.get? i = some o ∧ o.fields.get? x = some v) ∨ q.Valid v)
    (methods : ∀ r k, q.machine.classes.get? r = some k → (∃ r, p.machine.classes.get? r = some k) ∨
      ∀ x f, k.methods.get? x = some f → q.FunctionIs f (q.IsMethod k x))
    (founded : q.machine.Founded) : Sim q where
  locals := locals
  shared := shared
  history := h.history.trans g.scopes
  here := by
    rw [g.current]
    exact g.scopes.isSome h.here
  values r x v hv := (values r x v hv).elim (fun hv => g.valid (h.values r x v hv)) id
  fields i o x v ho hv := (fields i o x v ho hv).elim
    (fun ⟨o, ho, hv⟩ => g.valid (h.fields i o x v ho hv)) id
  methods r k x f hk hf := (methods r k hk).elim
    (fun ⟨r, hk⟩ => g.functionIs (fun _ _ hm => g.isMethod hm) (h.methods r k x f hk hf))
    (fun hm => hm x f hf)
  founded := founded

/-! ## Making objects -/

/-- A pair that differs in what both sides keep alike. -/
def Joint.keeping (p : Joint origin) (m : Machine) (s : Lexical.State Nat) : Joint origin :=
  ⟨p.home, p.known, m, s⟩

theorem Sim.still {later : Scopes} {q : Joint later} (h : Sim p) (k : Keeps p q)
    (shared : Shared q.machine q.state) (history : later.Evolves p.scopes)
    (here : (p.scopes.get? q.machine.current).isSome) (home : q.home = p.home)
    (scopes : q.scopes = p.scopes) (instances : q.machine.instances = p.machine.instances)
    (classes : q.machine.classes = p.machine.classes) (store : q.store = p.store)
    (globals : q.state.globals = p.state.globals) : Sim q where
  locals := by
    rw [home, scopes, store, globals]
    exact h.locals
  shared := shared
  history := by
    rw [scopes]
    exact history
  here := by
    rw [scopes]
    exact here
  values r x v hv := by
    rw [scopes] at hv
    exact k.valid (h.values r x v hv)
  fields i o x v ho hv := by
    rw [instances] at ho
    exact k.valid (h.fields i o x v ho hv)
  methods r c x f hc hf := by
    rw [classes] at hc
    exact k.functionIs (fun _ _ hm => k.isMethod hm) (h.methods r c x f hc hf)
  founded := by
    obtain ⟨older, kinds⟩ := h.founded
    refine ⟨?_, ?_⟩
    · rwa [classes]
    · rwa [instances, classes]

theorem agree_print (h : Sim p) (text : String) :
    Agree p (Run.print text) (Lexical.Run.print text) (fun _ _ q => Stays p q) := by
  let m : Machine := { p.machine with output := p.machine.output ++ text ++ "\n" }
  let s : Lexical.State Nat := { p.state with output := p.state.output ++ text ++ "\n" }
  have g : Grows p (p.keeping m s) := { Grows.refl p with }
  have shared : Shared m s := { h.shared with output := congrArg (· ++ text ++ "\n") h.shared.output }
  have sim : Sim (p.keeping m s) := h.still g.toKeeps shared h.history h.here rfl rfl rfl rfl rfl rfl
  exact .of_ok (p.keeping m s) rfl rfl ⟨g, sim⟩ ⟨⟨g, sim⟩, rfl, fun _ hx => hx⟩

theorem agree_readClock (h : Sim p) :
    Agree p Run.readClock Lexical.Run.readClock (fun a b q => a = b ∧ Stays p q) := by
  let m : Machine := { p.machine with clock.taken := p.machine.clock.taken + 1 }
  let s : Lexical.State Nat := { p.state with clock.taken := p.state.clock.taken + 1 }
  have g : Grows p (p.keeping m s) := { Grows.refl p with }
  have shared : Shared m s := { h.shared with clock := congrArg (fun c : Clock => { c with taken := c.taken + 1 }) h.shared.clock }
  have sim : Sim (p.keeping m s) := h.still g.toKeeps shared h.history h.here rfl rfl rfl rfl rfl rfl
  refine .of_ok (p.keeping m s) rfl rfl ⟨g, sim⟩ ⟨?_, ⟨g, sim⟩, rfl, fun _ hx => hx⟩
  rw [h.shared.clock]

/-- What the machine notes down is seen by no program. -/
theorem agree_record (h : Sim p) (event : Event) :
    Agree p (Run.record event) (pure ()) (fun _ _ q => Stays p q) := by
  let m : Machine := { p.machine with events := p.machine.events.map (·.push event) }
  have g : Grows p (p.keeping m p.state) := { Grows.refl p with }
  have shared : Shared m p.state := { h.shared with }
  have sim : Sim (p.keeping m p.state) := h.still g.toKeeps shared h.history h.here rfl rfl rfl rfl rfl rfl
  exact .of_ok (p.keeping m p.state) rfl rfl ⟨g, sim⟩ ⟨⟨g, sim⟩, rfl, fun _ hx => hx⟩

theorem agree_newFunction (h : Sim p) (c : Closure) (env : Env) :
    Agree p (Run.newFunction c) (Lexical.Run.newFunction ⟨c.routine, env, c.isInitializer⟩)
      (fun f g q => f = g ∧ q.machine.functions.get? f = some c ∧
        q.state.functions.get? f = some ⟨c.routine, env, c.isInitializer⟩ ∧
        q.home = p.home ∧ q.scopes = p.scopes ∧ q.store = p.store ∧ Stays p q) := by
  let d : Lexical.Closure Nat := ⟨c.routine, env, c.isInitializer⟩
  let m : Machine := { p.machine with functions := p.machine.functions.push c }
  let s : Lexical.State Nat := { p.state with functions := p.state.functions.push d }
  have g : Grows p (p.keeping m s) := { Grows.refl p with
    functions := fun _ _ => Heap.get?_push_of_some
    closures := fun _ _ => Heap.get?_push_of_some }
  have shared : Shared m s := { h.shared with
    functions := by
      simp only [m, s, Heap.push, Array.map_push, h.shared.functions]
      rfl }
  have sim : Sim (p.keeping m s) := h.still g.toKeeps shared h.history h.here rfl rfl rfl rfl rfl rfl
  refine .of_ok (p.keeping m s) rfl rfl ⟨g, sim⟩ ⟨h.shared.next, ?_, ?_, rfl, rfl, rfl, ⟨g, sim⟩, rfl, fun _ hx => hx⟩
  · exact Heap.get?_push_next
  · rw [h.shared.next]
    exact Heap.get?_push_next

theorem agree_newClass (h : Sim p) (k : Klass)
    (hk : ∀ x f, k.methods.get? x = some f → p.FunctionIs f (p.IsMethod k x))
    (hp : ∀ parent, k.parent = some parent → (p.machine.classes.get? parent).isSome) :
    Agree p (Run.newClass k) (Lexical.Run.newClass k)
      (fun a b q => a = b ∧ (q.machine.classes.get? a).isSome ∧ Stays p q) := by
  let m : Machine := { p.machine with classes := p.machine.classes.push k }
  let s : Lexical.State Nat := { p.state with classes := p.state.classes.push k }
  have g : Grows p (p.keeping m s) := { Grows.refl p with classes := fun _ _ => Heap.get?_push_of_some }
  have shared : Shared m s := { h.shared with classes := congrArg (·.push k) h.shared.classes }
  have sim : Sim (p.keeping m s) := by
    refine h.follow g h.locals shared (fun _ _ _ hv => .inl hv)
      (fun _ o _ _ ho hv => .inl ⟨o, ho, hv⟩) (fun r c hc => ?_) (h.founded.newClass hp)
    have hc : (p.machine.classes.push k).get? r = some c := hc
    rw [Heap.get?_push] at hc
    split at hc
    · cases hc
      exact .inr fun x f hf => g.functionIs (fun _ _ hm => g.isMethod hm) (hk x f hf)
    · exact .inl ⟨r, hc⟩
  refine .of_ok (p.keeping m s) rfl rfl ⟨g, sim⟩ ⟨?_, ?_, ⟨g, sim⟩, rfl, fun _ hx => hx⟩
  · rw [h.shared.classes]
  · exact Option.isSome_iff_exists.mpr ⟨_, Heap.get?_push_next⟩

theorem agree_newInstance (h : Sim p) {k : Ref .klass} (hk : (p.machine.classes.get? k).isSome) :
    Agree p (Run.newInstance ⟨k, .empty⟩) (Lexical.Run.newInstance ⟨k, .empty⟩)
      (fun a b q => a = b ∧ (q.machine.instances.get? a).isSome ∧ Stays p q) := by
  let m : Machine := { p.machine with instances := p.machine.instances.push ⟨k, .empty⟩ }
  let s : Lexical.State Nat := { p.state with instances := p.state.instances.push ⟨k, .empty⟩ }
  have g : Grows p (p.keeping m s) := { Grows.refl p with
    instances := fun i hi => by
      obtain ⟨o, ho⟩ := Option.isSome_iff_exists.mp hi
      exact Option.isSome_iff_exists.mpr ⟨o, Heap.get?_push_of_some ho⟩ }
  have shared : Shared m s := { h.shared with
    instances := congrArg (·.push ⟨k, .empty⟩) h.shared.instances }
  have sim : Sim (p.keeping m s) := by
    refine h.follow g h.locals shared (fun _ _ _ hv => .inl hv) (fun i o x v ho hv => ?_)
      (fun r _ hk => .inl ⟨r, hk⟩) (h.founded.newInstance hk)
    have ho : (p.machine.instances.push ⟨k, .empty⟩).get? i = some o := ho
    rw [Heap.get?_push] at ho
    split at ho
    · cases ho
      cases hv
    · exact .inl ⟨o, ho, hv⟩
  refine .of_ok (p.keeping m s) rfl rfl ⟨g, sim⟩ ⟨?_, ?_, ⟨g, sim⟩, rfl, fun _ hx => hx⟩
  · rw [h.shared.instances]
  · exact Option.isSome_iff_exists.mpr ⟨_, Heap.get?_push_next⟩

theorem agree_setField (h : Sim p) (i : Ref .object) (x : String) {v : Value} (hv : p.Valid v) :
    Agree p (Run.setField i x v) (Lexical.Run.setField i x v) (fun _ _ q => Stays p q) := by
  let put (o : Instance) : Instance := { o with fields := o.fields.set x v }
  let m : Machine := { p.machine with instances := p.machine.instances.modify i put }
  let s : Lexical.State Nat := { p.state with instances := p.state.instances.modify i put }
  have g : Grows p (p.keeping m s) := { Grows.refl p with
    instances := fun j hj => by
      change ((p.machine.instances.modify i put).get? j).isSome
      rw [Heap.get?_modify]
      split
      · rename_i e
        rw [Option.isSome_map, ← e]
        exact hj
      · exact hj }
  have shared : Shared m s := { h.shared with
    instances := congrArg (·.modify i put) h.shared.instances }
  have sim : Sim (p.keeping m s) := by
    refine h.follow g h.locals shared (fun _ _ _ hv => .inl hv) (fun j o y w ho hw => ?_)
      (fun r _ hk => .inl ⟨r, hk⟩) (h.founded.setField i x v)
    have ho : (p.machine.instances.modify i put).get? j = some o := ho
    rw [Heap.get?_modify] at ho
    split at ho
    · rename_i e
      obtain ⟨o', ho', rfl⟩ := Option.map_eq_some_iff.mp ho
      have hw : (o'.fields.set x v).get? y = some w := hw
      rw [Bindings.get?_set] at hw
      split at hw
      · cases hw
        exact .inr (g.valid hv)
      · exact .inl ⟨o', e ▸ ho', hw⟩
    · exact .inl ⟨o, ho, hw⟩
  exact .of_ok (p.keeping m s) rfl rfl ⟨g, sim⟩ ⟨⟨g, sim⟩, rfl, fun _ hx => hx⟩

end Lox.Agreement
