import Lox.Proofs.Restoration

/-! # What a run leaves in place

A run adds to a machine and writes to names and fields, and takes nothing away: routines and
classes stay what they are, an object stays one of its class, and a scope keeps its names and
the scope around it. -/

namespace Lox

/-- What there is in a machine is there in the later one. -/
structure Machine.Precedes (m m' : Machine) : Prop where
  functions : ∀ f c, m.functions.get? f = some c → m'.functions.get? f = some c
  classes : ∀ k c, m.classes.get? k = some c → m'.classes.get? k = some c
  /-- the fields of an object may be others, its class may not -/
  instances : ∀ i o, m.instances.get? i = some o → ∃ o', m'.instances.get? i = some o' ∧ o'.klass = o.klass
  scopes : ∀ r, (m.scopes.get? r).isSome → (m'.scopes.get? r).isSome
  enclosing : ∀ r, (m.scopes.get? r).isSome → m'.scopes.enclosing? r = m.scopes.enclosing? r
  /-- the value of a name may be another -/
  names : ∀ r x, (m.scopes.lookup? r x).isSome → (m'.scopes.lookup? r x).isSome

namespace Machine.Precedes

variable {m m' m'' : Machine}

theorem refl (m : Machine) : m.Precedes m where
  functions _ _ h := h
  classes _ _ h := h
  instances _ o h := ⟨o, h, rfl⟩
  scopes _ h := h
  enclosing _ _ := rfl
  names _ _ h := h

theorem trans (h : m.Precedes m') (k : m'.Precedes m'') : m.Precedes m'' where
  functions f c hf := k.functions f c (h.functions f c hf)
  classes r c hc := k.classes r c (h.classes r c hc)
  instances i o ho := by
    obtain ⟨o', ho', same⟩ := h.instances i o ho
    obtain ⟨o'', ho'', same'⟩ := k.instances i o' ho'
    exact ⟨o'', ho'', same'.trans same⟩
  scopes r hr := k.scopes r (h.scopes r hr)
  enclosing r hr := (k.enclosing r (h.scopes r hr)).trans (h.enclosing r hr)
  names r x hx := k.names r x (h.names r x hx)

/-- Only these parts of a machine matter. -/
theorem of_eq (functions : m'.functions = m.functions) (classes : m'.classes = m.classes)
    (instances : m'.instances = m.instances) (scopes : m'.scopes = m.scopes) : m.Precedes m' where
  functions _ _ h := functions ▸ h
  classes _ _ h := classes ▸ h
  instances _ o h := ⟨o, instances ▸ h, rfl⟩
  scopes _ h := scopes ▸ h
  enclosing _ _ := scopes ▸ rfl
  names _ _ h := scopes ▸ h

/-! ## Single steps -/

variable (m)

theorem newScope (bindings : Bindings Value) (outer : Option (Ref .scope)) :
    m.Precedes { m with scopes := m.scopes.add bindings outer } :=
  { refl m with
    scopes := fun _ h => Scopes.isSome_get?_add.mpr (.inl h)
    enclosing := fun r h => congrArg (·.bind Scope.enclosing) (Scopes.get?_add_of_isSome h)
    names := fun r x h => by
      obtain ⟨v, hv⟩ := Option.isSome_iff_exists.mp h
      rwa [Scopes.lookup?_add_of_isSome (Scopes.isSome_of_lookup? hv)] }

theorem newFunction (c : Closure) : m.Precedes { m with functions := m.functions.push c } :=
  { refl m with functions := fun _ _ => Heap.get?_push_of_some }

theorem newClass (k : Klass) : m.Precedes { m with classes := m.classes.push k } :=
  { refl m with classes := fun _ _ => Heap.get?_push_of_some }

theorem newInstance (o : Instance) : m.Precedes { m with instances := m.instances.push o } :=
  { refl m with instances := fun _ o h => ⟨o, Heap.get?_push_of_some h, rfl⟩ }

theorem write (scope : Ref .scope) (name : String) (v : Value) :
    m.Precedes { m with scopes := m.scopes.define scope name v } :=
  { refl m with
    scopes := fun _ h => Scopes.isSome_get?_define.trans h
    enclosing := fun _ _ => Scopes.enclosing?_define
    names := fun r x h => by
      obtain ⟨old, hv⟩ := Option.isSome_iff_exists.mp h
      by_cases e : r = scope
      · rw [← e, Scopes.lookup?_define (Scopes.isSome_of_lookup? hv)]
        split
        · rfl
        · exact h
      · rw [Scopes.lookup?, Scopes.define, Heap.get?_modify, if_neg e]
        exact h }

theorem setField (i : Ref .object) (name : String) (v : Value) :
    m.Precedes { m with instances := m.instances.modify i fun object =>
      { object with fields := object.fields.set name v } } :=
  { refl m with
    instances := fun j o ho => by
      rw [Heap.get?_modify]
      split
      · rename_i e
        rw [← e, ho]
        exact ⟨_, rfl, rfl⟩
      · exact ⟨o, ho, rfl⟩ }

end Machine.Precedes

namespace Run

variable {α β : Type}

/-- An action after which there is what there was, however it ends. -/
def Adds (act : Run α) : Prop := ∀ m : Machine, m.Precedes (act.after m)

theorem Adds.bind {x : Run α} {f : α → Run β} (hx : x.Adds) (hf : ∀ a, (f a).Adds) : (x >>= f).Adds := by
  intro m
  have first := hx m
  cases hm : x m with
  | error fault m' =>
    rw [after_error hm] at first
    rwa [after_error (bind_error hm)]
  | ok a m' =>
    rw [after_ok hm] at first
    rw [after_bind hm]
    exact first.trans (hf a m')

theorem adds_within {act : Run α} (scope : Ref .scope) (h : act.Adds) : (within scope act).Adds := by
  intro m
  rw [after_within]
  exact { h { m with current := scope } with }

theorem closed_adds : Closed fun α (act : Unit → Run α) => (act ()).Adds where
  result _ m := .refl m
  fault _ _ m := .refl m
  look m := .refl m
  bind := Adds.bind
  print _ _ := .of_eq rfl rfl rfl rfl
  record _ _ := .of_eq rfl rfl rfl rfl
  readClock _ := .of_eq rfl rfl rfl rfl
  newScope bindings outer m := .newScope m bindings outer
  newFunction c m := .newFunction m c
  newClass k m := .newClass m k
  newInstance o m := .newInstance m o
  setField i name v m := .setField m i name v
  write scope name v m := .write m scope name v
  define name v m := .write m m.current name v
  within scope _ := adds_within scope

end Run

namespace Level

/-- Whatever is run at a depth, what there was is there afterwards. -/
theorem adds_ofDepth (rounds n : Nat) :
    (∀ e, ((ofDepth rounds n).expr e).Adds) ∧ ∀ s, ((ofDepth rounds n).stmt s).Adds :=
  Run.closed_adds.ofDepth (ι := Unit) rounds n

end Level

end Lox
