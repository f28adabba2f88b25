import Lox.Proofs.Agreement.Variables

/-! # Names and scopes that are new

A declaration brings its name into the innermost scope before its value is known. A
block, a call, a bound method and the methods of a class get a scope of their own. -/

namespace Lox.Agreement

open Lexical (Location Env Store)

variable {origin : Scopes} {p q : Joint origin} {env : Env} {pending : Option String} {x y : String} {v : Value}
  {l : Location} {r s : Ref .scope}

/-! ## A name that has no value yet -/

structure Introduced (p : Joint origin) (x : String) (q : Joint origin) : Prop extends Follows p q where
  machine : q.machine = p.machine
  names : q.state.env.names = p.state.env.names.declare x
  inside : ∀ frame ∈ q.state.env.head?, ∃ l, frame.get? x = some l
  others : ∀ y, y ≠ x → q.state.env.find? y = p.state.env.find? y
  standing : q.Standing (some x)

theorem Introduced.of_outermost (h : Sim p) (hs : p.Standing none) (he : p.state.env = []) :
    Introduced p x p where
  toFollows := .refl h
  machine := rfl
  names := by rw [he]; rfl
  inside := by rw [he]; nofun
  others _ _ := rfl
  standing := { hs with settled := by rw [he]; trivial }

/-- The pair in which a name is new in the innermost scope. -/
def Joint.introducing (p : Joint origin) (x : String) (frame : Bindings Location) (outer : Env) : Joint origin :=
  ⟨p.home ++ [(p.machine.current, x)], p.known, p.machine,
    { p.state with store := p.store.push none, env := frame.set x p.store.next :: outer }⟩

section Introducing

variable {frame : Bindings Location} {outer : Env}

theorem Joint.Standing.not_mem_home (hs : p.Standing pending) (he : p.state.env = frame :: outer)
    (hn : x ∉ frame.names) : (p.machine.current, x) ∉ p.home := by
  intro hm
  obtain ⟨names, hh, hx⟩ := hs.owned x hm
  rw [he] at hh
  cases hh
  exact hn hx

theorem Grows.introducing (p : Joint origin) (x : String) (frame : Bindings Location) (outer : Env) :
    Grows p (p.introducing x frame outer) :=
  { Grows.refl p with
    home := List.prefix_append _ _
    fresh := fun r y hy _ hc => by
      rcases List.mem_append.mp hy with hy | hy
      · exact hy
      · cases List.mem_singleton.mp hy
        exact absurd rfl hc
    settled := fun k hk => by
      change ((p.store.push none).get? k).isSome
      rw [Store.get?_push]
      split
      · rename_i e
        subst e
        simp [Store.get?, Store.next] at hk
      · exact hk }

theorem Sim.introducing (h : Sim p) {around : Ref .scope}
    (ha : p.scopes.enclosing? p.machine.current = some around) (new : (p.machine.current, x) ∉ p.home) :
    Sim (p.introducing x frame outer) :=
  h.follow (.introducing p x frame outer) (h.locals.introduce (h.locals.notGlobal ha) h.here new)
    { h.shared with } (fun _ _ _ hv => .inl hv) (fun _ o _ _ ho hv => .inl ⟨o, ho, hv⟩)
    (fun r _ hk => .inl ⟨r, hk⟩) { h.founded with }

/-- The new name is pending in the scope that it has come into. -/
theorem Joint.Standing.introducing (h : Sim p) (hs : p.Standing none) (he : p.state.env = frame :: outer)
    (hx : Ordinary x) : (p.introducing x frame outer).Standing (some x) := by
  have g : Grows p (p.introducing x frame outer) := .introducing p x frame outer
  have last : (p.home ++ [(p.machine.current, x)])[p.store.next.index]? = some (p.machine.current, x) := by
    simp [Store.next, h.locals.size]
  obtain ⟨chain, settled, owned, plain⟩ := hs
  rw [he] at chain settled owned plain
  obtain ⟨hf, around, ha, ho⟩ := chain
  constructor
  case chain =>
    refine ⟨fun y k hk => ?_, around, ha, g.chain ho⟩
    rw [Bindings.get?_set] at hk
    split at hk
    · rename_i e
      cases hk
      rw [e]
      exact last
    · exact g.homeAt (hf y k hk)
  case settled =>
    refine ⟨fun y k hk hp => ?_, g.settledIn settled.2⟩
    rw [Bindings.get?_set, if_neg (fun (e : y = x) => hp (e ▸ rfl))] at hk
    exact g.settled k (settled.1 y k hk (by simp))
  case owned =>
    intro y hy
    refine ⟨_, rfl, Bindings.mem_names_set.mpr ?_⟩
    rcases List.mem_append.mp hy with hy | hy
    · obtain ⟨names, hh, hy⟩ := owned y hy
      cases hh
      exact .inl hy
    · cases List.mem_singleton.mp hy
      exact .inr rfl
  case plain =>
    intro names hh y hy
    cases hh
    rcases Bindings.mem_names_set.mp hy with hy | rfl
    · exact plain _ rfl y hy
    · exact hx

theorem introducing_spec (h : Sim p) (hs : p.Standing none) (he : p.state.env = frame :: outer)
    (hn : x ∉ frame.names) (hx : Ordinary x) : Introduced p x (p.introducing x frame outer) := by
  have chain := hs.chain
  rw [he] at chain
  obtain ⟨-, around, ha, -⟩ := chain
  refine ⟨⟨.introducing p x frame outer, h.introducing ha (hs.not_mem_home he hn)⟩, rfl, ?_, ?_, ?_,
    hs.introducing h he hx⟩
  · rw [he]
    exact congrArg (· :: outer.names)
      ((Bindings.names_set frame x p.store.next).trans (by simp [List.contains_eq_mem]))
  · intro f hf
    cases hf
    exact ⟨p.store.next, by rw [Bindings.get?_set, if_pos rfl]⟩
  · intro y hy
    rw [he]
    change Env.find? (frame.set x p.store.next :: outer) y = _
    rw [Env.find?_cons, Env.find?_cons, Bindings.get?_set, if_neg hy]

end Introducing

theorem introduce_outermost {s : Lexical.State Nat} (he : s.env = []) :
    Lexical.Run.introduce x s = .ok () s := by
  obtain ⟨globals, store, functions, classes, instances, env, clock, output⟩ := s
  cases he
  rfl

theorem introduce_inner {s : Lexical.State Nat} {frame : Bindings Location} {outer : Env}
    (he : s.env = frame :: outer) : Lexical.Run.introduce x s =
      .ok () { s with store := s.store.push none, env := frame.set x s.store.next :: outer } := by
  obtain ⟨globals, store, functions, classes, instances, env, clock, output⟩ := s
  cases he
  rfl

/-- Only the reference state takes note of a name that has no value yet. -/
theorem agree_introduce {α β : Type} {act : Run α} {g : Unit → Lexical.Run Nat β}
    {Q : α → β → Joint origin → Prop} (h : Sim p) (hs : p.Standing none)
    (hn : p.state.env.names.Fresh x) (hx : Ordinary x)
    (k : ∀ q, Introduced p x q → Agree q act (g ()) Q) :
    Agree p act (Lexical.Run.introduce x >>= g) Q := by
  have silent : Agree p (pure () : Run Unit) (Lexical.Run.introduce x)
      (fun _ _ q => Introduced p x q) := by
    cases he : p.state.env with
    | nil =>
      exact .of_ok p rfl (introduce_outermost he) (.refl h) (.of_outermost h hs he)
    | cons frame outer =>
      have note := introducing_spec h hs he (hn frame.names (by rw [he]; rfl)) hx
      exact .of_ok (p.introducing x frame outer) rfl (introduce_inner he) note.toFollows note
  exact silent.bind (f := fun _ => act) fun _ _ q _ hq => k q hq

/-! ## A scope with its first values -/

/-- A new scope of the machine and a new map of the reference state with the same
names. -/
structure Filled (home : List (Ref .scope × String)) (scopes : Scopes) (outer : Ref .scope)
    (globals : Bindings Value) (b : Bindings Value) (frame : Bindings Location) (store : Store) :
    Prop where
  locals : Locals home (scopes.add b (some outer)) store globals
  names : frame.names = b.names
  places : ∀ x l, frame.get? x = some l → home[l.index]? = some (scopes.next, x)
  owned : ∀ x, (scopes.next, x) ∈ home → x ∈ frame.names

/-- The map with a location for each value, and the store that has these. -/
def fill (pairs : List (String × Value)) (frame : Bindings Location) (store : Store) :
    Bindings Location × Store :=
  pairs.foldl (fun out e => (out.1.set e.1 out.2.next, out.2.push (some e.2))) (frame, store)

theorem newScope_eq (pairs : List (String × Value)) (s : Lexical.State Nat) :
    Lexical.Run.newScope pairs s =
      .ok (fill pairs .empty s.store).1 { s with store := (fill pairs .empty s.store).2 } := by
  suffices h : ∀ (frame : Bindings Location) (s : Lexical.State Nat),
      (pairs.foldlM (fun scope e => do
        let l ← Lexical.Run.allocate (some e.2)
        pure (scope.set e.1 l)) frame : Lexical.Run Nat (Bindings Location)) s =
      .ok (fill pairs frame s.store).1 { s with store := (fill pairs frame s.store).2 } from h .empty s
  induction pairs with
  | nil => intro frame s; rfl
  | cons e rest ih =>
    intro frame s
    rw [List.foldlM_cons]
    exact ih (frame.set e.1 s.store.next) { s with store := s.store.push (some e.2) }

section Fill

variable {home : List (Ref .scope × String)} {scopes : Scopes} {outer : Ref .scope}
  {globals : Bindings Value} {b : Bindings Value} {frame : Bindings Location} {store : Store}
  {pairs : List (String × Value)}

theorem Filled.extend (h : Filled home scopes outer globals b frame store)
    (hg : scopes.next ≠ Machine.globals) (hx : x ∉ b.names) (hv : Suits x v) :
    Filled (home ++ [(scopes.next, x)]) scopes outer globals (b.set x v) (frame.set x store.next)
      (store.push (some v)) := by
  have hf : x ∉ frame.names := by rw [h.names]; exact hx
  refine ⟨h.locals.extend hg (fun hm => hf (h.owned x hm)) hv, ?_, ?_, ?_⟩
  · rw [Bindings.names_set_of_new hx, Bindings.names_set_of_new hf, h.names]
  · intro y k hk
    rw [Bindings.get?_set] at hk
    split at hk
    · rename_i e
      cases hk
      simp [Store.next, h.locals.size, e]
    · have hh := h.places y k hk
      rw [List.getElem?_append_left (List.getElem?_eq_some_iff.mp hh).1]
      exact hh
  · intro y hy
    rw [Bindings.mem_names_set]
    rcases List.mem_append.mp hy with hy | hy
    · exact .inl (h.owned y hy)
    · cases List.mem_singleton.mp hy
      exact .inr rfl

theorem Filled.fill (h : Filled home scopes outer globals b frame store)
    (hg : scopes.next ≠ Machine.globals) (hn : (b.names ++ pairs.map (·.1)).Nodup)
    (hv : ∀ e ∈ pairs, Suits e.1 e.2) :
    Filled (home ++ pairs.map fun e => (scopes.next, e.1)) scopes outer globals
      (pairs.foldl (fun b e => b.set e.1 e.2) b) (Agreement.fill pairs frame store).1
      (Agreement.fill pairs frame store).2 := by
  induction pairs generalizing home b frame store with
  | nil => simpa [Agreement.fill] using h
  | cons e rest ih =>
    have hx : e.1 ∉ b.names := fun hm =>
      (List.nodup_append.mp hn).2.2 e.1 hm e.1 (by simp) rfl
    have next := h.extend hg hx (hv e List.mem_cons_self)
    rw [List.map_cons, List.append_cons]
    rw [List.map_cons, List.append_cons, ← Bindings.names_set_of_new (a := e.2) hx] at hn
    exact ih next hn fun e he => hv e (List.mem_cons_of_mem _ he)

theorem isSome_fill {k : Location} (h : (store.get? k).isSome) :
    ((fill pairs frame store).2.get? k).isSome := by
  induction pairs generalizing frame store with
  | nil => exact h
  | cons e rest ih =>
    have kept : ((store.push (some e.2)).get? k).isSome := by
      rw [Store.get?_push]
      split
      · rfl
      · exact h
    exact ih kept

end Fill

/-- A scope that has just been made inside another one. -/
structure Opened (p : Joint origin) (pairs : List (String × Value)) (outer r : Ref .scope)
    (frame : Bindings Location) (q : Joint origin) : Prop extends Stays p q where
  fresh : p.scopes.get? r = none
  around : q.scopes.enclosing? r = some outer
  names : frame.names = pairs.map (·.1)
  places : ∀ x l, frame.get? x = some l → q.home[l.index]? = some (r, x)
  filled : ∀ x l, frame.get? x = some l → (q.store.get? l).isSome
  holds : ∀ x v, (x, v) ∈ pairs → q.scopes.lookup? r x = some v
  own : ∀ x, (r, x) ∈ q.home → x ∈ frame.names

/-- The pair in which there is a new scope with the given values. -/
def Joint.opening (p : Joint origin) (pairs : List (String × Value)) (outer : Ref .scope) : Joint origin :=
  ⟨p.home ++ pairs.map fun e => (p.scopes.next, e.1), p.known,
    { p.machine with scopes := p.machine.scopes.add (.ofList pairs) (some outer) },
    { p.state with store := (fill pairs .empty p.store).2 }⟩

section Opening

variable {pairs : List (String × Value)} {outer : Ref .scope}

theorem ne_next {scopes : Scopes} (hr : (scopes.get? r).isSome) : r ≠ scopes.next := by
  rintro rfl
  rw [Scopes.get?_next] at hr
  cases hr

theorem Sim.filled (h : Sim p) (outer : Ref .scope) (hn : (pairs.map (·.1)).Nodup)
    (hv : ∀ e ∈ pairs, Suits e.1 e.2) :
    Filled (p.opening pairs outer).home p.scopes outer p.state.globals (.ofList pairs)
      (fill pairs .empty p.store).1 (fill pairs .empty p.store).2 := by
  have before : Filled p.home p.scopes outer p.state.globals .empty .empty p.store :=
    ⟨h.locals.enter, rfl, nofun, fun x hx => absurd rfl (ne_next (h.locals.placed _ x hx).2)⟩
  have outermost : (p.scopes.get? Machine.globals).isSome := by rw [h.locals.outermost]; rfl
  have nodup : ((Bindings.empty : Bindings Value).names ++ pairs.map (·.1)).Nodup := by
    simpa [Bindings.names, Bindings.empty] using hn
  exact before.fill (ne_next outermost).symm nodup hv

/-- Only the new scope has new names. -/
theorem mem_home_opening (hx : (r, x) ∈ (p.opening pairs outer).home) (hr : (p.scopes.get? r).isSome) :
    (r, x) ∈ p.home := by
  rcases List.mem_append.mp hx with hx | hx
  · exact hx
  · obtain ⟨e, -, he⟩ := List.mem_map.mp hx
    cases he
    exact absurd rfl (ne_next hr)

theorem Grows.opening (ev : p.scopes.Evolves (p.scopes.add (.ofList pairs) (some outer))) :
    Grows p (p.opening pairs outer) :=
  { Grows.refl p with
    home := List.prefix_append _ _
    scopes := ev
    fresh := fun _ _ hx hr _ => mem_home_opening hx hr
    settled := fun _ => isSome_fill }

theorem Sim.opening (h : Sim p) (hn : (pairs.map (·.1)).Nodup) (hv : ∀ e ∈ pairs, Suits e.1 e.2 ∧ p.Valid e.2)
    (ev : p.scopes.Evolves (p.scopes.add (.ofList pairs) (some outer))) : Sim (p.opening pairs outer) := by
  have g : Grows p (p.opening pairs outer) := .opening ev
  refine h.follow g (h.filled outer hn fun e he => (hv e he).1).locals { h.shared with } ?_
    (fun _ o _ _ ho hv => .inl ⟨o, ho, hv⟩) (fun r _ hk => .inl ⟨r, hk⟩) { h.founded with }
  intro r x v hx
  change (p.scopes.add (.ofList pairs) (some outer)).lookup? r x = some v at hx
  by_cases e : r = p.scopes.next
  · rw [e, Scopes.lookup?_add_next, Bindings.get?_ofList hn] at hx
    exact .inr (g.valid (hv _ hx).2)
  · rw [Scopes.lookup?, Scopes.add, Heap.get?_push, if_neg e] at hx
    exact .inl hx

end Opening

theorem agree_newScope (h : Sim p) (pairs : List (String × Value)) (outer : Ref .scope)
    (hn : (pairs.map (·.1)).Nodup) (hv : ∀ e ∈ pairs, Suits e.1 e.2 ∧ p.Valid e.2)
    (ev : p.scopes.Evolves (p.scopes.add (.ofList pairs) (some outer))) :
    Agree p (Run.newScope (.ofList pairs) outer) (Lexical.Run.newScope pairs)
      (fun r frame q => Opened p pairs outer r frame q) := by
  have filled := h.filled outer hn fun e he => (hv e he).1
  have g : Grows p (p.opening pairs outer) := .opening ev
  have sim : Sim (p.opening pairs outer) := h.opening hn hv ev
  have names : (fill pairs .empty p.store).1.names = pairs.map (·.1) := by
    rw [filled.names]
    exact Bindings.names_ofList hn
  have values : ∀ x v, (x, v) ∈ pairs → (p.opening pairs outer).scopes.lookup? p.scopes.next x = some v :=
    fun x v hm => Scopes.lookup?_add_next.trans ((Bindings.get?_ofList hn).mpr hm)
  refine .of_ok (p.opening pairs outer) rfl (newScope_eq pairs p.state) ⟨g, sim⟩
    { grows := g, sim := sim, env := rfl, owned := fun x hx => mem_home_opening hx h.here,
      fresh := Scopes.get?_next, around := ?_, names := names, places := filled.places, filled := ?_,
      holds := values, own := filled.owned }
  · change (p.scopes.add (.ofList pairs) (some outer)).enclosing? p.scopes.next = some outer
    rw [Scopes.enclosing?, Scopes.get?_add_next]
    rfl
  · intro x l hl
    have hx : x ∈ pairs.map (·.1) := by
      rw [← names]
      exact Bindings.mem_names.mpr ⟨l, hl⟩
    obtain ⟨⟨y, v⟩, hm, rfl⟩ := List.mem_map.mp hx
    have cell := filled.locals.cells l p.scopes.next y (filled.places y l hl)
    exact Option.isSome_iff_exists.mpr ⟨v, cell.trans (values y v hm)⟩

/-! ## Running in a new scope -/

/-- The same pair with other scopes in force. -/
def Joint.moved (p : Joint origin) (r : Ref .scope) (env : Env) : Joint origin :=
  ⟨p.home, p.known, { p.machine with current := r }, { p.state with env := env }⟩

theorem Keeps.moved (p : Joint origin) (r : Ref .scope) (env : Env) : Keeps p (p.moved r env) :=
  { Grows.refl p with }

theorem Sim.moved (h : Sim p) {r : Ref .scope} (hr : (p.scopes.get? r).isSome) (env : Env) :
    Sim (p.moved r env) :=
  h.still (.moved p r env) { h.shared with } h.history hr rfl rfl rfl rfl rfl rfl

theorem Opened.standing {pairs : List (String × Value)} {outer : Ref .scope}
    {frame : Bindings Location} (ho : Opened p pairs outer r frame q) (hc : p.Scoped env outer)
    (hs : Settled p.store none env) (hx : ∀ e ∈ pairs, Ordinary e.1) :
    (q.moved r (frame :: env)).Standing none where
  chain := (Keeps.moved q r (frame :: env)).chain
    ⟨ho.places, outer, ho.around, ho.grows.chain hc⟩
  settled := ⟨fun x l hl _ => ho.filled x l hl, ho.grows.settledIn hs⟩
  owned x hx := ⟨frame.names, rfl, ho.own x hx⟩
  plain names hn x hm := by
    cases hn
    rw [ho.names] at hm
    obtain ⟨e, he, rfl⟩ := List.mem_map.mp hm
    exact hx e he

def Joint.ValidOutcome (p : Joint origin) : Outcome → Prop
  | .completed => True
  | .returned v => p.Valid v

theorem Joint.ValidOutcome.moved {r : Ref .scope} {env : Env} {outcome : Outcome}
    (h : q.ValidOutcome outcome) : (q.moved r env).ValidOutcome outcome := by
  cases outcome with
  | completed => trivial
  | returned v => exact (Keeps.moved q r env).valid h

/-- What has run in a new scope leaves the scopes in force as they were. -/
theorem Opened.stays {pairs : List (String × Value)} {outer : Ref .scope}
    {frame : Bindings Location} {t : Joint origin} (h : Sim p) (ho : Opened p pairs outer r frame q)
    (ht : Follows (q.moved r (frame :: env)) t) :
    Stays p (t.moved p.machine.current p.state.env) := by
  have keeps : Keeps p (t.moved p.machine.current p.state.env) :=
    ((ho.grows.toKeeps.trans (.moved q r _)).trans ht.grows.toKeeps).trans (.moved t _ _)
  have inner : ∀ s x, (s, x) ∈ t.home → (p.scopes.get? s).isSome → (s, x) ∈ q.home := by
    intro s x hx hs
    refine ht.grows.fresh s x hx (ho.grows.scopes.isSome hs) fun e => ?_
    have e : s = r := e
    rw [e, ho.fresh] at hs
    cases hs
  have grows : Grows p (t.moved p.machine.current p.state.env) := {
    toKeeps := keeps
    fresh := fun s x hx hs hc => ho.grows.fresh s x (inner s x hx hs) hs hc
    marks := ht.grows.marks.trans ho.grows.marks
    table := ht.grows.table.trans ho.grows.table
    current := rfl }
  exact {
    grows := grows
    sim := ht.sim.moved (keeps.scopes.isSome h.here) _
    env := rfl
    owned := fun x hx => ho.owned x (inner _ x hx h.here) }

theorem agree_inside {act : Run Outcome} {body : Lexical.Run Nat Outcome}
    {pairs : List (String × Value)} {outer : Ref .scope} (h : Sim p) (env : Env)
    (make : Agree p (Run.newScope (.ofList pairs) outer) (Lexical.Run.newScope pairs)
      (fun r frame q => Opened p pairs outer r frame q))
    (hb : ∀ r frame q, Opened p pairs outer r frame q → Sim (q.moved r (frame :: env)) →
      Agree (q.moved r (frame :: env)) act body (fun a b q => a = b ∧ q.ValidOutcome a)) :
    Agree p (Run.newScope (.ofList pairs) outer >>= fun r => Run.within r act)
      (Lexical.Run.newScope pairs >>= fun frame => Lexical.Run.within (frame :: env) body)
      (fun a b q => a = b ∧ q.ValidOutcome a ∧ Stays p q) := by
  refine Ends.bind make fun r frame q hq ho => ?_
  obtain ⟨t, ht, result⟩ := hb r frame q ho
    (hq.sim.moved (Scopes.isSome_of_enclosing? ho.around) _)
  have hs : Stays p (t.moved p.machine.current p.state.env) := ho.stays h ht
  have current : q.machine.current = p.machine.current := ho.grows.current
  refine ⟨_, hs.toFollows, ?_⟩
  rcases result with ⟨a, _, hx, hy, rfl, hv⟩ | ⟨e, hx, hy, he⟩
  · have left : Run.within r act q.machine = .ok a (t.moved q.machine.current q.state.env).machine :=
      Run.ensuring_ok hx
    have right : Lexical.Run.within (frame :: env) body q.state =
        .ok a (t.moved q.machine.current q.state.env).state := Lexical.Run.ensuring_ok hy
    rw [current, ho.env] at left right
    exact .inl ⟨a, a, left, right, rfl, hv.moved, hs⟩
  · have left : Run.within r act q.machine = .error e (t.moved q.machine.current q.state.env).machine :=
      Run.ensuring_error hx
    have right : Lexical.Run.within (frame :: env) body q.state =
        .error e (t.moved q.machine.current q.state.env).state := Lexical.Run.ensuring_error hy
    rw [current, ho.env] at left right
    exact .inr ⟨e, left, right, he⟩

end Lox.Agreement
