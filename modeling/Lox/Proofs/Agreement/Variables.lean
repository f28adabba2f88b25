import Lox.Proofs.Agreement.Steps

/-! # Variables on the two sides

The distance that an address states and the map of names in force lead to the same
variable. Names come into scope in the innermost scope only, and only the code that
runs there brings them in. -/

namespace Lox.Agreement

open Lexical (Location Env Store)

variable {origin : Scopes} {p q : Joint origin} {env : Env} {pending : Option String} {x : String} {v : Value}
  {l : Location} {r s : Ref .scope}

/-! ## Finding a variable -/

theorem distance?_names : env.names.distance? x = none ↔ env.find? x = none := by
  induction env with
  | nil => simp [Env.names, Env.find?]
  | cons frame outer ih =>
    rw [Env.names_cons, Surroundings.distance?_cons, Env.find?_cons]
    cases hx : frame.get? x with
    | none =>
      have : x ∉ frame.names := fun h => by
        obtain ⟨l, hl⟩ := Bindings.mem_names.mp h
        rw [hx] at hl; cases hl
      simp [this, ih]
    | some l => simp [Bindings.mem_names.mpr ⟨l, hx⟩]

/-- The distance of a name leads to the scope that has its location. -/
theorem Joint.Scoped.find (h : p.Scoped env r) (hl : env.find? x = some l) :
    ∃ d s, env.names.distance? x = some d ∧ p.scopes.scopeAt d r = .ok s ∧
      p.home[l.index]? = some (s, x) := by
  induction env generalizing r with
  | nil => cases hl
  | cons frame outer ih =>
    obtain ⟨hf, around, ha, ho⟩ := h
    rw [Env.find?_cons] at hl
    rw [Env.names_cons, Surroundings.distance?_cons]
    cases hx : frame.get? x with
    | some k =>
      rw [hx] at hl
      cases hl
      exact ⟨0, r, by rw [if_pos (Bindings.mem_names.mpr ⟨l, hx⟩)], rfl, hf x l hx⟩
    | none =>
      rw [hx] at hl
      obtain ⟨d, s, hd, hs, hh⟩ := ih ho hl
      have out : x ∉ frame.names := fun h => by
        obtain ⟨k, hk⟩ := Bindings.mem_names.mp h
        rw [hx] at hk; cases hk
      refine ⟨d + 1, s, by rw [if_neg out, hd]; rfl, ?_, hh⟩
      rw [Scopes.scopeAt_succ ha, hs]

/-- Only the pending name of the innermost scope has no value. -/
theorem Settled.find {store : Store} (h : Settled store pending env) (hl : env.find? x = some l)
    (hp : env.names.distance? x = some 0 → pending ≠ some x) : (store.get? l).isSome := by
  induction env generalizing pending with
  | nil => cases hl
  | cons frame outer ih =>
    rw [Env.find?_cons] at hl
    cases hx : frame.get? x with
    | some k =>
      rw [hx] at hl
      cases hl
      refine h.1 x l hx (hp ?_)
      rw [Env.names_cons, Surroundings.distance?_cons, if_pos (Bindings.mem_names.mpr ⟨l, hx⟩)]
    | none =>
      rw [hx] at hl
      exact ih h.2 hl (fun _ => nofun)

/-- A name that is found has its value on both sides. -/
theorem Sim.found (h : Sim p) (hc : p.Scoped env r) (hs : Settled p.store pending env)
    (hl : env.find? x = some l) (hp : env.names.distance? x = some 0 → pending ≠ some x) :
    ∃ d s v, env.names.distance? x = some d ∧ p.scopes.scopeAt d r = .ok s ∧
      p.home[l.index]? = some (s, x) ∧ p.store.get? l = some v ∧ p.scopes.lookup? s x = some v := by
  obtain ⟨d, s, hd, hs', hh⟩ := hc.find hl
  obtain ⟨v, hv⟩ := Option.isSome_iff_exists.mp (hs.find hl hp)
  exact ⟨d, s, v, hd, hs', hh, hv, by rw [← h.locals.cells l s x hh, hv]⟩

theorem getAt_eq {scopes : Scopes} {d : Nat} (hs : scopes.scopeAt d r = .ok s)
    (hv : scopes.lookup? s x = some v) : scopes.getAt d x r = .ok v := by
  rw [Scopes.getAt, hs]
  change (Pure.pure s >>= _ : Except ScopeFault Value) = _
  rw [pure_bind, hv]
  rfl

theorem read_eq {t : Lexical.State Nat} (hl : env.find? x = some l) (hv : t.store.get? l = some v) :
    Lexical.Run.read env x t = .ok v t := by
  have found : (env.find? x).bind t.store.get? = some v := by rw [hl, Option.bind_some, hv]
  have step : ∀ f : Lexical.State Nat → Lexical.Run Nat Value, (get >>= f) t = f t t := fun _ => rfl
  rw [Lexical.Run.read, step, found]
  rfl

/-! ## The place where code runs -/

/-- The scopes in force on both sides, where `pending` has no value yet. -/
structure Joint.Standing (p : Joint origin) (pending : Option String) : Prop where
  chain : p.Scoped p.state.env p.machine.current
  settled : Settled p.store pending p.state.env
  /-- only this code has brought names into the innermost scope -/
  owned : ∀ x, (p.machine.current, x) ∈ p.home → ∃ names ∈ p.state.env.names.head?, x ∈ names
  plain : ∀ names ∈ p.state.env.names.head?, ∀ x ∈ names, Ordinary x

theorem Joint.Standing.stays (h : p.Standing pending) (k : Stays p q) : q.Standing pending where
  chain := by
    rw [k.env, k.grows.current]
    exact k.grows.chain h.chain
  settled := by
    rw [k.env]
    exact k.grows.settledIn h.settled
  owned x hx := by
    rw [k.grows.current] at hx
    rw [k.env]
    exact h.owned x (k.owned x hx)
  plain := by
    rw [k.env]
    exact h.plain

/-- A keyword is never pending. -/
theorem Joint.Standing.distance?_ne (h : p.Standing pending) (hx : ¬ Ordinary x) :
    p.state.env.names.distance? x ≠ some 0 := by
  intro e
  cases he : p.state.env.names with
  | nil => rw [he] at e; cases e
  | cons names outer =>
    rw [he, Surroundings.distance?_cons] at e
    split at e
    · rename_i hm
      exact hx (h.plain names (by rw [he]; rfl) x hm)
    · cases hd : Surroundings.distance? outer x with
      | none => rw [hd] at e; cases e
      | some d => rw [hd] at e; cases e

/-! ## Reading and writing -/

theorem agree_lookUp (h : Sim p) (hs : p.Standing pending) {n : Reference Nat}
    (hn : p.machine.table.hops? n.mark = p.state.env.names.distance? n.name.lexeme)
    (hp : p.state.env.names.distance? n.name.lexeme = some 0 → pending ≠ some n.name.lexeme) :
    Agree p (Run.lookUp n) (Lexical.Run.lookUp n.name) (Gives p) := by
  rw [Run.lookUp, Lexical.Run.lookUp]
  refine .get_left (.get_right ?_)
  cases hl : p.state.env.find? n.name.lexeme with
  | none =>
    have found : p.machine.scopes.lookup? Machine.globals n.name.lexeme =
        p.state.globals.get? n.name.lexeme := h.locals.lookup?_globals _
    rw [hn, distance?_names.mpr hl]
    dsimp only
    rw [found]
    cases hv : p.state.globals.get? n.name.lexeme with
    | none => exact .fail h _ _
    | some v =>
      have valid : p.Valid v := h.values Machine.globals n.name.lexeme v (by
        rw [h.locals.lookup?_globals, hv])
      exact .pure h ⟨rfl, valid, .refl h⟩
  | some l =>
    obtain ⟨d, s, v, hd, hs', hh, hv, hv'⟩ := h.found hs.chain hs.settled hl hp
    have left : Run.ofScope (p.scopes.getAt d n.name.lexeme p.machine.current) = pure v := by
      rw [getAt_eq hs' hv']; rfl
    rw [hn, hd]
    change Agree p (Run.ofScope (p.scopes.getAt d n.name.lexeme p.machine.current)) _ _
    rw [left]
    exact .of_ok p rfl (read_eq hl hv) (.refl h) ⟨rfl, h.values s n.name.lexeme v hv', .refl h⟩

/-- The pair in which a name of a scope has a new value, which the reference state has in the
given store or among the given globals. -/
def Joint.writing (p : Joint origin) (r : Ref .scope) (x : String) (v : Value) (store : Store)
    (globals : Bindings Value) : Joint origin :=
  p.keeping { p.machine with scopes := p.machine.scopes.define r x v }
    { p.state with store := store, globals := globals }

theorem Sim.writing {store : Store} {globals : Bindings Value} (h : Sim p) (made : (p.scopes.get? r).isSome)
    (g : Grows p (p.writing r x v store globals)) (locals : Locals p.home (p.scopes.define r x v) store globals)
    (hv : (p.writing r x v store globals).Valid v) : Sim (p.writing r x v store globals) := by
  refine h.follow g locals { h.shared with } ?_ (fun _ o _ _ ho hv => .inl ⟨o, ho, hv⟩)
    (fun r _ hk => .inl ⟨r, hk⟩) { h.founded with }
  intro t y w hw
  change (p.scopes.define r x v).lookup? t y = some w at hw
  rw [Scopes.lookup?_define made] at hw
  split at hw
  · cases hw
    exact .inr hv
  · exact .inl hw

/-- The machine and the reference state give a local variable its value. -/
theorem agree_writeLocal (h : Sim p) (hl : p.home[l.index]? = some (r, x)) (hx : Ordinary x)
    (hv : ∀ q, Grows p q → q.state.env = p.state.env → q.store = p.store.set l v → q.Valid v) :
    Agree p (modify fun m => { m with scopes := m.scopes.define r x v })
      (modify fun s => { s with store := s.store.set l v })
      (fun _ _ q => Stays p q ∧ q.store = p.store.set l v) := by
  let q := p.writing r x v (p.store.set l v) p.state.globals
  have g : Grows p q := { Grows.refl p with
    scopes := .written .same r x v hx
    settled := fun k hk => by
      change ((p.store.set l v).get? k).isSome
      rw [Store.get?_set (h.locals.inRange hl)]
      split
      · rfl
      · exact hk }
  have sim : Sim q := h.writing (h.locals.placed r x (List.mem_of_getElem? hl)).2 g
    (h.locals.write hl (Suits.ordinary hx v)) (hv q g rfl rfl)
  exact .of_ok q rfl rfl ⟨g, sim⟩ ⟨⟨⟨g, sim⟩, rfl, fun _ hx => hx⟩, rfl⟩

theorem agree_writeGlobal (h : Sim p) (hx : Ordinary x)
    (hv : ∀ q, Grows p q → q.state.env = p.state.env → q.store = p.store → q.Valid v) :
    Agree p (modify fun m => { m with scopes := m.scopes.define Machine.globals x v })
      (modify fun s => { s with globals := s.globals.set x v })
      (fun _ _ q => Stays p q ∧ q.store = p.store) := by
  let q := p.writing Machine.globals x v p.store (p.state.globals.set x v)
  have g : Grows p q := { Grows.refl p with
    scopes := .written .same Machine.globals x v hx }
  have made : (p.scopes.get? Machine.globals).isSome := by rw [h.locals.outermost]; rfl
  have sim : Sim q := h.writing made g (h.locals.writeGlobal hx) (hv q g rfl rfl)
  exact .of_ok q rfl rfl ⟨g, sim⟩ ⟨⟨⟨g, sim⟩, rfl, fun _ hx => hx⟩, rfl⟩

theorem agree_assign (h : Sim p) (hs : p.Standing pending) {n : Reference Nat}
    (hn : p.machine.table.hops? n.mark = p.state.env.names.distance? n.name.lexeme)
    (hx : Ordinary n.name.lexeme) (hv : p.Valid v) :
    Agree p (Run.store n v) (Lexical.Run.assign n.name v) (fun _ _ q => Stays p q) := by
  rw [Run.store, Lexical.Run.assign]
  refine .get_left (.get_right ?_)
  cases hl : p.state.env.find? n.name.lexeme with
  | none =>
    have same : (p.machine.scopes.lookup? Machine.globals n.name.lexeme).isSome =
        p.state.globals.contains n.name.lexeme := by
      rw [Bindings.contains, ← h.locals.lookup?_globals]; rfl
    rw [hn, distance?_names.mpr hl]
    simp only [same]
    split
    · exact (agree_writeGlobal h hx fun q g _ _ => g.valid hv).mono fun _ _ _ _ hq => hq.1
    · exact .fail h _ _
  | some l =>
    obtain ⟨d, s, hd, hs', hh⟩ := hs.chain.find hl
    have left : Run.ofScope (p.machine.scopes.scopeAt d p.machine.current) = pure s := by
      have e : p.machine.scopes.scopeAt d p.machine.current = .ok s := hs'
      rw [e]; rfl
    rw [hn, hd]
    simp only [left, pure_bind]
    exact (agree_writeLocal h hh hx fun q g _ _ => g.valid hv).mono fun _ _ _ _ hq => hq.1

/-- The innermost scope gives a name that is in scope its value. After that nothing
is pending. -/
theorem agree_define (h : Sim p) (hs : p.Standing pending) (hx : Ordinary x)
    (hin : ∀ frame ∈ p.state.env.head?, ∃ l, frame.get? x = some l)
    (hp : ∀ y, pending = some y → y = x)
    (hv : ∀ q, Grows p q → q.state.env = p.state.env → Settled q.store none q.state.env → q.Valid v) :
    Agree p (Run.define x v) (Lexical.Run.define x v)
      (fun _ _ q => Stays p q ∧ q.Standing none) := by
  rw [Run.define, Lexical.Run.define]
  refine .get_right ?_
  cases he : p.state.env with
  | nil =>
    have top : p.machine.current = Machine.globals := by
      have := hs.chain
      rw [he] at this
      exact this
    have left : Agree p (modify fun m => { m with scopes := m.scopes.define Machine.globals x v })
        (modify fun s => { s with globals := s.globals.set x v })
        (fun _ _ q => Stays p q ∧ q.store = p.store) := by
      refine agree_writeGlobal h hx fun q g e _ => hv q g e ?_
      rw [e, he]
      trivial
    refine (left.mono fun _ _ q _ hq => ?_).left (by rw [← top]; rfl)
    refine ⟨hq.1, { hs.stays hq.1 with settled := ?_ }⟩
    rw [hq.1.env, he]
    trivial
  | cons frame outer =>
    obtain ⟨l, hl⟩ := hin frame (by rw [he]; rfl)
    have chain := hs.chain
    rw [he] at chain
    have hh : p.home[l.index]? = some (p.machine.current, x) := chain.1 x l hl
    have all : ∀ q, Grows p q → q.state.env = p.state.env → q.store = p.store.set l v →
        Settled q.store none q.state.env := by
      intro q g e es
      have before := g.settledIn hs.settled
      rw [e]
      rw [he] at before ⊢
      refine ⟨fun y k hk _ => ?_, before.2⟩
      by_cases hy : pending = some y
      · have hk' : k = l := by
          rw [hp y hy, hl] at hk
          exact (Option.some.inj hk).symm
        rw [es, Store.get?_set (h.locals.inRange hh), if_pos hk']
        rfl
      · exact before.1 y k hk hy
    simp only [hl]
    have left := agree_writeLocal h hh hx fun q g e es => hv q g e (all q g e es)
    refine (left.mono fun _ _ q _ hq => ?_).left rfl
    exact ⟨hq.1, { hs.stays hq.1 with settled := all q hq.1.grows hq.1.env hq.2 }⟩

end Lox.Agreement
