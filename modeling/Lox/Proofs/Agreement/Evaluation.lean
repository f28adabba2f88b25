import Lox.Proofs.Agreement.Expressions

/-! # Calls and expressions are in step

Each construct is followed through both sides, given that the levels below are in
step. -/

namespace Lox

/-- A call makes its scope, runs the body there and then sees to the result. -/
theorem Level.enter_eq (below : Level) (f : Closure) (arguments : List Value) :
    below.enter f arguments =
      ((Run.newScope (.ofList ((f.routine.params.map (·.lexeme)).zip arguments)) f.scope >>=
        fun scope => Run.within scope (below.executeAll f.routine.body)) >>= fun outcome =>
      if f.isInitializer then do Run.ofScope ((← get).scopes.getAt 0 "this" f.scope)
      else
        match outcome with
        | .returned v => pure v
        | .completed => pure .nil) := by
  rw [bind_assoc]
  rfl

theorem Lexical.Level.enter_eq {μ : Type} (below : Lexical.Level μ) (f : Lexical.Closure μ)
    (arguments : List Value) :
    below.enter f arguments =
      ((Lexical.Run.newScope ((f.routine.params.map (·.lexeme)).zip arguments) >>=
        fun scope => Lexical.Run.within (scope :: f.env) (below.executeAll f.routine.body)) >>=
      fun outcome =>
      if f.isInitializer then Lexical.Run.read f.env "this"
      else
        match outcome with
        | .returned v => pure v
        | .completed => pure .nil) := by
  rw [bind_assoc]
  rfl

namespace Agreement

open Lexical (Location Env Store)

variable {origin : Scopes} {p q : Joint origin} {pending : Option String} {below : Level} {lower : Lexical.Level Nat}

theorem Joint.Activation.of_find? {env env' : Env} {keyword : Reference Nat}
    (h : p.Activation env keyword) (e : env'.find? "this" = env.find? "this") :
    p.Activation env' keyword := by
  obtain ⟨l, scope, i, k, c, hl, rest⟩ := h
  exact ⟨l, scope, i, k, c, by rw [e, hl], rest⟩

/-- The statements behind one that has run. -/
theorem Joint.AllowsAllStmts.rest {s : Stmt Nat} {rest : List (Stmt Nat)}
    (h : p.AllowsAllStmts (s :: rest)) (k : Advances p s q) : q.AllowsAllStmts rest where
  standing := k.standing
  fits hops hk := by
    rw [k.names]
    exact (h.fits hops (k.grows.known hops hk)).2
  self keyword hk :=
    (k.grows.activation (h.self keyword (List.mem_append_right _ hk))).of_find? k.this

theorem InStep.executeAll (hl : InStep origin below lower) (ss : List (Stmt Nat)) :
    ∀ {p : Joint origin}, Sim p → p.AllowsAllStmts ss →
      Agree p (below.executeAll ss) (lower.executeAll ss) (fun a b q => a = b ∧ q.ValidOutcome a) := by
  induction ss with
  | nil =>
    intro p h _
    exact .pure h ⟨rfl, trivial⟩
  | cons s rest ih =>
    intro p h ha
    have first : p.AllowsStmt s := ha.part (fun _ _ hf => hf.1) (List.subset_append_left _ _)
    refine (hl.stmt s h first).bind ?_
    rintro a _ q hq ⟨rfl, hv, k⟩
    cases a with
    | completed => exact ih k.sim (ha.rest k)
    | returned v => exact .pure hq.sim ⟨rfl, hv⟩

theorem InStep.evaluateAll (hl : InStep origin below lower) (es : List (Expr Nat)) :
    ∀ {p : Joint origin}, Sim p → p.AllowsAllExprs pending es →
      Agree p (below.evaluateAll es) (lower.evaluateAll es)
        (fun a b q => a = b ∧ (∀ v ∈ a, q.Valid v) ∧ Stays p q) := by
  induction es with
  | nil =>
    intro p h _
    exact .pure h ⟨rfl, nofun, .refl h⟩
  | cons e rest ih =>
    intro p h ha
    have first : p.AllowsExpr pending e :=
      ha.part (fun _ _ hf => hf.1) (List.subset_append_left _ _)
    refine (hl.expr e h first).bind ?_
    rintro v _ q hq ⟨rfl, hv, k⟩
    have others : q.AllowsAllExprs pending rest :=
      (ha.part (fun _ _ hf => hf.2) (List.subset_append_right _ _)).stays k
    refine (ih hq.sim others).bind ?_
    rintro vs _ r hr ⟨rfl, hvs, k'⟩
    refine .pure hr.sim ⟨rfl, ?_, k.trans k'⟩
    intro w hw
    rcases List.mem_cons.mp hw with rfl | hw
    · exact k'.grows.valid hv
    · exact hvs w hw

/-! ## Calls -/

/-- The receiver that an initializer gives back. -/
theorem Joint.Callable.receiver {c : Closure} {env : Env} (h : Sim p) (hc : p.Callable c env)
    (hi : c.isInitializer) : ∃ v, p.Valid v ∧ p.scopes.lookup? c.scope "this" = some v ∧
      Lexical.Run.read env "this" p.state = .ok v p.state := by
  obtain ⟨frame, outer, l, rfl, hl⟩ := hc.initializer hi
  have found : Env.find? (frame :: outer) "this" = some l := by
    rw [Env.find?_cons, hl]
    rfl
  obtain ⟨v, hv⟩ := Option.isSome_iff_exists.mp (hc.settled.1 "this" l hl nofun)
  have value : p.scopes.lookup? c.scope "this" = some v := by
    rw [← h.locals.cells l c.scope "this" (hc.chain.1 "this" l hl)]
    exact hv
  exact ⟨v, h.values _ _ _ value, value, read_eq found hv⟩

theorem InStep.enter (hl : InStep origin below lower) (h : Sim p) {c : Closure} {env : Env}
    (hc : p.Callable c env) {arguments : List Value} (hv : ∀ v ∈ arguments, p.Valid v)
    (hn : arguments.length = c.arity) :
    Agree p (below.enter c arguments) (lower.enter ⟨c.routine, env, c.isInitializer⟩ arguments)
      (Gives p) := by
  let pairs := (c.routine.params.map (·.lexeme)).zip arguments
  have fits := Routine.fits_iff.mp (hc.fits _ fun _ _ => rfl)
  have names : pairs.map (·.1) = c.routine.params.map (·.lexeme) := by
    refine List.map_fst_zip ?_
    rw [List.length_map, hn]
    exact Nat.le_refl _
  have nodup : (pairs.map (·.1)).Nodup := by
    rw [names]
    exact fits.1
  have ordinary : ∀ e ∈ pairs, Ordinary e.1 := by
    intro e he
    have hm : e.1 ∈ c.routine.params.map (·.lexeme) := names ▸ List.mem_map_of_mem he
    obtain ⟨t, ht, e'⟩ := List.mem_map.mp hm
    rw [← e']
    exact fits.2.1 t ht
  have make := agree_newScope h pairs c.scope nodup
    (fun e he => ⟨.ordinary (ordinary e he) e.2, hv e.2 (List.of_mem_zip he).2⟩)
    (.opened .same _ c.scope fun x hx => by
      rw [Bindings.names_ofList nodup] at hx
      obtain ⟨e, he, rfl⟩ := List.mem_map.mp hx
      exact ordinary e he)
  rw [Level.enter_eq, Lexical.Level.enter_eq]
  refine (agree_inside h env make ?_).bind ?_
  · intro r frame q ho hq
    refine hl.executeAll c.routine.body hq ⟨ho.standing hc.chain hc.settled ordinary, ?_, ?_⟩
    · intro hops hk
      have inner := (Routine.fits_iff.mp (hc.fits hops (ho.grows.known hops hk))).2.2
      change Stmt.AllFit hops (frame.names :: env.names) _
      rw [ho.names, names]
      exact inner
    · intro keyword hk
      have outer := hc.self keyword (by rwa [Routine.selfReferences_eq])
      refine ((Keeps.moved q r _).activation (ho.grows.activation outer)).of_find? ?_
      change Env.find? (frame :: env) "this" = _
      rw [Env.find?_cons]
      cases hf : frame.get? "this" with
      | none => rfl
      | some l =>
        have hm : "this" ∈ frame.names := Bindings.mem_names.mpr ⟨l, hf⟩
        rw [ho.names] at hm
        obtain ⟨e, he, e'⟩ := List.mem_map.mp hm
        exact absurd e' (ordinary e he).1
  · rintro a _ q hq ⟨rfl, ha, k⟩
    cases hi : c.isInitializer with
    | true =>
      obtain ⟨v, hv, left, right⟩ := (k.grows.callable hc).receiver hq.sim hi
      refine .get_left ?_
      have read : q.machine.scopes.getAt 0 "this" c.scope = .ok v := getAt_eq rfl left
      have e : Run.ofScope (q.machine.scopes.getAt 0 "this" c.scope) = pure v :=
        congrArg Run.ofScope read
      rw [e]
      exact .of_ok q rfl right (.refl hq.sim) ⟨rfl, hv, k⟩
    | false =>
      cases a with
      | completed => exact .pure hq.sim ⟨rfl, trivial, k⟩
      | returned v => exact .pure hq.sim ⟨rfl, ha, k⟩

/-- A way into routines that does what entering them does on the other side. -/
def EntersInStep (origin : Scopes) (enter : Closure → List Value → Run Value) (lower : Lexical.Level Nat) :
    Prop :=
  ∀ {p : Joint origin} {c : Closure} {env : Env} {arguments : List Value}, Sim p → p.Callable c env →
    (∀ v ∈ arguments, p.Valid v) → arguments.length = c.arity →
    Agree p (enter c arguments) (lower.enter ⟨c.routine, env, c.isInitializer⟩ arguments) (Gives p)

variable {enter : Closure → List Value → Run Value}

theorem agree_construct (he : EntersInStep origin enter lower) (h : Sim p) {r : Ref .klass}
    (hr : (p.machine.classes.get? r).isSome) {initializer : Option (Ref .function)} {arguments : List Value}
    (hi : ∀ f, initializer = some f → ∃ k x c env, Member p f k x c env ∧ arguments.length = c.arity)
    (hv : ∀ v ∈ arguments, p.Valid v) :
    Agree p (Level.constructBy enter r initializer arguments) (lower.construct r initializer arguments)
      (Gives p) := by
  rw [Level.constructBy, Lexical.Level.construct]
  refine (agree_newInstance h hr).bind ?_
  rintro i _ q hq ⟨rfl, made, k⟩
  cases initializer with
  | none => exact .pure hq.sim ⟨rfl, made, k⟩
  | some f =>
    obtain ⟨c, x, method, env, hm, hn⟩ := hi f rfl
    refine (agree_bind hq.sim (hm.stays k) made).bind ?_
    rintro g _ r hr ⟨rfl, ⟨d, env, hd⟩, k'⟩
    refine .bind_eq (Run.functionAt_eq hd.left) (lexical_functionAt_eq hd.right) ?_
    have arity : arguments.length = d.arity := by
      rw [hn, Closure.arity, Closure.arity, hd.code]
    have valid : ∀ v ∈ arguments, r.Valid v :=
      fun v hv' => k'.grows.valid (k.grows.valid (hv v hv'))
    refine (he hr.sim hd.callable valid arity).bind ?_
    rintro _ _ s hs ⟨-, -, k''⟩
    have made' : s.Valid (.object i) := k''.grows.valid (k'.grows.valid (v := .object i) made)
    exact .pure hs.sim ⟨rfl, made', (k.trans k').trans k''⟩

theorem agree_checkCount (h : Sim p) (paren : Token) (expected : Nat) (arguments : List Value) :
    Agree p (Level.checkCount paren expected arguments)
      (Lexical.Level.checkCount paren expected arguments)
      (fun _ _ q => arguments.length = expected ∧ q = p) := by
  unfold Level.checkCount Lexical.Level.checkCount
  split
  · rename_i hn
    exact .pure h ⟨hn, rfl⟩
  · exact .fail h _ _

theorem arityAt_eq {m : Machine} {f : Ref .function} {c : Closure}
    (h : m.functions.get? f = some c) :
    (Closure.arity <$> Run.functionAt f) m = .ok c.arity m := by
  simp only [Functor.map, EStateM.map, Run.functionAt_eq h]

theorem lexical_arityAt_eq {s : Lexical.State Nat} {f : Ref .function} {c : Lexical.Closure Nat}
    (h : s.functions.get? f = some c) :
    (Lexical.Closure.arity <$> Lexical.Run.functionAt f) s = .ok c.arity s := by
  simp only [Functor.map, EStateM.map, lexical_functionAt_eq h]

theorem agree_call (he : EntersInStep origin enter lower) (h : Sim p) {callee : Value}
    (hc : p.Valid callee) (paren : Token) {arguments : List Value} (hv : ∀ v ∈ arguments, p.Valid v) :
    Agree p (Level.callBy enter callee paren arguments) (lower.call callee paren arguments) (Gives p) := by
  cases callee with
  | nil | bool _ | number _ | string _ | object _ => exact .fail h _ _
  | clock =>
    refine (agree_checkCount h paren 0 arguments).bind ?_
    rintro _ _ _ - ⟨-, rfl⟩
    refine (agree_readClock h).bind ?_
    rintro x _ q hq ⟨rfl, k⟩
    exact .pure hq.sim ⟨rfl, trivial, k⟩
  | function f =>
    obtain ⟨c, env, left, right, callable⟩ := hc
    refine .bind_eq (Run.functionAt_eq left) (lexical_functionAt_eq right) ?_
    refine (agree_checkCount h paren c.arity arguments).bind ?_
    rintro _ _ _ - ⟨hn, rfl⟩
    exact he h callable hv hn
  | klass r =>
    refine .bind_eq rfl (h.method?_eq r initializerName) ?_
    cases hm : p.machine.classes.method? r initializerName with
    | none =>
      refine .bind_eq rfl rfl ((agree_checkCount h paren 0 arguments).bind ?_)
      rintro _ _ _ - ⟨-, rfl⟩
      exact agree_construct he h hc nofun hv
    | some f =>
      obtain ⟨k, c, env, hm⟩ := h.member hm
      refine .bind_eq (arityAt_eq hm.left) (lexical_arityAt_eq hm.right) ?_
      refine (agree_checkCount h paren c.arity arguments).bind ?_
      rintro _ _ _ - ⟨hn, rfl⟩
      refine agree_construct he h hc ?_ hv
      rintro g hg
      cases hg
      exact ⟨k, initializerName, c, env, hm, hn⟩

theorem Joint.AllowsExpr.call {callee : Expr Nat} {paren : Token} {arguments : List (Expr Nat)}
    (ha : p.AllowsExpr pending (.call callee paren arguments)) :
    p.AllowsExpr pending callee ∧ p.AllowsAllExprs pending arguments :=
  ⟨ha.part (fun _ _ hf => hf.2.1) (List.subset_append_left _ _),
    ha.part (fun _ _ hf => hf.2.2) (List.subset_append_right _ _)⟩

/-! ## Expressions -/

theorem InStep.evaluateBy (hl : InStep origin below lower) (he : EntersInStep origin enter lower) (e : Expr Nat)
    (h : Sim p) (ha : p.AllowsExpr pending e) :
    Agree p (below.evaluateBy enter e) (lower.evaluate e) (Gives p) := by
  cases e with
  | literal value =>
    refine .pure h ⟨rfl, ?_, .refl h⟩
    cases value <;> trivial
  | grouping inner => exact hl.expr inner h ha
  | unary operator right =>
    refine (hl.expr right h ha).bind ?_
    rintro v _ q hq ⟨rfl, -, k⟩
    exact (agree_ofChecked hq.sim fun w hw => applyUnary_plain hw).gives k
  | binary left operator right =>
    have first : p.AllowsExpr pending left :=
      ha.part (fun _ _ hf => hf.1) (List.subset_append_left _ _)
    have second : p.AllowsExpr pending right :=
      ha.part (fun _ _ hf => hf.2) (List.subset_append_right _ _)
    refine (hl.expr left h first).bind ?_
    rintro v _ q hq ⟨rfl, -, k⟩
    refine (hl.expr right hq.sim (second.stays k)).bind ?_
    rintro w _ r hr ⟨rfl, -, k'⟩
    exact (agree_ofChecked hr.sim fun u hu => applyBinary_plain hu).gives (k.trans k')
  | logical left operator right =>
    have first : p.AllowsExpr pending left :=
      ha.part (fun _ _ hf => hf.1) (List.subset_append_left _ _)
    have second : p.AllowsExpr pending right :=
      ha.part (fun _ _ hf => hf.2) (List.subset_append_right _ _)
    refine (hl.expr left h first).bind ?_
    rintro v _ q hq ⟨rfl, hv, k⟩
    split
    · exact .pure hq.sim ⟨rfl, hv, k⟩
    · exact (hl.expr right hq.sim (second.stays k)).gives k
  | name target =>
    refine agree_lookUp h ha.standing ha.now.1 fun hd hp => ?_
    rw [ha.now.2 hp] at hd
    cases hd
  | assign target value =>
    have inner : p.AllowsExpr pending value := ha.part (fun _ _ hf => hf.2.2) (List.Subset.refl _)
    refine (hl.expr value h inner).bind ?_
    rintro v _ q hq ⟨rfl, hv, k⟩
    have after := ha.stays k
    refine (agree_assign hq.sim after.standing after.now.1 after.now.2.1 hv).bind ?_
    rintro _ _ r hr k'
    exact .pure hr.sim ⟨rfl, k'.grows.valid hv, k.trans k'⟩
  | call callee paren arguments =>
    obtain ⟨first, second⟩ := ha.call
    refine (hl.expr callee h first).bind ?_
    rintro f _ q hq ⟨rfl, hf, k⟩
    refine (hl.evaluateAll arguments hq.sim (second.stays k)).bind ?_
    rintro vs _ r hr ⟨rfl, hvs, k'⟩
    exact (agree_call he hr.sim (k'.grows.valid hf) paren hvs).gives (k.trans k')
  | get object property =>
    refine (hl.expr object h ha).bind ?_
    rintro v _ q hq ⟨rfl, hv, k⟩
    cases v with
    | nil | bool _ | number _ | string _ | clock | function _ | klass _ => exact .fail hq.sim _ _
    | object i =>
      exact (agree_property hq.sim hv property).gives k
  | set object property value =>
    have first : p.AllowsExpr pending object :=
      ha.part (fun _ _ hf => hf.1) (List.subset_append_left _ _)
    have second : p.AllowsExpr pending value :=
      ha.part (fun _ _ hf => hf.2) (List.subset_append_right _ _)
    refine (hl.expr object h first).bind ?_
    rintro v _ q hq ⟨rfl, -, k⟩
    cases v with
    | nil | bool _ | number _ | string _ | clock | function _ | klass _ => exact .fail hq.sim _ _
    | object i =>
      refine (hl.expr value hq.sim (second.stays k)).bind ?_
      rintro w _ r hr ⟨rfl, hw, k'⟩
      refine (agree_setField hr.sim i property.lexeme hw).bind ?_
      rintro _ _ s hs k''
      exact .pure hs.sim ⟨rfl, k''.grows.valid hw, (k.trans k').trans k''⟩
  | this keyword =>
    obtain ⟨hname, d, hd, ht⟩ := ha.now
    refine agree_lookUp h ha.standing (by rw [hname, hd, ht]) fun h0 => ?_
    rw [hname] at h0
    exact absurd h0 (ha.standing.distance?_ne fun hx => hx.1 rfl)
  | super keyword method =>
    obtain ⟨d, hd, hs, ht⟩ := ha.now
    obtain ⟨k, i, outer, inner, found⟩ := ha.standing.superAt h hs ht
    exact agree_superMethod h hd found

end Agreement

end Lox
