import Lox.Proofs.Agreement.Evaluation

/-! # Statements are in step -/

namespace Lox.Agreement

open Lexical (Location Env Store)

variable {origin : Scopes} {p q : Joint origin} {pending : Option String} {below : Level} {lower : Lexical.Level Nat}

theorem Advances.of_stays {s : Stmt Nat} (hs : p.Standing none) (hd : s.declared? = none)
    (k : Stays p q) : Advances p s q where
  toFollows := k.toFollows
  standing := hs.stays k
  names := by rw [k.env, Surroundings.after_of_none hd]
  this := by rw [k.env]
  stays _ := k

/-- A declaration has run once its name has its value. -/
theorem Introduced.advances {s : Stmt Nat} {x : String} {r : Joint origin} (hi : Introduced p x q)
    (hd : s.declared? = some x) (hx : Ordinary x) (k : Stays q r) (hr : r.Standing none) :
    Advances p s r where
  toFollows := hi.toFollows.trans k.toFollows
  standing := hr
  names := by rw [k.env, hi.names, Surroundings.after, hd]
  this := by rw [k.env, hi.others "this" (Ne.symm hx.1)]
  stays e := by rw [hd] at e; cases e

/-- Code that fits behind a declaration may run while its name has no value yet. -/
theorem Introduced.allows {x : String} {F : (Nat → Option Nat) → Surroundings → Prop}
    {S : List (Reference Nat)} (hi : Introduced p x q) (hx : Ordinary x)
    (fits : ∀ hops, p.Knows hops → F hops (p.state.env.names.declare x))
    (self : ∀ keyword ∈ S, p.Activation p.state.env keyword) : q.Allows (some x) F S where
  standing := hi.standing
  fits hops hk := by
    rw [hi.names]
    exact fits hops (hi.grows.known hops hk)
  self keyword hk :=
    (hi.grows.activation (self keyword hk)).of_find? (hi.others "this" (Ne.symm hx.1))

theorem Introduced.define {x : String} {r : Joint origin} {v : Value} (hi : Introduced p x q)
    (hx : Ordinary x) (k : Stays q r) (hv : ∀ t, Grows r t → t.state.env = r.state.env →
      Settled t.store none t.state.env → t.Valid v) :
    Agree r (Run.define x v) (Lexical.Run.define x v) (fun _ _ t => Stays r t ∧ t.Standing none) := by
  refine agree_define k.sim (hi.standing.stays k) hx ?_ ?_ hv
  · rw [k.env]
    exact hi.inside
  · intro y e
    exact (Option.some.inj e).symm

theorem InStep.valueOf (hl : InStep origin below lower) {e : Option (Expr Nat)} (h : Sim p)
    (ha : p.Allows pending (fun hops Γ => Expr.Fits? hops Γ pending e) (Expr.selfReferences? e)) :
    Agree p (below.valueOf e) (lower.valueOf e) (Gives p) := by
  cases e with
  | none => exact .pure h ⟨rfl, trivial, .refl h⟩
  | some e => exact hl.expr e h ha

theorem display_eq (h : Sim p) {v : Value} (hv : p.Valid v) :
    p.machine.display v = p.state.display v := by
  cases v with
  | nil | bool _ | number _ | string _ | clock => rfl
  | function f =>
    obtain ⟨c, env, left, right, -⟩ := hv
    simp only [Machine.display, Lexical.State.display, left, right]
    rfl
  | klass k =>
    simp only [Machine.display, Lexical.State.display, Machine.nameOfClass,
      Lexical.State.nameOfClass, h.shared.classes]
  | object i =>
    have e : p.machine.nameOfClass = p.state.nameOfClass := by
      funext k
      rw [Machine.nameOfClass, Lexical.State.nameOfClass, h.shared.classes]
    simp only [Machine.display, Lexical.State.display, h.shared.instances, e]

theorem InStep.cycle (hl : InStep origin below lower) {condition : Expr Nat} {body : Stmt Nat}
    (hd : body.declared? = none) (n : Nat) : ∀ {p : Joint origin}, Sim p → p.AllowsExpr none condition →
      p.AllowsStmt body → Agree p (below.cycle condition body n) (lower.cycle condition body n)
        (fun a b q => a = b ∧ q.ValidOutcome a ∧ Stays p q) := by
  induction n with
  | zero =>
    intro p h _ _
    exact .throw h trivial
  | succ n ih =>
    intro p h hc hb
    refine (hl.expr condition h hc).bind ?_
    rintro v _ q hq ⟨rfl, -, k⟩
    split
    · refine (hl.stmt body hq.sim (hb.stays k)).bind ?_
      rintro a _ r hr ⟨rfl, hv, adv⟩
      have k' := k.trans (adv.stays hd)
      cases a with
      | returned v => exact .pure hr.sim ⟨rfl, hv, k'⟩
      | completed =>
        refine (ih hr.sim (hc.stays k') (hb.stays k')).mono ?_
        rintro a b s - ⟨rfl, hv, k''⟩
        exact ⟨rfl, hv, k'.trans k''⟩
    · exact .pure hq.sim ⟨rfl, trivial, k⟩

theorem InStep.block (hl : InStep origin below lower) {body : List (Stmt Nat)} (h : Sim p)
    (ha : p.Allows none (fun hops Γ => Stmt.AllFit hops ([] :: Γ) body)
      (Stmt.allSelfReferences body)) (rounds : Nat) :
    Agree p (below.execute rounds (.block body)) (lower.execute rounds (.block body))
      (fun a b q => a = b ∧ q.ValidOutcome a ∧ Stays p q) := by
  have make := agree_newScope h [] p.machine.current List.nodup_nil nofun
    (.opened .same .empty p.machine.current nofun)
  refine agree_inside h p.state.env make ?_
  intro r frame q ho hq
  have none : frame.get? "this" = none := by
    cases hf : frame.get? "this" with
    | none => rfl
    | some l =>
      have hm := Bindings.mem_names.mpr ⟨l, hf⟩
      rw [ho.names] at hm
      cases hm
  refine hl.executeAll body hq ⟨ho.standing ha.standing.chain ha.standing.settled nofun, ?_, ?_⟩
  · intro hops hk
    change Stmt.AllFit hops (frame.names :: p.state.env.names) body
    rw [ho.names]
    exact ha.fits hops (ho.grows.known hops hk)
  · intro keyword hk
    refine ((Keeps.moved q r _).activation (ho.grows.activation (ha.self keyword hk))).of_find? ?_
    change Env.find? (frame :: p.state.env) "this" = _
    rw [Env.find?_cons, none]
    rfl

/-! ## Declarations of functions -/

theorem agree_declareFunction {routine : Routine (Stmt Nat)} (h : Sim p)
    (ha : p.AllowsStmt (.function routine)) :
    Agree p (Level.declareFunction routine) (Lexical.Level.declareFunction routine)
      (fun _ _ q => Advances p (.function routine) q) := by
  obtain ⟨fresh, hx, -⟩ := ha.now
  refine agree_introduce h ha.standing fresh hx fun q hi => ?_
  have allows := hi.allows (F := fun hops Γ => Routine.Fits hops Γ routine) hx (fun hops hk => (ha.fits hops hk).2.2) ha.self
  refine .get_left (.get_right ?_)
  refine (agree_newFunction hi.sim ⟨routine, q.machine.current, false⟩ q.state.env).bind ?_
  rintro f _ r hr ⟨rfl, left, right, -, -, -, k⟩
  have defined := hi.define (v := .function f) hx k fun t g e settled => by
    have g' : Grows q t := k.grows.trans g
    rw [e, k.env] at settled
    exact ⟨⟨routine, q.machine.current, false⟩, q.state.env, g.functions f _ left,
      g.closures f _ right, {
        chain := g'.chain hi.standing.chain
        settled := settled
        made := g'.scopes.isSome hi.sim.here
        fits := fun hops hk => allows.fits hops (g'.known hops hk)
        self := fun keyword hk => g'.activation (allows.self keyword hk)
        initializer := nofun
        bound := nofun }⟩
  rw [← bind_pure (Lexical.Run.define _ _)]
  refine defined.bind ?_
  rintro _ _ s hs ⟨k', standing⟩
  refine .get_left ((agree_record hs.sim _).mono ?_)
  rintro _ _ t - k''
  exact hi.advances rfl hx ((k.trans k').trans k'') (standing.stays k'')

/-! ## Declarations of classes -/

/-- No statement stands in a scope that holds `super`. -/
theorem Joint.Standing.lookup?_super (h : Sim p) (hs : p.Standing none) :
    p.scopes.lookup? p.machine.current "super" = none := by
  cases hv : p.scopes.lookup? p.machine.current "super" with
  | none => rfl
  | some v =>
    by_cases top : p.machine.current = Machine.globals
    · rw [top, h.locals.lookup?_globals] at hv
      exact absurd rfl (h.locals.ordinary "super" (Bindings.mem_names.mpr ⟨v, hv⟩)).2
    · obtain ⟨names, hn, hx⟩ := hs.owned "super" (h.locals.covered _ _ v top hv)
      exact absurd rfl (hs.plain names hn "super" hx).2

/-- The scope in which the methods of a class with the given parent are written. -/
structure MethodsAt (parent : Option (Ref .klass)) (Γ : Surroundings) (r : Ref .scope) (env : Env)
    (q : Joint origin) : Prop where
  chain : q.Scoped env r
  settled : Settled q.store none env
  made : (q.scopes.get? r).isSome
  super : q.scopes.lookup? r "super" = parent.map .klass
  names : ["this"] :: env.names = Surroundings.ofMethods parent.isSome Γ

theorem MethodsAt.stays {parent : Option (Ref .klass)} {Γ : Surroundings} {r : Ref .scope}
    {env : Env} (h : MethodsAt parent Γ r env p) (k : Stays p q) : MethodsAt parent Γ r env q where
  chain := k.grows.chain h.chain
  settled := k.grows.settledIn h.settled
  made := k.grows.scopes.isSome h.made
  super := by rw [← h.super]; exact k.grows.scopes.super_eq h.made
  names := h.names

theorem agree_methodScope (h : Sim p) (hs : p.Standing none) {parent : Option (Ref .klass)}
    (hp : ∀ k, parent = some k → (p.machine.classes.get? k).isSome) :
    Agree p (Level.methodScope parent) (Lexical.Level.methodEnv parent)
      (fun r env q => MethodsAt parent p.state.env.names r env q ∧ Stays p q) := by
  cases parent with
  | none =>
    have here : MethodsAt none p.state.env.names p.machine.current p.state.env p :=
      ⟨hs.chain, hs.settled, h.here, hs.lookup?_super h, rfl⟩
    exact .of_ok p rfl rfl (.refl h) ⟨here, .refl h⟩
  | some k =>
    have make := agree_newScope h [("super", .klass k)] p.machine.current (by simp)
      (by
        intro e he
        rw [List.mem_singleton.mp he]
        exact ⟨.parent k, hp k rfl⟩)
      (.inherited .same k p.machine.current)
    refine .get_left (.get_right ?_)
    rw [← bind_pure (Run.newScope _ _)]
    refine make.bind ?_
    rintro r frame q hq ho
    refine .pure hq.sim ⟨⟨⟨ho.places, p.machine.current, ho.around, ho.grows.chain hs.chain⟩,
      ⟨fun x l hl _ => ho.filled x l hl, ho.grows.settledIn hs.settled⟩,
      Scopes.isSome_of_enclosing? ho.around, ho.holds "super" _ (by simp), ?_⟩, ho.toStays⟩
    rw [Env.names_cons, ho.names]
    rfl

/-- The methods that have been made belong to a class with the given parent. -/
def Made (parent : Option (Ref .klass)) (made : Bindings (Ref .function)) (p : Joint origin) : Prop :=
  ∀ k : Klass, k.parent = parent → ∀ x f, made.get? x = some f → p.FunctionIs f (p.IsMethod k x)

theorem Made.empty {parent : Option (Ref .klass)} : Made parent .empty p := by
  intro k _ x f hf
  cases hf

theorem Made.stays {parent : Option (Ref .klass)} {made : Bindings (Ref .function)}
    (h : Made parent made p) (k : Stays p q) : Made parent made q :=
  fun c hc x f hf => k.grows.functionIs (fun _ _ hm => k.grows.isMethod hm) (h c hc x f hf)

theorem agree_makeMethods {parent : Option (Ref .klass)} {Γ : Surroundings} {r : Ref .scope}
    {env : Env} (methods : List (Routine (Stmt Nat))) :
    ∀ {p : Joint origin} {made : Bindings (Ref .function)}, Sim p → MethodsAt parent Γ r env p →
      (∀ hops, p.Knows hops → Routine.AllFit hops (.ofMethods parent.isSome Γ) methods) →
      Made parent made p →
      Agree p
        (methods.foldlM (fun methods routine => do
          let f ← Run.newFunction ⟨routine, r, routine.name.lexeme == initializerName⟩
          pure (methods.set routine.name.lexeme f)) made)
        (methods.foldlM (fun methods routine => do
          let f ← Lexical.Run.newFunction ⟨routine, env, routine.name.lexeme == initializerName⟩
          pure (methods.set routine.name.lexeme f)) made)
        (fun a b q => a = b ∧ Made parent a q ∧ Stays p q) := by
  induction methods with
  | nil =>
    intro p made h _ _ hm
    exact .pure h ⟨rfl, hm, .refl h⟩
  | cons routine rest ih =>
    intro p made h hs hf hm
    rw [List.foldlM_cons, List.foldlM_cons, bind_assoc, bind_assoc]
    refine (agree_newFunction h ⟨routine, r, routine.name.lexeme == initializerName⟩ env).bind ?_
    rintro f _ q hq ⟨rfl, left, right, -, -, -, k⟩
    rw [pure_bind, pure_bind]
    have here := hs.stays k
    have new : Made parent (made.set routine.name.lexeme f) q := by
      intro c hc x g hx
      rw [Bindings.get?_set] at hx
      split at hx
      · rename_i own
        cases hx
        refine ⟨_, env, left, right, { here with
          fits := fun hops hk => ?_, super := ?_, named := own.symm, marked := by rw [own] }⟩
        · rw [here.names]
          exact (hf hops (k.grows.known hops hk)).1
        · rw [hc]
          exact here.super
      · exact hm.stays k c hc x g hx
    refine (ih hq.sim here (fun hops hk => (hf hops (k.grows.known hops hk)).2) new).mono ?_
    rintro a b t - ⟨rfl, ha, k'⟩
    exact ⟨rfl, ha, k.trans k'⟩

theorem InStep.parentClass (hl : InStep origin below lower) {parent : Option (Reference Nat)} (h : Sim p)
    (ha : p.Allows pending (fun hops Γ => Reference.Reads? hops Γ pending parent) []) :
    Agree p (below.parentClass parent) (lower.parentClass parent)
      (fun a b q => a = b ∧ a.isSome = parent.isSome ∧
        (∀ k, a = some k → (q.machine.classes.get? k).isSome) ∧ Stays p q) := by
  cases parent with
  | none => exact .pure h ⟨rfl, rfl, nofun, .refl h⟩
  | some r =>
    refine (hl.expr (.name r) h ha).bind ?_
    rintro v _ q hq ⟨rfl, hv, k⟩
    cases v with
    | nil | bool _ | number _ | string _ | clock | function _ | object _ => exact .fail hq.sim _ _
    | klass c =>
      refine .pure hq.sim ⟨rfl, rfl, ?_, k⟩
      rintro _ ⟨⟩
      exact hv

theorem InStep.declareClass (hl : InStep origin below lower) {name : Token}
    {parent : Option (Reference Nat)} {methods : List (Routine (Stmt Nat))} (h : Sim p)
    (ha : p.AllowsStmt (.klass name parent methods)) :
    Agree p (below.declareClass name parent methods) (lower.declareClass name parent methods)
      (fun _ _ q => Advances p (.klass name parent methods) q) := by
  obtain ⟨fresh, hx, -, -⟩ := ha.now
  refine agree_introduce h ha.standing fresh hx fun q hi => ?_
  have reads := hi.allows (S := [])
    (F := fun hops Γ => Reference.Reads? hops Γ (some name.lexeme) parent) hx
    (fun hops hk => (ha.fits hops hk).2.2.1) nofun
  refine (hl.parentClass hi.sim reads).bind ?_
  rintro parent' _ r hr ⟨rfl, hsome, hparent, k⟩
  refine (hi.define (v := .nil) hx k fun _ _ _ _ => trivial).bind ?_
  rintro _ _ s hs ⟨k', standing⟩
  have hparent' : ∀ c, parent' = some c → (s.machine.classes.get? c).isSome := fun c hc =>
    k'.grows.valid (v := .klass c) (hparent c hc)
  refine (agree_methodScope hs.sim standing hparent').bind ?_
  rintro scope env t ht ⟨place, k''⟩
  have upto := (k.trans k').trans k''
  have fits : ∀ hops, t.Knows hops →
      Routine.AllFit hops (.ofMethods parent'.isSome s.state.env.names) methods := by
    intro hops hk
    rw [hsome, k'.env, k.env, hi.names]
    exact (ha.fits hops (hi.grows.known hops (upto.grows.known hops hk))).2.2.2
  refine (agree_makeMethods methods ht.sim place fits .empty).bind ?_
  rintro made _ u hu ⟨rfl, hmade, k₃⟩
  have hparent'' : ∀ c, parent' = some c → (u.machine.classes.get? c).isSome := fun c hc =>
    (k''.trans k₃).grows.valid (v := .klass c) (hparent' c hc)
  refine (agree_newClass hu.sim ⟨name.lexeme, parent', made⟩ (hmade _ rfl) hparent'').bind ?_
  rintro c _ v hv ⟨rfl, hc, k₄⟩
  refine .get_left ?_
  rw [← pure_bind () fun _ => Lexical.Run.define name.lexeme (.klass c)]
  refine (agree_record hv.sim _).bind ?_
  rintro _ _ w hw k₅
  have all := ((upto.trans k₃).trans k₄).trans k₅
  refine (hi.define (v := .klass c) hx all fun _ g _ _ => ?_).mono ?_
  · exact g.valid (v := .klass c) (k₅.grows.valid (v := .klass c) hc)
  · rintro _ _ z - ⟨k₆, standing'⟩
    exact hi.advances rfl hx (all.trans k₆) standing'

/-! ## Statements -/

theorem InStep.execute (hl : InStep origin below lower) (rounds : Nat) (s : Stmt Nat) (h : Sim p)
    (ha : p.AllowsStmt s) :
    Agree p (below.execute rounds s) (lower.execute rounds s)
      (fun a b q => a = b ∧ q.ValidOutcome a ∧ Advances p s q) := by
  have hs := ha.standing
  cases s with
  | expression value =>
    refine (hl.expr value h ha).bind ?_
    rintro _ _ q hq ⟨rfl, -, k⟩
    exact .pure hq.sim ⟨rfl, trivial, .of_stays hs rfl k⟩
  | print value =>
    refine (hl.expr value h ha).bind ?_
    rintro v _ q hq ⟨rfl, hv, k⟩
    refine .get_left (.get_right ?_)
    rw [display_eq hq.sim hv]
    refine (agree_print hq.sim _).bind ?_
    rintro _ _ r hr k'
    exact .pure hr.sim ⟨rfl, trivial, .of_stays hs rfl (k.trans k')⟩
  | declare name initial =>
    obtain ⟨fresh, hx, -⟩ := ha.now
    refine agree_introduce h hs fresh hx fun q hi => ?_
    have inner := hi.allows
      (F := fun hops Γ => Expr.Fits? hops Γ (some name.lexeme) initial) hx
      (fun hops hk => (ha.fits hops hk).2.2) ha.self
    refine (hl.valueOf hi.sim inner).bind ?_
    rintro v _ r hr ⟨rfl, hv, k⟩
    refine (hi.define hx k fun _ g _ _ => g.valid hv).bind ?_
    rintro _ _ t ht ⟨k', standing⟩
    exact .pure ht.sim ⟨rfl, trivial, hi.advances rfl hx (k.trans k') standing⟩
  | block body =>
    refine (hl.block h ha rounds).mono ?_
    rintro a _ q - ⟨rfl, hv, k⟩
    exact ⟨rfl, hv, .of_stays hs rfl k⟩
  | branch condition yes no =>
    have first : p.AllowsExpr none condition :=
      ha.part (fun _ _ hf => hf.1) (List.subset_append_left _ _)
    refine (hl.expr condition h first).bind ?_
    rintro v _ q hq ⟨rfl, -, k⟩
    have both := ha.stays k
    split
    · have second : q.AllowsStmt yes := both.part (fun _ _ hf => hf.2.1.1) fun x hx =>
        List.mem_append_right _ (List.mem_append_left _ hx)
      refine (hl.stmt yes hq.sim second).mono ?_
      rintro a _ r - ⟨rfl, hv, adv⟩
      exact ⟨rfl, hv, .of_stays hs rfl (k.trans (adv.stays ha.now.2.1.2))⟩
    · cases no with
      | none => exact .pure hq.sim ⟨rfl, trivial, .of_stays hs rfl k⟩
      | some no =>
        have third : q.AllowsStmt no := both.part (fun _ _ hf => hf.2.2.1) fun x hx =>
          List.mem_append_right _ (List.mem_append_right _ hx)
        refine (hl.stmt no hq.sim third).mono ?_
        rintro a _ r - ⟨rfl, hv, adv⟩
        exact ⟨rfl, hv, .of_stays hs rfl (k.trans (adv.stays ha.now.2.2.2))⟩
  | loop condition body =>
    have first : p.AllowsExpr none condition :=
      ha.part (fun _ _ hf => hf.1) (List.subset_append_left _ _)
    have second : p.AllowsStmt body :=
      ha.part (fun _ _ hf => hf.2.1) (List.subset_append_right _ _)
    refine (hl.cycle ha.now.2.2 rounds h first second).mono ?_
    rintro a _ q - ⟨rfl, hv, k⟩
    exact ⟨rfl, hv, .of_stays hs rfl k⟩
  | function routine =>
    refine (agree_declareFunction h ha).bind ?_
    rintro _ _ q hq adv
    exact .pure hq.sim ⟨rfl, trivial, adv⟩
  | leave keyword value =>
    refine (hl.valueOf h ha).bind ?_
    rintro v _ q hq ⟨rfl, hv, k⟩
    exact .pure hq.sim ⟨rfl, hv, .of_stays hs rfl k⟩
  | klass name parent methods =>
    refine (hl.declareClass h ha).bind ?_
    rintro _ _ q hq adv
    exact .pure hq.sim ⟨rfl, trivial, adv⟩

end Lox.Agreement
