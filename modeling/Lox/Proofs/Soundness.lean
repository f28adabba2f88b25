import Lox.Proofs.SessionAgreement
import Lox.Proofs.Visiting

/-! # Accepted programs find what they look for

No run of an accepted program meets a fault that is not its own: each address leads
through scopes that exist to a scope that binds the name. -/

namespace Lox

/-- So many scopes outwards there is a scope, and it binds the name. -/
def Machine.Finds (m : Machine) (d : Nat) (x : String) : Prop :=
  ∃ s v, m.scopes.scopeAt d m.current = .ok s ∧ m.scopes.lookup? s x = some v

/-- What the addresses of an expression lead to where it is evaluated. The value of an
assignment is evaluated before its target is looked for. -/
def Expr.Addressed (m : Machine) : Expr Nat → Prop
  | .name target => ∀ d, m.table.hops? target.mark = some d → m.Finds d target.name.lexeme
  | .assign target value => ∀ rounds n v after, (Level.ofDepth rounds n).expr value m = .ok v after →
    ∀ d, after.table.hops? target.mark = some d → ∃ s, after.scopes.scopeAt d after.current = .ok s
  | .this keyword => ∃ d, m.table.hops? keyword.mark = some d ∧ m.Finds d keyword.name.lexeme
  | .super keyword _ =>
    ∃ d, m.table.hops? keyword.mark = some (d + 1) ∧ m.Finds (d + 1) "super" ∧ m.Finds d "this"
  | .literal _ | .grouping _ | .unary _ _ | .binary _ _ _ | .logical _ _ _ | .call _ _ _
  | .get _ _ | .set _ _ _ => True

/-- If an expression gives an initializer, the scope of that binds `this`. -/
def Expr.GivesBound (m : Machine) (e : Expr Nat) : Prop :=
  ∀ rounds n f m' c, (Level.ofDepth rounds n).expr e m = .ok (.function f) m' →
    m'.functions.get? f = some c → c.isInitializer → ∃ v, m'.scopes.lookup? c.scope "this" = some v

namespace Agreement

variable {origin : Scopes} {p : Joint origin} {pending : Option String} {e : Expr Nat}

theorem Joint.Standing.finds (h : Sim p) (hs : p.Standing pending) {x : String} {d : Nat}
    (hd : p.state.env.names.distance? x = some d) (hp : d = 0 → pending ≠ some x) :
    p.machine.Finds d x := by
  obtain ⟨l, hl⟩ := isSome_find? hd
  obtain ⟨d', s, v, hd', hs', -, -, hv⟩ := h.found hs.chain hs.settled hl fun e => hp (by
    rw [hd] at e
    exact Option.some.inj e)
  rw [hd] at hd'
  cases hd'
  exact ⟨s, v, hs', hv⟩

/-- An address of a target leads to a scope, and not to the outermost one. -/
theorem Joint.AllowsExpr.assigns (h : Sim p) {target : Reference Nat} {value : Expr Nat}
    (ha : p.AllowsExpr pending (.assign target value)) {rounds n d : Nat} {v : Value} {after : Machine}
    (hm : (Level.ofDepth rounds n).expr value p.machine = .ok v after)
    (hd : after.table.hops? target.mark = some d) :
    ∃ s, after.scopes.scopeAt d after.current = .ok s ∧ s ≠ Machine.globals := by
  have inner : p.AllowsExpr pending value := ha.part (fun _ _ hf => hf.2.2) (List.Subset.refl _)
  obtain ⟨q, hq, ⟨a, b, hx, -, -, -, stays⟩ | ⟨fault, hx, -⟩⟩ :=
    (inStep_ofDepth rounds n).expr value h inner
  · rw [hm] at hx
    cases hx
    have later := ha.stays stays
    obtain ⟨address, -, -⟩ := later.now
    rw [hd] at address
    obtain ⟨l, hl⟩ := isSome_find? address.symm
    obtain ⟨d', s, hd', hs', hh⟩ := later.standing.chain.find hl
    rw [← address] at hd'
    cases hd'
    exact ⟨s, hs', (hq.sim.locals.placed s _ (List.mem_of_getElem? hh)).1⟩
  · rw [hm] at hx
    cases hx

theorem Joint.AllowsExpr.addressed (h : Sim p) (ha : p.AllowsExpr pending e) :
    e.Addressed p.machine := by
  have hs := ha.standing
  cases e with
  | literal _ | grouping _ | unary _ _ | binary _ _ _ | logical _ _ _ | call _ _ _ | get _ _
  | set _ _ _ => trivial
  | name target =>
    obtain ⟨address, ready⟩ := ha.now
    intro d hd
    rw [hd] at address
    refine hs.finds h address.symm fun _ hp => ?_
    rw [ready hp] at address
    cases address
  | assign target value =>
    intro rounds n v after hm d hd
    obtain ⟨s, hs', -⟩ := ha.assigns h hm hd
    exact ⟨s, hs'⟩
  | this keyword =>
    obtain ⟨spelling, d, hd, ht⟩ := ha.now
    refine ⟨d, hd, ?_⟩
    rw [spelling]
    refine hs.finds h ht fun e => ?_
    rw [e] at ht
    exact absurd ht (hs.distance?_ne fun hx => hx.1 rfl)
  | super keyword method =>
    obtain ⟨d, hd, hsuper, hthis⟩ := ha.now
    obtain ⟨k, i, outer, inner, found⟩ := hs.superAt h hsuper hthis
    exact ⟨d, hd, ⟨outer, _, found.atOuter, found.parent⟩, ⟨inner, _, found.atInner, found.receiver⟩⟩

theorem Joint.AllowsExpr.givesBound (h : Sim p) (ha : p.AllowsExpr pending e) :
    e.GivesBound p.machine := by
  intro rounds n f m c hm hc hi
  obtain ⟨q, hq, ⟨a, b, hx, -, rfl, hv, -⟩ | ⟨fault, hx, -⟩⟩ := (inStep_ofDepth rounds n).expr e h ha
  · rw [hm] at hx
    cases hx
    obtain ⟨c', env, left, -, callable⟩ := hv
    obtain rfl : c = c' := Option.some.inj (hc.symm.trans left)
    obtain ⟨v, -, value, -⟩ := callable.receiver hq.sim hi
    exact ⟨v, value⟩
  · rw [hm] at hx
    cases hx

theorem ending_of_foreseen {r : Reporter} (hr : r.fatal = false) {fault : Option Fault}
    (hf : ∀ e ∈ fault, e.Foreseen) :
    (r.handle (fault.map (·.raised))).2 = .done ∨
      (r.handle (fault.map (·.raised))).2 = .exit (some ExitCode.runtime) ∨
      (r.handle (fault.map (·.raised))).2 = .passedOn Fault.unfinished.raised := by
  cases fault with
  | none => exact .inl rfl
  | some e =>
    cases e with
    | runtime error =>
      refine .inl ?_
      simp only [Option.map_some, Fault.raised, Reporter.handle, Reporter.reportRuntime,
        Reporter.ending, hr]
      rfl
    | tooDeep => exact .inr (.inl rfl)
    | unfinished =>
      refine .inr (.inr ?_)
      simp only [Option.map_some, Fault.raised, Reporter.handle, Reporter.reportInternal,
        Reporter.ending, hr]
      rfl
    | scope _ | unresolvedSuper | superNotClass | dangling => exact (hf _ rfl).elim

end Agreement

open Agreement

/-- A unit comes to its end, to a runtime error that is reported, to the limit on the depth of
code or to the limit on the rounds of a loop, and to nothing else, unless the stack does not
hold it. What is evaluated on the way finds what it looks for. -/
theorem Session.run_sound {s : Session} (h : s.Reachable) (source : String) :
    ((s.run source).2 = .done ∨ (s.run source).2 = .exit (some ExitCode.runtime) ∨
      (s.run source).2 = .passedOn Fault.unfinished.raised ∨
      s.stack.holds source = false ∧ (s.run source).2 = .passedOn .stackExhausted) ∧
    ∀ code i, s.interpreter.prepare? source = some (code, i) →
      (∀ fault ∈ (i.execute code).2, fault.Foreseen) ∧
      ∀ e m, Evaluates i.limits code i.machine e m → e.Addressed m ∧ e.GivesBound m := by
  obtain ⟨t, alongside⟩ := exists_alongside h
  have fatal := alongside.reporter.fatal.1
  have foreseen : ∀ code i, s.interpreter.prepare? source = some (code, i) →
      ∀ fault ∈ (i.execute code).2, fault.Foreseen := by
    intro code i hp
    obtain ⟨home, accepted⟩ := (Prepared.of_prepare? hp).accepted alongside.beside
    obtain ⟨fault, after, state, executed⟩ := accepted.execute
    rw [executed.left]
    exact executed.foreseen
  refine ⟨?_, fun code i hp => ⟨foreseen code i hp, fun e m he => ?_⟩⟩
  · cases held : s.stack.holds source with
    | false => exact .inr (.inr (.inr ⟨rfl, (run_dropped fatal held).2⟩))
    | true =>
      cases hp : s.interpreter.prepare? source with
      | none => exact .inl (run_rejected fatal held hp).2
      | some accepted =>
        obtain ⟨code, i⟩ := accepted
        obtain ⟨r, hr, -, ending⟩ := run_accepted fatal held hp
        rw [ending]
        exact (ending_of_foreseen hr (foreseen code i hp)).imp_right (·.imp_right .inl)
  · obtain ⟨home, accepted⟩ := (Prepared.of_prepare? hp).accepted alongside.beside
    obtain ⟨q, pending, rfl, hq, ha⟩ := accepted.resting.evaluates accepted.fits he
    exact ⟨ha.addressed hq, ha.givesBound hq⟩

def Deed.isUse : Deed → Bool
  | .evaluate (.name _) => true
  | _ => false

theorem Deed.eq_of_isUse {d : Deed} (h : d.isUse = true) : ∃ target, d = .evaluate (.name target) := by
  unfold isUse at h
  split at h
  · exact ⟨_, rfl⟩
  · cases h

/-- The first unit of a session has a block that uses its own variable. -/
theorem Session.run_sound_block :
    let s := Session.startOn (.ofLimits ⟨4, 4⟩) "lox" false false fun _ => 0
    ∃ code i target m, s.Reachable ∧
      s.interpreter.prepare? "{ var a; a; }" = some (code, i) ∧
      Evaluates i.limits code i.machine (.name target) m ∧
      (Expr.name target).Addressed m ∧ (Expr.name target).GivesBound m := by
  intro s
  have reachable : s.Reachable := .start _ _ _ _ _
  obtain ⟨code, i, _, m, hp, comes, use⟩ :=
    s.interpreter.exists_comesTo "{ var a; a; }" Deed.isUse (by decide +kernel)
  obtain ⟨target, rfl⟩ := Deed.eq_of_isUse use
  have sound := run_sound reachable "{ var a; a; }"
  exact ⟨code, i, target, m, reachable, hp, comes, (sound.2 code i hp).2 _ _ comes⟩

end Lox
