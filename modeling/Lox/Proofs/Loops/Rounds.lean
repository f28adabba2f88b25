import Lox.Proofs.Distances.Sites
import Lox.Proofs.Growth

/-! # One scope for all rounds

A block that declares a variable and then loops opens one scope for the variable. Every round
is run in that scope, and whatever stands in the loop stands inside of it. -/

namespace Lox

/-! ## Where the loop stands -/

theorem Expr.HasSite.scopes_eq {Γ : Surroundings} {κ : ClassContext} {e : Expr Nat} {site : Site}
    (h : e.HasSite Γ κ site) : site.scopes = Γ := by
  induction h with
  | name | target | this | super => rfl
  | grouping _ ih | operand _ ih | binaryLeft _ ih | binaryRight _ ih | logicalLeft _ ih | logicalRight _ ih
  | assigned _ ih | callee _ ih | argument _ _ ih | owner _ ih | object _ ih | value _ ih => exact ih

/-- What stands in a statement stands inside the scopes around it. The innermost of these may
have got more names. -/
theorem Stmt.HasSite.scopes_suffix {Γ : Surroundings} {κ : ClassContext} {s : Stmt Nat} {site : Site}
    (h : s.HasSite Γ κ site) : ∃ inner names, site.scopes = inner ++ Γ.extend names := by
  have here {Γ Δ : Surroundings} (e : Δ = Γ) : ∃ inner names, Δ = inner ++ Γ.extend names :=
    ⟨[], [], e.trans (Surroundings.extend_nil Γ).symm⟩
  -- inside a scope of its own
  have within {Γ Δ : Surroundings} {scope names more : List String} {inner : Surroundings}
      (e : Δ = inner ++ Surroundings.extend more (scope :: Γ.extend names)) :
      ∃ inner names, Δ = inner ++ Γ.extend names :=
    ⟨inner ++ [scope ++ more], names, e.trans (List.append_cons ..)⟩
  induction h with
  | expression h | print h | condition h | test h | result h => exact here h.scopes_eq
  | @initial _ _ name _ _ h => exact ⟨[], [name.lexeme], h.scopes_eq⟩
  | @parent _ _ name => exact ⟨[], [name.lexeme], rfl⟩
  | yes _ ih | no _ ih | repeated _ ih => exact ih
  | @block Γ _ _ _ _ _ _ _ _ ih =>
    obtain ⟨inner, more, e⟩ := ih
    rw [← Surroundings.extend_nil Γ] at e
    exact within e
  | body _ _ ih =>
    obtain ⟨inner, more, e⟩ := ih
    exact within e
  | @method Γ _ name parent _ _ _ _ _ _ _ _ _ ih =>
    obtain ⟨inner, more, e⟩ := ih
    cases parent with
    | none => exact ⟨_, [name.lexeme], e.trans (List.append_assoc inner [_, ["this"]] _).symm⟩
    | some r => exact ⟨_, [name.lexeme], e.trans (List.append_assoc inner [_, ["this"], ["super"]] _).symm⟩

/-! ## Going round -/

namespace Level

/-- The states in which a loop comes to its condition, from the first round on. -/
inductive Rounds (below : Level) (condition : Expr Nat) (body : Stmt Nat) (m : Machine) : Machine → Prop
  | first : Rounds below condition body m m
  | next {m₁ m₂ m₃ : Machine} {v : Value} (h : Rounds below condition body m m₁)
      (test : below.expr condition m₁ = .ok v m₂) (holds : v.isTruthy = true)
      (round : below.stmt body m₂ = .ok .completed m₃) : Rounds below condition body m m₃

/-- How a loop ends that has come to its condition for the last time. -/
inductive LastRound (below : Level) (condition : Expr Nat) (body : Stmt Nat) (m : Machine) :
    EStateM.Result Fault Machine Outcome → Prop
  | unfinished : LastRound below condition body m (.error .unfinished m)
  | untested {e : Fault} {m₁ : Machine} (test : below.expr condition m = .error e m₁) :
      LastRound below condition body m (.error e m₁)
  | done {v : Value} {m₁ : Machine} (test : below.expr condition m = .ok v m₁)
      (fails : v.isTruthy = false) : LastRound below condition body m (.ok .completed m₁)
  | failed {v : Value} {e : Fault} {m₁ m₂ : Machine} (test : below.expr condition m = .ok v m₁)
      (holds : v.isTruthy = true) (round : below.stmt body m₁ = .error e m₂) :
      LastRound below condition body m (.error e m₂)
  | returned {v w : Value} {m₁ m₂ : Machine} (test : below.expr condition m = .ok v m₁)
      (holds : v.isTruthy = true) (round : below.stmt body m₁ = .ok (.returned w) m₂) :
      LastRound below condition body m (.ok (.returned w) m₂)

variable {below : Level} {condition : Expr Nat} {body : Stmt Nat} {m m' : Machine}

theorem Rounds.trans {m'' : Machine} (h : below.Rounds condition body m m')
    (k : below.Rounds condition body m' m'') : below.Rounds condition body m m'' := by
  induction k with
  | first => exact h
  | next _ test holds round ih => exact ih.next test holds round

/-- A loop that has gone round does what it does from there on. The rounds behind it count
towards the bound. -/
theorem Rounds.cycle_eq (h : below.Rounds condition body m m') :
    ∃ k, ∀ n, below.cycle condition body (k + n) m = below.cycle condition body n m' := by
  induction h with
  | first => exact ⟨0, fun n => by rw [Nat.zero_add]⟩
  | @next m₁ m₂ m₃ v _ test holds round ih =>
    obtain ⟨k, ih⟩ := ih
    refine ⟨k + 1, fun n => ?_⟩
    rw [Nat.add_assoc, Nat.add_comm 1 n, ih, cycle, Run.bind_ok test, if_pos holds, Run.bind_ok round]

/-- A loop goes from round to round up to its last one. -/
theorem cycle_rounds (n : Nat) : ∀ m : Machine, ∃ m', below.Rounds condition body m m' ∧
    below.LastRound condition body m' (below.cycle condition body n m) := by
  induction n with
  | zero => exact fun m => ⟨m, .first, .unfinished⟩
  | succ n ih =>
    intro m
    cases test : below.expr condition m with
    | error e m₁ =>
      rw [cycle, Run.bind_error test]
      exact ⟨m, .first, .untested test⟩
    | ok v m₁ =>
      rw [cycle, Run.bind_ok test]
      by_cases holds : v.isTruthy = true
      · rw [if_pos holds]
        cases round : below.stmt body m₁ with
        | error e m₂ =>
          rw [Run.bind_error round]
          exact ⟨m, .first, .failed test holds round⟩
        | ok outcome m₂ =>
          rw [Run.bind_ok round]
          cases outcome with
          | returned w => exact ⟨m, .first, .returned test holds round⟩
          | completed =>
            obtain ⟨m', rounds, last⟩ := ih m₂
            exact ⟨m', (Rounds.first.next test holds round).trans rounds, last⟩
      · rw [if_neg holds]
        exact ⟨m, .first, .done test (Bool.eq_false_iff.mpr holds)⟩

/-- Every round begins in the scope in which the first one did, and nothing is taken away. -/
theorem Rounds.keeps {rounds n : Nat} (h : (ofDepth rounds n).Rounds condition body m m') :
    m'.current = m.current ∧ m.Precedes m' := by
  have restoring := restoring_ofDepth rounds n
  obtain ⟨hexpr, hstmt⟩ := adds_ofDepth rounds n
  induction h with
  | first => exact ⟨rfl, .refl m⟩
  | @next m₁ m₂ m₃ v _ test _ round ih =>
    have tested := restoring.expr condition m₁
    have ran := restoring.stmt body m₂
    have kept := hexpr condition m₁
    have kept' := hstmt body m₂
    rw [Run.after_ok test] at tested kept
    rw [Run.after_ok round] at ran kept'
    exact ⟨ran.trans (tested.trans ih.1), ih.2.trans (kept.trans kept')⟩

/-- A row whose first statement completes goes on with the others. -/
theorem executeAll_completed {s : Stmt Nat} {m₁ : Machine} (h : below.stmt s m = .ok .completed m₁)
    (rest : List (Stmt Nat)) : below.executeAll (s :: rest) m = below.executeAll rest m₁ := by
  rw [executeAll, Run.bind_ok h]

/-- A row of one statement ends as the statement does. -/
theorem executeAll_single (s : Stmt Nat) (m : Machine) : below.executeAll [s] m = below.stmt s m := by
  cases h : below.stmt s m with
  | error e m₁ => rw [executeAll, Run.bind_error h]
  | ok outcome m₁ =>
    cases outcome with
    | completed => exact executeAll_completed h []
    | returned v => rw [executeAll, Run.bind_ok h]; rfl

end Level

/-! ## The block of a loop -/

/-- A loop behind the declaration of a variable, in a block. -/
def Stmt.looped (x : Token) (initial : Option (Expr Nat)) (condition : Expr Nat) (body : Stmt Nat) : Stmt Nat :=
  .block [.declare x initial, .loop condition body]

/-- The machine in a new and empty scope. -/
def Machine.opened (m : Machine) : Machine :=
  { m with scopes := m.scopes.add .empty (some m.current), current := m.scopes.next }

/-- The machine that has given a variable of the current scope its value. -/
def Machine.defining (m : Machine) (x : String) (v : Value) : Machine :=
  { m with scopes := m.scopes.define m.current x v }

/-- The variable of such a loop is one for all rounds, and for nothing behind the loop. -/
structure Stmt.OneVariable (x : Token) (initial : Option (Expr Nat)) (condition : Expr Nat) (body : Stmt Nat) :
    Prop where
  /-- Whatever stands in the loop, be it in a function, stands inside the scope of the variable. -/
  around : ∀ Γ κ site, (looped x initial condition body).HasSite Γ κ site →
    ∃ inner names, site.scopes = inner ++ (x.lexeme :: names) :: Γ
  /-- The loop declares nothing in the scope in which it stands, -/
  behind : ∀ before, declaredIn (before ++ [looped x initial condition body]) = declaredIn before
  /-- and the machine is back in that scope when it is done: if the variable gets no value -/
  stopped : ∀ (rounds n : Nat) (m : Machine) (e : Fault) (m₁ : Machine),
    (Level.ofDepth rounds n).valueOf initial m.opened = .error e m₁ →
    (Level.ofDepth rounds (n + 2)).stmt (looped x initial condition body) m =
      .error e { m₁ with current := m.current }
  /-- and if it gets one and the loop is run. -/
  run : ∀ (rounds n : Nat) (m : Machine) (v : Value) (m₁ : Machine),
    (Level.ofDepth rounds n).valueOf initial m.opened = .ok v m₁ →
    (Level.ofDepth rounds (n + 2)).stmt (looped x initial condition body) m =
      Run.ensuring ((Level.ofDepth rounds n).cycle condition body rounds)
        (fun after => { after with current := m.current }) (m₁.defining x.lexeme v)
  /-- The loop goes from round to round up to its last one, -/
  cycle : ∀ (rounds n : Nat) (m : Machine), ∃ m', (Level.ofDepth rounds n).Rounds condition body m m' ∧
    (Level.ofDepth rounds n).LastRound condition body m' ((Level.ofDepth rounds n).cycle condition body rounds m)
  /-- and every round is run in the one scope that has been opened, which has the variable. -/
  rounds : ∀ (rounds n : Nat) (m : Machine) (v : Value) (m₁ m' : Machine),
    (Level.ofDepth rounds n).valueOf initial m.opened = .ok v m₁ →
    (Level.ofDepth rounds n).Rounds condition body (m₁.defining x.lexeme v) m' →
      m'.current = m.scopes.next ∧ m'.scopes.enclosing? m.scopes.next = some m.current ∧
        (m'.scopes.lookup? m.scopes.next x.lexeme).isSome

section OneVariable

variable {x : Token} {initial : Option (Expr Nat)} {condition : Expr Nat} {body : Stmt Nat}

theorem Stmt.looped_around {Γ : Surroundings} {κ : ClassContext} {site : Site}
    (h : (looped x initial condition body).HasSite Γ κ site) :
    ∃ inner names, site.scopes = inner ++ (x.lexeme :: names) :: Γ := by
  cases h with
  | @block _ _ _ before s rest _ split h =>
    rcases before with _ | ⟨t, _ | ⟨u, before⟩⟩
    · obtain ⟨rfl, -⟩ := List.cons.inj split
      cases h with
      | initial h => exact ⟨[], [], h.scopes_eq⟩
    · obtain ⟨rfl, second⟩ := List.cons.inj split
      obtain ⟨rfl, -⟩ := List.cons.inj second
      obtain ⟨inner, names, e⟩ := h.scopes_suffix
      exact ⟨inner, names, e⟩
    · simp at split

theorem Level.valueOf_keeps {rounds n : Nat} {m m' : Machine} {v : Value}
    (h : (ofDepth rounds n).valueOf initial m = .ok v m') : m'.current = m.current ∧ m.Precedes m' := by
  let below : Unit → Level := fun _ => ofDepth rounds n
  have restored := Run.closed_restores.valueOf below (restoring_ofDepth rounds n).expr initial m
  have kept := Run.closed_adds.valueOf below (adds_ofDepth rounds n).1 initial m
  rw [Run.after_ok h] at restored kept
  exact ⟨restored, kept⟩

theorem Level.looped_eq (rounds n : Nat) (m : Machine) :
    (ofDepth rounds (n + 2)).stmt (.looped x initial condition body) m =
      Run.ensuring ((ofDepth rounds (n + 1)).executeAll [.declare x initial, .loop condition body])
        (fun after => { after with current := m.current }) m.opened := rfl

theorem Stmt.oneVariable (x : Token) (initial : Option (Expr Nat)) (condition : Expr Nat) (body : Stmt Nat) :
    OneVariable x initial condition body where
  around _ _ _ h := looped_around h
  behind before := by simp [declaredIn, looped, declared?]
  stopped rounds n m e m₁ h := by
    have declared : (Level.ofDepth rounds (n + 1)).stmt (.declare x initial) m.opened = .error e m₁ :=
      Run.bind_error h
    rw [Level.looped_eq]
    exact Run.ensuring_error (Run.bind_error declared)
  run rounds n m v m₁ h := by
    have declared : (Level.ofDepth rounds (n + 1)).stmt (.declare x initial) m.opened =
        .ok .completed (m₁.defining x.lexeme v) := Run.bind_ok h
    have row := (Level.executeAll_completed declared [.loop condition body]).trans (Level.executeAll_single _ _)
    rw [Level.looped_eq, Run.ensuring, Run.ensuring, row]
    rfl
  cycle rounds _ m := Level.cycle_rounds rounds m
  rounds rounds n m v m₁ m' h rounds' := by
    obtain ⟨current, kept⟩ := Level.valueOf_keeps h
    have there : (m.opened.scopes.get? m.scopes.next).isSome := by
      rw [show m.opened.scopes = m.scopes.add .empty (some m.current) from rfl, Scopes.get?_add_next]
      rfl
    have begun := kept.trans (.write m₁ m₁.current x.lexeme v)
    obtain ⟨same, kept'⟩ := rounds'.keeps
    have whole := begun.trans kept'
    have outer : m.opened.scopes.enclosing? m.scopes.next = some m.current :=
      congrArg (·.bind Scope.enclosing) (Scopes.get?_add_next ..)
    refine ⟨same.trans current, (whole.enclosing _ there).trans outer, kept'.names _ _ ?_⟩
    have bound : (m₁.scopes.define m.scopes.next x.lexeme v).lookup? m.scopes.next x.lexeme = some v :=
      (Scopes.lookup?_define (kept.scopes _ there)).trans (if_pos ⟨rfl, rfl⟩)
    change ((m₁.scopes.define m₁.current x.lexeme v).lookup? m.scopes.next x.lexeme).isSome
    rw [current, show m.opened.current = m.scopes.next from rfl, bound]
    rfl

end OneVariable

end Lox
