import Lox.Proofs.Loops.Rounds
import Lox.Proofs.Returning.Shedding

/-! # Where a return goes

A return is passed up through rows, arms and loops unchanged, and a call takes it. A
program that has no return outside its routines has nowhere else for one to go, and that
is so of every program that is accepted. -/

namespace Lox

/-! ## Returns outside all routines -/

section Trees

variable {μ : Type}

mutual

/-- No return stands in a statement outside the routines that it declares. -/
def Stmt.Stays : Stmt μ → Prop
  | .expression _ | .print _ | .declare _ _ | .function _ | .klass _ _ _ => True
  | .block body => Stmt.AllStay body
  | .branch _ yes no => yes.Stays ∧ Stmt.Stays? no
  | .loop _ body => body.Stays
  | .leave _ _ => False

def Stmt.Stays? : Option (Stmt μ) → Prop
  | none => True
  | some s => s.Stays

def Stmt.AllStay : List (Stmt μ) → Prop
  | [] => True
  | s :: rest => s.Stays ∧ Stmt.AllStay rest

end

theorem Stmt.Stays.isReturn {s : Stmt μ} (h : s.Stays) : s.isReturn = false := by
  cases s with
  | leave keyword value => exact h.elim
  | _ => rfl

theorem Stmt.allStay_iff (row : List (Stmt μ)) : Stmt.AllStay row ↔ ∀ s ∈ row, s.Stays := by
  induction row with
  | nil => simp [Stmt.AllStay]
  | cons s rest ih => simp [Stmt.AllStay, ih]

theorem Spot.reports_append_nil {a b : List (Place × Spot)} (h : Spot.reports (a ++ b) = []) :
    Spot.reports a = [] ∧ Spot.reports b = [] := by
  rwa [Spot.reports_append, List.append_eq_nil_iff] at h

mutual

/-- Outside all routines a return is reported. -/
theorem Stmt.stays : ∀ (s : Stmt μ) (p : Place), p.routine? = none → Spot.reports (s.spots p) = [] →
    s.Stays
  | .expression _, _, _, _ | .print _, _, _, _ | .declare _ _, _, _, _ | .function _, _, _, _
  | .klass _ _ _, _, _, _ => trivial
  | .block body, p, hp, h => Stmt.allStay body p.block hp h
  | .branch _ yes no, p, hp, h =>
    have arms := Spot.reports_append_nil (Spot.reports_append_nil h).2
    ⟨yes.stays p hp arms.1, Stmt.stays? no p hp arms.2⟩
  | .loop _ body, p, hp, h => body.stays p hp (Spot.reports_append_nil h).2
  | .leave keyword value, p, hp, h => by
    rw [Stmt.spots, Spot.reports_cons, List.append_eq_nil_iff] at h
    simp [Spot.reports, Spot.report?, Spot.complaint?, hp] at h

theorem Stmt.stays? : ∀ (s : Option (Stmt μ)) (p : Place), p.routine? = none →
    Spot.reports (Stmt.spots? s p) = [] → Stmt.Stays? s
  | none, _, _, _ => trivial
  | some s, p, hp, h => s.stays p hp h

theorem Stmt.allStay : ∀ (row : List (Stmt μ)) (p : Place), p.routine? = none →
    Spot.reports (Stmt.rowSpots row p) = [] → Stmt.AllStay row
  | [], _, _, _ => trivial
  | s :: rest, p, hp, h =>
    have parts := Spot.reports_append_nil h
    ⟨s.stays p hp parts.1, Stmt.allStay rest (p.behind s.declared?.toList) hp parts.2⟩

end

/-- No statement of a program that deserves no report has a return outside all routines. -/
theorem Stmt.stays_of_reports {program : List (Stmt μ)} (h : Stmt.reports program = []) :
    ∀ s ∈ program, s.Stays :=
  (Stmt.allStay_iff program).mp (Stmt.allStay program .outermost rfl h)

end Trees

/-! ## Statements that only complete -/

namespace Run

/-- An action that ends in a fault or in completion. -/
def Completes (act : Run Outcome) : Prop := ∀ m o m', act m = .ok o m' → o = .completed

variable {α : Type}

theorem completes_pure : Completes (pure .completed) := fun _ _ _ h => by cases h; rfl

theorem completes_throw (e : Fault) : Completes (throw e) := fun _ _ _ h => by cases h

theorem completes_bind {x : Run α} {f : α → Run Outcome} (h : ∀ a, Completes (f a)) :
    Completes (x >>= f) := by
  intro m o m' hm
  obtain ⟨a, m₁, -, rest⟩ := bind_eq_ok hm
  exact h a m₁ o m' rest

theorem completes_then {x : Run Outcome} {f : Outcome → Run Outcome} (hx : Completes x)
    (hf : Completes (f .completed)) : Completes (x >>= f) := by
  intro m o m' hm
  obtain ⟨a, m₁, first, rest⟩ := bind_eq_ok hm
  obtain rfl := hx m a m₁ first
  exact hf m₁ o m' rest

theorem completes_within (scope : Ref .scope) {x : Run Outcome} (h : Completes x) :
    Completes (within scope x) := by
  intro m o m' hm
  rw [within_eq, ensuring] at hm
  cases hr : x { m with current := scope } with
  | error e m₁ => simp [hr] at hm
  | ok a m₁ =>
    rw [hr] at hm
    cases hm
    exact h _ _ _ hr

end Run

/-- The value of a call whose body ends in the given way. -/
def Outcome.value : Outcome → Value
  | .returned v => v
  | .completed => .nil

namespace Level

open Run

variable {below : Level}

theorem executeAll_completes (h : ∀ s : Stmt Nat, s.Stays → (below.stmt s).Completes)
    (row : List (Stmt Nat)) (hr : Stmt.AllStay row) : (below.executeAll row).Completes := by
  induction row with
  | nil => exact completes_pure
  | cons s rest ih => exact completes_then (h s hr.1) (ih hr.2)

theorem cycle_completes (condition : Expr Nat) {body : Stmt Nat} (h : (below.stmt body).Completes) :
    ∀ n, (below.cycle condition body n).Completes
  | 0 => completes_throw _
  | n + 1 => by
    refine completes_bind fun v => ?_
    split
    · exact completes_then h (cycle_completes condition h n)
    · exact completes_pure

theorem execute_completes (h : ∀ s : Stmt Nat, s.Stays → (below.stmt s).Completes) (rounds : Nat)
    (s : Stmt Nat) (hs : s.Stays) : (below.execute rounds s).Completes := by
  cases s with
  | expression value => exact completes_bind fun _ => completes_pure
  | print value =>
    exact completes_bind fun _ => completes_bind fun _ => completes_bind fun _ => completes_pure
  | declare name initial => exact completes_bind fun _ => completes_bind fun _ => completes_pure
  | block body =>
    exact completes_bind fun _ => completes_bind fun scope =>
      completes_within scope (executeAll_completes h body hs)
  | branch condition yes no =>
    refine completes_bind fun v => ?_
    split
    · exact h yes hs.1
    · cases no with
      | none => exact completes_pure
      | some no => exact h no hs.2
  | loop condition body => exact cycle_completes condition (h body hs) rounds
  | function routine => exact completes_bind fun _ => completes_pure
  | leave keyword value => exact hs.elim
  | klass name parent methods => exact completes_bind fun _ => completes_pure

theorem stmt_completes (rounds n : Nat) :
    ∀ s : Stmt Nat, s.Stays → ((ofDepth rounds n).stmt s).Completes := by
  induction n with
  | zero => exact fun _ _ => completes_throw _
  | succ n ih => exact fun s hs => execute_completes ih rounds s hs

/-! ## Statements that return -/

/-- What stands behind a statement that returns does not run. -/
theorem executeAll_returned {row : List (Stmt Nat)} {m m' : Machine} {v : Value}
    (h : below.executeAll row m = .ok (.returned v) m') (rest : List (Stmt Nat)) :
    below.executeAll (row ++ rest) m = .ok (.returned v) m' := by
  induction row generalizing m with
  | nil => cases h
  | cons s row ih =>
    rw [executeAll] at h
    obtain ⟨o, m₁, first, others⟩ := bind_eq_ok h
    rw [List.cons_append, executeAll, bind_ok first]
    cases o with
    | completed => exact ih others
    | returned w => exact others

/-- A block ends when its row returns, and the machine is back in the scope around it. -/
theorem block_returned {body : List (Stmt Nat)} {m m' : Machine} {v : Value}
    (h : below.executeAll body m.opened = .ok (.returned v) m') (rounds : Nat) :
    below.execute rounds (.block body) m = .ok (.returned v) { m' with current := m.current } := by
  let added : Machine := { m with scopes := m.scopes.add .empty (some m.current) }
  have inside : Run.within m.scopes.next (below.executeAll body) added =
      .ok (.returned v) { m' with current := m.current } := by
    rw [within_eq]
    exact ensuring_ok h
  exact inside

theorem yes_returned {condition : Expr Nat} {yes : Stmt Nat} {m m₁ m₂ : Machine} {t v : Value}
    (hc : below.expr condition m = .ok t m₁) (ht : t.isTruthy = true)
    (hy : below.stmt yes m₁ = .ok (.returned v) m₂) (no : Option (Stmt Nat)) (rounds : Nat) :
    below.execute rounds (.branch condition yes no) m = .ok (.returned v) m₂ := by
  refine (bind_ok hc).trans ?_
  rw [if_pos ht]
  exact hy

theorem no_returned {condition : Expr Nat} {no : Stmt Nat} {m m₁ m₂ : Machine} {t v : Value}
    (hc : below.expr condition m = .ok t m₁) (ht : t.isTruthy = false)
    (hn : below.stmt no m₁ = .ok (.returned v) m₂) (yes : Stmt Nat) (rounds : Nat) :
    below.execute rounds (.branch condition yes (some no)) m = .ok (.returned v) m₂ := by
  refine (bind_ok hc).trans ?_
  rw [if_neg (ne_true_of_eq_false ht)]
  exact hn

/-- A loop ends in the round in which its body returns, if it is not cut short before that. -/
theorem Rounds.returned {condition : Expr Nat} {body : Stmt Nat} {m m₁ m₂ m₃ : Machine} {t v : Value}
    (h : below.Rounds condition body m m₁) (hc : below.expr condition m₁ = .ok t m₂)
    (ht : t.isTruthy = true) (hb : below.stmt body m₂ = .ok (.returned v) m₃) :
    ∃ k, ∀ rounds, k < rounds → below.execute rounds (.loop condition body) m = .ok (.returned v) m₃ := by
  obtain ⟨k, behind⟩ := h.cycle_eq
  refine ⟨k, fun rounds hk => ?_⟩
  obtain ⟨n, rfl⟩ := Nat.exists_eq_add_of_lt hk
  change below.cycle condition body (k + n + 1) m = _
  rw [Nat.add_assoc, behind, cycle, bind_ok hc, if_pos ht, bind_ok hb]
  rfl

/-- A call goes on with the value that its body returns, and with `nil` if it returns none.
Whatever the body has done, the caller is back in its own scope. -/
theorem enter_value {f : Closure} (hf : f.isInitializer = false) (arguments : List Value)
    {m m' : Machine} {outcome : Outcome}
    (h : below.executeAll f.routine.body
      { m with
        scopes := m.scopes.add (.ofList ((f.routine.params.map (·.lexeme)).zip arguments)) (some f.scope)
        current := m.scopes.next } = .ok outcome m') :
    below.enter f arguments m = .ok outcome.value { m' with current := m.current } := by
  let opened : Machine := { m with
    scopes := m.scopes.add (.ofList ((f.routine.params.map (·.lexeme)).zip arguments)) (some f.scope) }
  have opening : Run.newScope (.ofList ((f.routine.params.map (·.lexeme)).zip arguments)) f.scope m =
      .ok m.scopes.next opened := rfl
  have inside : Run.within m.scopes.next (below.executeAll f.routine.body) opened =
      .ok outcome { m' with current := m.current } := by
    rw [within_eq]
    exact ensuring_ok h
  rw [enter]
  refine (bind_ok opening).trans ((bind_ok inside).trans ?_)
  rw [hf]
  cases outcome <;> rfl

/-- That is the value of the expression that calls the function. -/
theorem evaluate_call {callee : Expr Nat} {paren : Token} {arguments : List (Expr Nat)} {f : Ref .function}
    {c : Closure} {vs : List Value} {v : Value} {m m₁ m₂ m₃ : Machine}
    (hf : below.expr callee m = .ok (.function f) m₁) (ha : below.evaluateAll arguments m₁ = .ok vs m₂)
    (hc : m₂.functions.get? f = some c) (count : vs.length = c.arity)
    (entered : below.enter c vs m₂ = .ok v m₃) :
    below.evaluate (.call callee paren arguments) m = .ok v m₃ := by
  have counted : checkCount paren c.arity vs m₂ = .ok () m₂ := by
    rw [checkCount, if_pos count]
    rfl
  calc below.evaluate (.call callee paren arguments) m
    _ = (below.evaluateAll arguments >>= below.call (.function f) paren) m₁ := bind_ok hf
    _ = below.call (.function f) paren vs m₂ := bind_ok ha
    _ = (checkCount paren c.arity vs >>= fun _ => below.enter c vs) m₂ := bind_ok (functionAt_eq hc)
    _ = below.enter c vs m₂ := bind_ok counted
    _ = .ok v m₃ := entered

end Level

end Lox
