import Lox.Proofs.Printing.Writing

/-! # How trees begin

The first token of a tree tells what kind of tree it is. -/

namespace Lox

/-- Tokens the first of which is of such a kind. -/
def Starts (S : Kind → Bool) (ts : List Token) : Prop := ∃ t us, ts = t :: us ∧ S t.kind = true

namespace Starts

variable {S S' : Kind → Bool} {t : Token} {ts : List Token}

theorem cons (h : S t.kind = true) : Starts S (t :: ts) := ⟨t, ts, rfl, h⟩

/-- A first token of a known kind. -/
theorem kind {k : Kind} (hk : t.kind = k) (h : S k = true) : Starts S (t :: ts) := cons (hk ▸ h)

theorem append (h : Starts S ts) (us : List Token) : Starts S (ts ++ us) := by
  obtain ⟨t, ts, rfl, ht⟩ := h
  exact cons ht

theorem mono (h : Starts S ts) (hS : ∀ k, S k = true → S' k = true) : Starts S' ts := by
  obtain ⟨t, us, e, ht⟩ := h
  exact ⟨t, us, e, hS _ ht⟩

end Starts

theorem beginsExpression_of_operand (k : Kind) (h : k.beginsOperand = true) :
    k.beginsExpression = true := by simp [Kind.beginsExpression, h]

theorem Token.beginsOperand_of_denotes {t : Token} {v : Literal} (h : t.denotes? = some v) :
    t.kind.beginsOperand = true := by
  cases hk : t.kind <;> simp_all [denotes?, Kind.beginsOperand]

/-- What can be called begins with an operand. -/
theorem Expr.Writes.startsOperand : ∀ {e : Expr Unit} {ts : List Token}, e.Writes ts → e.rank = 0 →
    Starts Kind.beginsOperand ts
  | .literal _, _, h, _ => by
    cases h with
    | literal h => exact .cons (Token.beginsOperand_of_denotes h)
  | .grouping _, _, h, _ => by
    cases h with
    | grouping hl => exact .kind hl rfl
  | .unary _ _, _, _, hk => by cases hk
  | .binary _ _ _, _, _, hk => by cases hk
  | .logical _ _ _, _, _, hk => by cases hk
  | .assign _ _, _, _, hk => by cases hk
  | .set _ _ _, _, _, hk => by cases hk
  | .name _, _, h, _ => by
    cases h with
    | name ht => exact .kind ht rfl
  | .call _ _ _, _, h, _ => by
    cases h with
    | call hc hk => exact (hc.startsOperand hk).append _
  | .get _ _, _, h, _ => by
    cases h with
    | get ho hk => exact (ho.startsOperand hk).append _
  | .this _, _, h, _ => by
    cases h with
    | this ht => exact .kind ht rfl
  | .super _ _, _, h, _ => by
    cases h with
    | super ht => exact .kind ht rfl

theorem Expr.Writes.starts : ∀ {e : Expr Unit} {ts : List Token}, e.Writes ts →
    Starts Kind.beginsExpression ts
  | .unary _ _, _, h => by
    cases h with
    | unary ho =>
      refine .cons ?_
      simp only [Parse.isUnary, Bool.or_eq_true] at ho
      rcases ho with ho | ho
      · simp [Kind.beginsExpression, ho]
      · simp [Kind.beginsExpression, ho]
  | .binary _ _ _, _, h => by
    cases h with
    | binary _ hl => exact hl.starts.append _
  | .logical _ _ _, _, h => by
    cases h with
    | logical _ hl => exact hl.starts.append _
  | .assign _ _, _, h => by
    cases h with
    | assign ht => exact .kind ht rfl
  | .set _ _ _, _, h => by
    cases h with
    | set ho => exact ho.starts.append _
  | .literal _, _, h | .grouping _, _, h | .name _, _, h | .call _ _ _, _, h | .get _ _, _, h
  | .this _, _, h | .super _ _, _, h => (h.startsOperand rfl).mono beginsExpression_of_operand

theorem Stmt.Writes.startsStatement {s : Stmt Unit} {o : Bool} {ts : List Token} (h : s.Writes o ts)
    (hd : s.declared? = none) : Starts Kind.beginsStatement ts := by
  have expression (k : Kind) (hk : k.beginsExpression = true) : k.beginsStatement = true := by
    simp [Kind.beginsStatement, hk]
  cases h with
  | expression h => exact (h.starts.append _).mono expression
  | print hk => exact .kind hk rfl
  | block hk => exact .kind hk rfl
  | branch hk => exact .kind hk rfl
  | choice hk => exact .kind hk rfl
  | loop hk => exact .kind hk rfl
  | leave hk => exact .kind hk rfl
  | counting _ hk => exact .kind hk rfl
  | declare => cases hd
  | define => cases hd
  | function => cases hd
  | klass => cases hd

theorem Stmt.Writes.starts {s : Stmt Unit} {o : Bool} {ts : List Token} (h : s.Writes o ts) :
    Starts Kind.beginsDeclaration ts := by
  cases hd : s.declared? with
  | none => exact (h.startsStatement hd).mono fun k hk => by simp [Kind.beginsDeclaration, hk]
  | some x =>
    cases h with
    | declare hk => exact .kind hk rfl
    | define hk => exact .kind hk rfl
    | function hk => exact .kind hk rfl
    | klass hk => exact .kind hk rfl
    | counting _ hk => exact .kind hk rfl
    | expression => cases hd
    | print => cases hd
    | block => cases hd
    | branch => cases hd
    | choice => cases hd
    | loop => cases hd
    | leave => cases hd

theorem Routine.Writes.starts {σ : Type} {S : σ → List Token → Prop} {r : Routine σ} {ts : List Token}
    (h : Routine.Writes S r ts) : Starts (· == .identifier) ts := by
  cases h with
  | mk hn => exact .kind hn rfl

end Lox
