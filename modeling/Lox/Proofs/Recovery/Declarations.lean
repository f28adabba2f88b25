import Lox.Proofs.Recovery.Extension

/-! # Declarations with more tokens behind

A declaration that cannot be read is dropped up to the place where reading goes on. If that is
not the end of the tokens, it is the same place with more of them behind. -/

namespace Lox.Parse

/-- The same of the readers for what stands inside a statement. -/
structure Inner.Extending (n : Nat) (inner inner' : Inner) : Prop where
  statement : Parse.Extending n inner.statement inner'.statement
  declaration : Advancing n inner.declaration inner'.declaration

section Statements

variable {n : Nat} {inner inner' : Inner}

theorem resumeAfter_length (us : List Token) : ∀ t, (resumeAfter t us).length ≤ us.length := by
  induction us with
  | nil => exact fun _ => Nat.le_refl _
  | cons u us ih =>
    intro t
    unfold resumeAfter
    split
    · exact Nat.le_refl _
    · exact Nat.le_succ_of_le (ih u)

theorem resumeAfter_before {more : List Token} (us : List Token) : ∀ t, more = [] ∨ resumeAfter t us ≠ [] →
    resumeAfter t (us ++ more) = resumeAfter t us ++ more := by
  induction us with
  | nil =>
    intro t apart
    rw [apart.resolve_right fun h => h rfl]
    rfl
  | cons u us ih =>
    intro t apart
    rw [List.cons_append]
    unfold resumeAfter at apart ⊢
    split
    · rfl
    · rename_i goes
      rw [if_neg goes] at apart
      exact ih u apart

theorem recover_extending {α : Type} {p q : Parse α} (hp : Extending n p q)
    (costs : ∀ us, us.length ≤ n → Spends p us) : Advancing n (recover p) (recover q) := by
  intro us filled short
  obtain ⟨shrinks, same⟩ := hp us short
  have costs := costs us short
  unfold Spends at costs
  cases hr : p us with
  | mk value rest errors =>
    rw [hr] at shrinks same costs
    cases value with
    | some a =>
      have got : recover p us = ⟨some (some a), rest, errors⟩ := by simp only [recover, hr]
      refine ⟨⟨by rw [got]; exact shrinks, fun more apart => ?_⟩, fun _ => by rw [got]; exact costs rfl⟩
      rw [got] at apart ⊢
      simp only [recover, same more apart, Reply.before]
    | none =>
      have lost : recover p us = ⟨some none, resume rest, errors⟩ := by simp only [recover, hr]
      have fewer : (resume rest).length < us.length := by
        cases rest with
        | nil => exact List.length_pos_iff.mpr filled
        | cons t rest => exact Nat.lt_of_le_of_lt (resumeAfter_length rest t) shrinks
      refine ⟨⟨by rw [lost]; exact Nat.le_of_lt fewer, fun more apart => ?_⟩, fun _ => by rw [lost]; exact fewer⟩
      rw [lost] at apart ⊢
      have before : more = [] ∨ rest ≠ [] := apart.imp_right fun left e => left (by rw [e]; rfl)
      simp only [recover, same more before, Reply.before]
      rcases before with rfl | left
      · rw [List.append_nil, List.append_nil]
      · obtain ⟨t, rest, rfl⟩ := List.exists_cons_of_ne_nil left
        rw [List.cons_append, resume, resumeAfter_before rest t apart, resume]

theorem block_extending (hi : inner.Extending n inner') : Extending n (block inner) (block inner') := by
  refine Extending.bind ?_ fun items => (expect_extending _ _).bind fun _ => pure_extending _
  exact bounded_extending (p := untilKind .rightBrace inner.declaration)
    (q := untilKind .rightBrace inner'.declaration) fun b b' m =>
      untilKind_extending .rightBrace hi.declaration b b' m

theorem routine_extending (hi : inner.Extending n inner') (kind : RoutineKind) :
    Extending n (routine inner kind) (routine inner' kind) :=
  (expect_extending _ _).bind fun _ => (expect_extending _ _).bind fun _ =>
    (parenthesised_extending _ (expect_extending _ _)).bind fun _ => (expect_extending _ _).bind fun _ =>
    (expect_extending _ _).bind fun _ => (block_extending hi).bind fun _ => pure_extending _

theorem routine_spends (hi : inner.Extending n inner') (kind : RoutineKind) {us : List Token}
    (short : us.length ≤ n) : Spends (routine inner kind) us := by
  have signed (name : Token) : Extending n
      (do
        let _ ← expect .leftParen (.noParameterList kind)
        let params ← parenthesised .parameters (expect .identifier .noParameterName)
        let _ ← expect .rightParen .openParameterList
        let _ ← expect .leftBrace (.noRoutineBody kind)
        let body ← block inner
        pure (⟨name, params, body⟩ : Routine (Stmt Unit))) _ :=
    (expect_extending _ _).bind fun _ => (parenthesised_extending _ (expect_extending _ _)).bind fun _ =>
      (expect_extending _ _).bind fun _ => (expect_extending _ _).bind fun _ =>
      (block_extending hi).bind fun _ => pure_extending _
  refine Spends.bind_left (expect_spends _ _ us) fun name => ?_
  exact (signed name _ (Nat.le_trans (expect_extending _ _ us short).shrinks short)).shrinks

theorem parentClause_extending : Extending n parentClause parentClause :=
  take?_extending (fun _ => (expect_extending _ _).bind fun _ => pure_extending _) (pure_extending none)

theorem classDeclaration_extending (hi : inner.Extending n inner') :
    Extending n (classDeclaration inner) (classDeclaration inner') := by
  have methods : Advancing n (routine inner .method) (routine inner' .method) := fun us _ short =>
    ⟨routine_extending hi .method us short, routine_spends hi .method short⟩
  refine (expect_extending _ _).bind fun _ => parentClause_extending.bind fun _ => (expect_extending _ _).bind
    fun _ => Extending.bind ?_ fun _ => (expect_extending _ _).bind fun _ => pure_extending _
  exact bounded_extending (p := untilKind .rightBrace (routine inner .method))
    (q := untilKind .rightBrace (routine inner' .method)) fun b b' m =>
      untilKind_extending .rightBrace methods b b' m

theorem variableDeclaration_extending : Extending n variableDeclaration variableDeclaration := by
  have closed (name : Token) (initial : Option (Expr Unit)) : Extending n
      (do let _ ← expect .semicolon .openDeclaration; pure (Stmt.declare name initial))
      (do let _ ← expect .semicolon .openDeclaration; pure (Stmt.declare name initial)) :=
    (expect_extending _ _).bind fun _ => pure_extending _
  refine (expect_extending _ _).bind fun name => take?_extending (fun _ => ?_) ?_
  · exact wholeExpression_extending.map.bind fun _ => (closed name _).mono (Nat.sub_le n 1)
  · exact (pure_extending none).bind (closed name)

theorem expressionStatement_extending : Extending n expressionStatement expressionStatement :=
  wholeExpression_extending.bind fun _ => (expect_extending _ _).bind fun _ => pure_extending _

theorem expressionStatement_spends (us : List Token) : Spends expressionStatement us := by
  refine Spends.bind_right (wholeExpression_extending us (Nat.le_refl _)).shrinks fun value => ?_
  exact Spends.bind_left (expect_spends _ _ _) fun _ => Nat.le_refl _

theorem printStatement_extending : Extending n printStatement printStatement :=
  wholeExpression_extending.bind fun _ => (expect_extending _ _).bind fun _ => pure_extending _

theorem returnStatement_extending (keyword : Token) :
    Extending n (returnStatement keyword) (returnStatement keyword) :=
  (unlessKind_extending _ wholeExpression_extending).bind fun _ => (expect_extending _ _).bind
    fun _ => pure_extending _

theorem ifStatement_extending (hi : inner.Extending n inner') :
    Extending n (ifStatement inner) (ifStatement inner') := by
  refine (expect_extending _ _).bind fun _ => wholeExpression_extending.bind fun _ =>
    (expect_extending _ _).bind fun _ => hi.statement.bind fun _ => take?_extending (fun _ => ?_) ?_
  · exact (hi.statement.mono (Nat.sub_le n 1)).map.bind fun _ => pure_extending _
  · exact (pure_extending none).bind fun _ => pure_extending _

theorem whileStatement_extending (hi : inner.Extending n inner') :
    Extending n (whileStatement inner) (whileStatement inner') :=
  (expect_extending _ _).bind fun _ => wholeExpression_extending.bind fun _ =>
    (expect_extending _ _).bind fun _ => hi.statement.bind fun _ => pure_extending _

theorem firstClause_extending : Extending n firstClause firstClause := by
  refine take?_extending (fun _ => pure_extending none) (take?_extending (fun _ => ?_) ?_)
  · exact variableDeclaration_extending.map
  · exact expressionStatement_extending.map

theorem forStatement_extending (hi : inner.Extending n inner') :
    Extending n (forStatement inner) (forStatement inner') :=
  (expect_extending _ _).bind fun _ => firstClause_extending.bind fun _ =>
    (unlessKind_extending _ wholeExpression_extending).bind fun _ => (expect_extending _ _).bind fun _ =>
    (unlessKind_extending _ wholeExpression_extending).bind fun _ => (expect_extending _ _).bind fun _ =>
    hi.statement.bind fun _ => pure_extending _

theorem statementFrom?_extending (hi : inner.Extending n inner') (t : Token) :
    Option.Rel (Extending n) (statementFrom? inner t) (statementFrom? inner' t) := by
  unfold statementFrom?
  split
  · exact .some (forStatement_extending hi)
  · exact .some (ifStatement_extending hi)
  · exact .some printStatement_extending
  · exact .some (returnStatement_extending t)
  · exact .some (whileStatement_extending hi)
  · exact .some (block_extending hi).map
  · exact .none

theorem declarationFrom?_extending (hi : inner.Extending n inner') (t : Token) :
    Option.Rel (Extending n) (declarationFrom? inner t) (declarationFrom? inner' t) := by
  unfold declarationFrom?
  split
  · exact .some (classDeclaration_extending hi)
  · exact .some (routine_extending hi .function).map
  · exact .some variableDeclaration_extending
  · exact .none

theorem statement_extending (hi : inner.Extending n inner') :
    Extending (n + 1) (statement inner) (statement inner') :=
  choose_extending (statementFrom?_extending hi) expressionStatement_extending

/-- What a declaration is read with, but for the recovery. -/
def core (inner : Inner) : Parse (Stmt Unit) := choose (declarationFrom? inner) (statement inner)

theorem core_extending (hi : inner.Extending n inner') : Extending (n + 1) (core inner) (core inner') :=
  choose_extending (declarationFrom?_extending hi) (statement_extending hi)

theorem core_spends (hi : inner.Extending n inner') {us : List Token} (short : us.length ≤ n + 1) :
    Spends (core inner) us := by
  have begun {f g : Token → Option (Parse (Stmt Unit))} (h : ∀ t, Option.Rel (Extending n) (f t) (g t)) (t : Token)
      (p : Parse (Stmt Unit)) (hf : f t = some p) (us : List Token) (short : us.length + 1 ≤ n + 1) :
      (p us).rest.length ≤ us.length := by
    have chosen := h t
    rw [hf] at chosen
    generalize g t = q at chosen
    cases chosen with
    | some hp => exact (hp us (Nat.le_of_succ_le_succ short)).shrinks
  exact choose_spends (begun (declarationFrom?_extending hi))
    (fun us short => choose_spends (begun (statementFrom?_extending hi))
      (fun us _ => expressionStatement_spends us) short) short

theorem declaration_advancing (hi : inner.Extending n inner') :
    Advancing (n + 1) (declaration inner) (declaration inner') :=
  recover_extending (core_extending hi) fun _ short => core_spends hi short

theorem advancing_zero {α : Type} (p q : Parse α) : Advancing 0 p q := fun _ filled short =>
  absurd (List.eq_nil_of_length_eq_zero (Nat.le_zero.mp short)) filled

theorem innerWithin_nil (b : List Token) : (innerWithin b).statement [] = reject .noExpression [] := by
  cases b <;> rfl

theorem innerWithin_extending : ∀ (b b' : List Token) (n : Nat), n ≤ b.length + 1 → n ≤ b'.length + 1 →
    (innerWithin b).Extending n (innerWithin b') := by
  have mono {m n : Nat} {inner inner' : Inner} (h : inner.Extending n inner') (le : m ≤ n) :
      inner.Extending m inner' := ⟨h.statement.mono le, h.declaration.mono le⟩
  have deeper {n : Nat} {inner inner' : Inner} (h : inner.Extending n inner') : Inner.Extending (n + 1)
      ⟨statement inner, declaration inner⟩ ⟨statement inner', declaration inner'⟩ :=
    ⟨statement_extending h, declaration_advancing h⟩
  intro b
  induction b with
  | nil =>
    intro b' n long _
    refine mono (n := 0 + 1) ?_ long
    cases b' with
    | nil => exact deeper ⟨reject_extending _, advancing_zero _ _⟩
    | cons b' bs' => exact deeper ⟨extending_zero rfl (innerWithin_nil bs'), advancing_zero _ _⟩
  | cons b bs ih =>
    intro b' n long long'
    cases b' with
    | nil =>
      refine mono (n := 0 + 1) (deeper ⟨extending_zero ?_ ?_, advancing_zero _ _⟩) long'
      · rw [innerWithin_nil]
        rfl
      · rw [innerWithin_nil]
    | cons b' bs' =>
      simp only [List.length_cons] at long long'
      exact mono (deeper (ih bs' (n - 1) (by omega) (by omega))) (by omega)

end Statements

end Lox.Parse
