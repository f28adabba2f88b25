import Lox.Parse.Program
import Lox.Proofs.Likeness.Trees

/-! # Like tokens make like trees

A reader decides by the kinds of tokens, and takes the value of a literal from its
token. So readers reply alike to like tokens, in what they report and in what they
leave as much as in what they read. -/

namespace Lox

variable (T : Token → Token → Prop)

structure SyntaxError.Like (e e' : SyntaxError) : Prop where
  problem : e'.problem = e.problem
  token : Option.Rel T e.token e'.token

structure Reply.Like {α β : Type} (R : α → β → Prop) (r : Reply α) (r' : Reply β) : Prop where
  value : Option.Rel R r.value r'.value
  rest : List.Forall₂ T r.rest r'.rest
  errors : List.Forall₂ (SyntaxError.Like T) r.errors r'.errors

namespace Parse

/-- Readers that reply alike to like tokens. -/
def Like {α β : Type} (R : α → β → Prop) (p : Parse α) (q : Parse β) : Prop :=
  ∀ ts us, List.Forall₂ T ts us → (p ts).Like T R (q us)

variable {T} {α β γ δ : Type} {R : α → β → Prop} {S : γ → δ → Prop} {p : Parse α} {q : Parse β}

theorem pure_like {a : α} {b : β} (h : R a b) : Like T R (pure a) (pure b) :=
  fun _ _ ht => ⟨.some h, ht, .nil⟩

theorem bind_like {f : α → Parse γ} {g : β → Parse δ} (hp : Like T R p q)
    (hf : ∀ a b, R a b → Like T S (f a) (g b)) : Like T S (p >>= f) (q >>= g) := by
  intro ts us ht
  change Reply.Like T S (Parse.bind p f ts) (Parse.bind q g us)
  obtain ⟨value, rest, errors⟩ := hp ts us ht
  unfold Parse.bind
  generalize p ts = r at value rest errors
  generalize q us = r' at value rest errors
  obtain ⟨v, left, es⟩ := r
  obtain ⟨v', left', es'⟩ := r'
  cases value with
  | none => exact ⟨.none, rest, errors⟩
  | some h =>
    obtain ⟨value', rest', errors'⟩ := hf _ _ h left left' rest
    exact ⟨value', rest', List.rel_append errors errors'⟩

theorem map_like {f : α → γ} {g : β → δ} (hp : Like T R p q) (hf : ∀ a b, R a b → S (f a) (g b)) :
    Like T S (f <$> p) (g <$> q) :=
  bind_like hp fun a b h => pure_like (hf a b h)

theorem report_like (problem : SyntaxProblem) {t u : Option Token} (h : Option.Rel T t u) :
    Like T Eq (report problem t) (report problem u) :=
  fun _ _ ht => ⟨.some rfl, ht, .cons ⟨rfl, h⟩ .nil⟩

theorem head?_like {ts us : List Token} (h : List.Forall₂ T ts us) :
    Option.Rel T ts.head? us.head? := by
  cases h with
  | nil => exact .none
  | cons h _ => exact .some h

theorem complain_like (problem : SyntaxProblem) : Like T Eq (complain problem) (complain problem) :=
  fun _ _ ht => report_like problem (head?_like ht) _ _ ht

theorem reject_like (problem : SyntaxProblem) : Like T R (reject problem) (reject problem) :=
  fun _ _ ht => ⟨.none, ht, .cons ⟨rfl, head?_like ht⟩ .nil⟩

theorem bounded_like {p : List Token → Parse α} {q : List Token → Parse β}
    (h : ∀ ts us, List.Forall₂ T ts us → Like T R (p ts) (q us)) : Like T R (bounded p) (bounded q) :=
  fun _ _ ht => h _ _ ht _ _ ht

theorem choose_like {f : Token → Option (Parse α)} {g : Token → Option (Parse β)}
    (h : ∀ t u, T t u → Option.Rel (Like T R) (f t) (g u)) (ho : Like T R p q) :
    Like T R (choose f p) (choose g q) := by
  intro ts us ht
  cases ht with
  | nil => exact ho _ _ .nil
  | @cons t u _ _ h₁ hs =>
    have chosen := h t u h₁
    simp only [choose]
    generalize f t = r at chosen
    generalize g u = r' at chosen
    cases chosen with
    | none => exact ho _ _ (.cons h₁ hs)
    | some hc => exact hc _ _ hs

variable (hT : ∀ t u, T t u → t.SameText u)
include hT

theorem atKind_like (kind : Kind) : Like T Eq (atKind kind) (atKind kind) := by
  intro ts us ht
  refine ⟨.some ?_, ht, .nil⟩
  cases ht with
  | nil => rfl
  | cons h _ => simp only [List.head?_cons, Option.any_some, (hT _ _ h).kind]

theorem endsAt_like (kind : Kind) : Like T Eq (endsAt kind) (endsAt kind) := by
  intro ts us ht
  refine ⟨.some ?_, ht, .nil⟩
  cases ht with
  | nil => rfl
  | cons h _ => simp only [List.head?_cons, Option.all_some, (hT _ _ h).kind]

theorem take?_like (test : Kind → Bool) : Like T (Option.Rel T) (take? test) (take? test) := by
  intro ts us ht
  cases ht with
  | nil => exact ⟨.some .none, .nil, .nil⟩
  | @cons t u _ _ h hs =>
    simp only [take?, (hT t u h).kind]
    split
    · exact ⟨.some (.some h), hs, .nil⟩
    · exact ⟨.some .none, .cons h hs, .nil⟩

theorem expect_like (kind : Kind) (problem : SyntaxProblem) :
    Like T T (expect kind problem) (expect kind problem) :=
  bind_like (take?_like hT _) fun _ _ h => by
    cases h with
    | none => exact reject_like problem
    | some h => exact pure_like h

theorem unlessKind_like (kind : Kind) (hp : Like T R p q) :
    Like T (Option.Rel R) (unlessKind kind p) (unlessKind kind q) :=
  bind_like (atKind_like hT kind) fun here _ e => by
    cases e
    cases here with
    | true => exact pure_like .none
    | false => exact map_like hp fun _ _ h => .some h

theorem untilKind_like (kind : Kind) (hp : Like T R p q) : ∀ ts us, List.Forall₂ T ts us →
    Like T (List.Forall₂ R) (untilKind kind p ts) (untilKind kind q us)
  | _, _, .nil => pure_like .nil
  | _ :: ts, _ :: us, .cons _ ht =>
    bind_like (endsAt_like hT kind) fun here _ e => by
      cases e
      cases here with
      | true => exact pure_like .nil
      | false =>
        exact bind_like hp fun _ _ h => bind_like (untilKind_like kind hp ts us ht) fun _ _ hs =>
          pure_like (.cons h hs)

omit hT in
theorem checkRoom_like (what : Listed) (seen : Nat) :
    Like T Eq (checkRoom what seen) (checkRoom what seen) := by
  unfold checkRoom
  split
  · exact complain_like _
  · exact pure_like rfl

theorem commaList_like (what : Listed) (hp : Like T R p q) : ∀ seen ts us, List.Forall₂ T ts us →
    Like T (List.Forall₂ R) (commaList what p seen ts) (commaList what q seen us)
  | seen, _, _, .nil =>
    bind_like (checkRoom_like what seen) fun _ _ _ => bind_like hp fun _ _ h =>
      pure_like (.cons h .nil)
  | seen, _ :: ts, _ :: us, .cons _ ht =>
    bind_like (checkRoom_like what seen) fun _ _ _ => bind_like hp fun _ _ h =>
      bind_like (take?_like hT _) fun _ _ comma => by
        cases comma with
        | none => exact pure_like (.cons h .nil)
        | some _ =>
          exact bind_like (commaList_like what hp (seen + 1) ts us ht) fun _ _ hs =>
            pure_like (.cons h hs)

theorem parenthesised_like (what : Listed) (hp : Like T R p q) :
    Like T (List.Forall₂ R) (parenthesised what p) (parenthesised what q) :=
  bind_like (atKind_like hT .rightParen) fun here _ e => by
    cases e
    cases here with
    | true => exact pure_like .nil
    | false =>
      exact bounded_like (p := commaList what p 0) (q := commaList what q 0) (commaList_like hT what hp 0)

/-! ## Expressions -/

section Expressions

variable {operand operand' expression expression' : Parse (Expr Unit)}
  {join : Expr Unit → Token → Expr Unit → Expr Unit}

theorem joined_like (operator : Kind → Bool)
    (hj : ∀ l l' op op' r r', Expr.Like T Eq l l' → T op op' → Expr.Like T Eq r r' →
      Expr.Like T Eq (join l op r) (join l' op' r'))
    (ho : Like T (Expr.Like T Eq) operand operand') : ∀ ts us, List.Forall₂ T ts us → ∀ l l',
    Expr.Like T Eq l l' →
      Like T (Expr.Like T Eq) (joined operator join operand l ts) (joined operator join operand' l' us)
  | _, _, .nil, _, _, hl => pure_like hl
  | _ :: ts, _ :: us, .cons _ ht, _, _, hl =>
    bind_like (take?_like hT operator) fun _ _ h => by
      cases h with
      | none => exact pure_like hl
      | some h =>
        exact bind_like ho fun _ _ hr => joined_like operator hj ho ts us ht _ _ (hj _ _ _ _ _ _ hl h hr)

theorem level_like (operator : Kind → Bool)
    (hj : ∀ l l' op op' r r', Expr.Like T Eq l l' → T op op' → Expr.Like T Eq r r' →
      Expr.Like T Eq (join l op r) (join l' op' r'))
    (ho : Like T (Expr.Like T Eq) operand operand') :
    Like T (Expr.Like T Eq) (level operator join operand) (level operator join operand') :=
  bind_like ho fun _ _ hl => bounded_like fun ts us ht => joined_like hT operator hj ho ts us ht _ _ hl

theorem binary_level_like (operator : Kind → Bool) (ho : Like T (Expr.Like T Eq) operand operand') :
    Like T (Expr.Like T Eq) (level operator .binary operand) (level operator .binary operand') :=
  level_like hT operator (fun _ _ _ _ _ _ hl h hr => .binary hl h hr) ho

theorem logical_level_like (operator : Kind → Bool) (ho : Like T (Expr.Like T Eq) operand operand') :
    Like T (Expr.Like T Eq) (level operator .logical operand) (level operator .logical operand') :=
  level_like hT operator (fun _ _ _ _ _ _ hl h hr => .logical hl h hr) ho

variable (he : Like T (Expr.Like T Eq) expression expression')
include he

theorem operandFrom?_like (t u : Token) (h : T t u) :
    Option.Rel (Like T (Expr.Like T Eq)) (operandFrom? expression t) (operandFrom? expression' u) := by
  unfold operandFrom?
  rw [(hT t u h).kind, (hT t u h).literal]
  split
  · exact .some (pure_like (.literal _))
  · exact .some (pure_like (.literal _))
  · exact .some (pure_like (.literal _))
  · exact .some (pure_like (.literal _))
  · exact .some (pure_like (.literal _))
  · exact .some (pure_like (.this ⟨rfl, h⟩))
  · exact .some (pure_like (.name ⟨rfl, h⟩))
  · exact .some (bind_like (expect_like hT _ _) fun _ _ _ => bind_like (expect_like hT _ _)
      fun _ _ hm => pure_like (.super ⟨rfl, h⟩ hm))
  · exact .some (bind_like he fun _ _ hi => bind_like (expect_like hT _ _) fun _ _ _ =>
      pure_like (.grouping hi))
  · exact .none

theorem primary_like : Like T (Expr.Like T Eq) (primary expression) (primary expression') :=
  choose_like (operandFrom?_like hT he) (reject_like _)

theorem suffixes_like : ∀ ts us, List.Forall₂ T ts us → ∀ e e', Expr.Like T Eq e e' →
    Like T (Expr.Like T Eq) (suffixes expression e ts) (suffixes expression' e' us)
  | _, _, .nil, _, _, h => pure_like h
  | _ :: ts, _ :: us, .cons _ ht, _, _, h =>
    bind_like (take?_like hT _) fun _ _ paren => by
      cases paren with
      | some _ =>
        exact bind_like (parenthesised_like hT _ he) fun _ _ ha =>
          bind_like (expect_like hT _ _) fun _ _ hp => suffixes_like ts us ht _ _ (.call h hp ha)
      | none =>
        refine bind_like (take?_like hT _) fun _ _ dot => ?_
        cases dot with
        | some _ =>
          exact bind_like (expect_like hT _ _) fun _ _ hp => suffixes_like ts us ht _ _ (.get h hp)
        | none => exact pure_like h

theorem call_like : Like T (Expr.Like T Eq) (call expression) (call expression') :=
  bind_like (primary_like hT he) fun _ _ h => bounded_like fun ts us ht => suffixes_like hT he ts us ht _ _ h

omit he in
theorem unaryOperators_like : Like T (List.Forall₂ T) unaryOperators unaryOperators := by
  intro ts us ht
  refine ⟨.some ?_, ?_, .nil⟩
  · induction ht with
    | nil => exact .nil
    | @cons t u _ _ h _ ih =>
      rw [List.takeWhile_cons, List.takeWhile_cons, (hT t u h).kind]
      split
      · exact .cons h ih
      · exact .nil
  · unfold unaryOperators
    induction ht with
    | nil => exact .nil
    | @cons t u _ _ h hs ih =>
      dsimp only at ih ⊢
      rw [List.dropWhile_cons, List.dropWhile_cons, (hT t u h).kind]
      split
      · exact ih
      · exact .cons h hs

omit hT he in
theorem unaries_like {e e' : Expr Unit} (h : Expr.Like T Eq e e') {ops ops' : List Token}
    (ho : List.Forall₂ T ops ops') : Expr.Like T Eq (ops.foldr .unary e) (ops'.foldr .unary e') := by
  induction ho with
  | nil => exact h
  | cons h _ ih => exact .unary h ih

theorem unary_like : Like T (Expr.Like T Eq) (unary expression) (unary expression') :=
  bind_like (unaryOperators_like hT) fun _ _ ho => bind_like (call_like hT he) fun _ _ h =>
    pure_like (unaries_like h ho)

theorem disjunction_like : Like T (Expr.Like T Eq) (disjunction expression) (disjunction expression') :=
  logical_level_like hT _ <| logical_level_like hT _ <| binary_level_like hT _ <|
    binary_level_like hT _ <| binary_level_like hT _ <| binary_level_like hT _ <| unary_like hT he

theorem assignment_like : Like T (Expr.Like T Eq) (assignment expression) (assignment expression') :=
  bind_like (disjunction_like hT he) fun _ _ target => bind_like (take?_like hT _) fun _ _ equals => by
    cases equals with
    | none => exact pure_like target
    | some h =>
      refine bind_like he fun _ _ value => ?_
      have bad := report_like .badTarget (.some h)
      cases target with
      | name place => exact pure_like (.assign place value)
      | get object property => exact pure_like (.set object property value)
      | literal => exact bind_like bad fun _ _ _ => pure_like (.literal _)
      | grouping h => exact bind_like bad fun _ _ _ => pure_like (.grouping h)
      | unary ho h => exact bind_like bad fun _ _ _ => pure_like (.unary ho h)
      | binary hl ho hr => exact bind_like bad fun _ _ _ => pure_like (.binary hl ho hr)
      | logical hl ho hr => exact bind_like bad fun _ _ _ => pure_like (.logical hl ho hr)
      | assign hr h => exact bind_like bad fun _ _ _ => pure_like (.assign hr h)
      | call hc hp ha => exact bind_like bad fun _ _ _ => pure_like (.call hc hp ha)
      | set ho hp hv => exact bind_like bad fun _ _ _ => pure_like (.set ho hp hv)
      | this h => exact bind_like bad fun _ _ _ => pure_like (.this h)
      | super h hm => exact bind_like bad fun _ _ _ => pure_like (.super h hm)

omit he in
theorem expressionWithin_like : ∀ ts us, List.Forall₂ T ts us →
    Like T (Expr.Like T Eq) (expressionWithin ts) (expressionWithin us)
  | _, _, .nil => assignment_like hT (reject_like _)
  | _ :: ts, _ :: us, .cons _ ht => assignment_like hT (expressionWithin_like ts us ht)

omit he in
theorem wholeExpression_like : Like T (Expr.Like T Eq) wholeExpression wholeExpression :=
  bounded_like (expressionWithin_like hT)

end Expressions

/-! ## Statements -/

omit hT in
theorem Stmt.counting_like {i i' : Option (Stmt Unit)} {c c' s s' : Option (Expr Unit)}
    {b b' : Stmt Unit} (hi : Option.Rel (Stmt.Like T Eq) i i') (hc : Option.Rel (Expr.Like T Eq) c c')
    (hs : Option.Rel (Expr.Like T Eq) s s') (hb : b.Like T Eq b') :
    (Stmt.counting i c s b).Like T Eq (.counting i' c' s' b') := by
  have condition : Expr.Like T Eq (c.getD (.literal (.bool true))) (c'.getD (.literal (.bool true))) := by
    cases hc with
    | none => exact .literal _
    | some h => exact h
  cases hi with
  | none =>
    cases hs with
    | none => exact .loop condition hb
    | some hs => exact .loop condition (.block (.cons hb (.cons (.expression hs) .nil)))
  | some hi =>
    cases hs with
    | none => exact .block (.cons hi (.cons (.loop condition hb) .nil))
    | some hs =>
      exact .block (.cons hi (.cons (.loop condition (.block (.cons hb (.cons (.expression hs) .nil)))) .nil))

theorem resumeAfter_like {ts us : List Token} (h : List.Forall₂ T ts us) : ∀ t u, T t u →
    List.Forall₂ T (resumeAfter t ts) (resumeAfter u us) := by
  induction h with
  | nil => exact fun _ _ _ => .nil
  | @cons t u _ _ h hs ih =>
    intro previous previous' hp
    unfold resumeAfter
    rw [(hT _ _ hp).kind, (hT t u h).kind]
    split
    · exact .cons h hs
    · exact ih t u h

theorem resume_like {ts us : List Token} (h : List.Forall₂ T ts us) :
    List.Forall₂ T (resume ts) (resume us) := by
  cases h with
  | nil => exact .nil
  | cons h hs => exact resumeAfter_like hT hs _ _ h

theorem recover_like (hp : Like T R p q) : Like T (Option.Rel R) (recover p) (recover q) := by
  intro ts us ht
  obtain ⟨value, rest, errors⟩ := hp ts us ht
  unfold recover
  generalize p ts = r at value rest errors
  generalize q us = r' at value rest errors
  obtain ⟨v, left, es⟩ := r
  obtain ⟨v', left', es'⟩ := r'
  cases value with
  | none => exact ⟨.some .none, resume_like hT rest, errors⟩
  | some h => exact ⟨.some (.some h), rest, errors⟩

omit hT in
theorem filterMap_like {as : List (Option α)} {bs : List (Option β)}
    (h : List.Forall₂ (Option.Rel R) as bs) : List.Forall₂ R (as.filterMap id) (bs.filterMap id) := by
  induction h with
  | nil => exact .nil
  | cons h _ ih =>
    cases h with
    | none => exact ih
    | some h => exact .cons h ih

variable (T) in
/-- Readers for what stands inside that are alike. -/
structure Inner.Like (inner inner' : Inner) : Prop where
  statement : Parse.Like T (Stmt.Like T Eq) inner.statement inner'.statement
  declaration : Parse.Like T (Option.Rel (Stmt.Like T Eq)) inner.declaration inner'.declaration

theorem variableDeclaration_like : Like T (Stmt.Like T Eq) variableDeclaration variableDeclaration :=
  bind_like (expect_like hT _ _) fun _ _ name => bind_like (take?_like hT _) fun _ _ equals => by
    cases equals with
    | none =>
      exact bind_like (pure_like .none) fun _ _ value => bind_like (expect_like hT _ _) fun _ _ _ =>
        pure_like (.declare name value)
    | some _ =>
      exact bind_like (map_like (wholeExpression_like hT) fun _ _ => .some) fun _ _ value =>
        bind_like (expect_like hT _ _) fun _ _ _ => pure_like (.declare name value)

theorem expressionStatement_like : Like T (Stmt.Like T Eq) expressionStatement expressionStatement :=
  bind_like (wholeExpression_like hT) fun _ _ value => bind_like (expect_like hT _ _) fun _ _ _ =>
    pure_like (.expression value)

theorem printStatement_like : Like T (Stmt.Like T Eq) printStatement printStatement :=
  bind_like (wholeExpression_like hT) fun _ _ value => bind_like (expect_like hT _ _) fun _ _ _ =>
    pure_like (.print value)

theorem returnStatement_like {t u : Token} (h : T t u) :
    Like T (Stmt.Like T Eq) (returnStatement t) (returnStatement u) :=
  bind_like (unlessKind_like hT _ (wholeExpression_like hT)) fun _ _ value =>
    bind_like (expect_like hT _ _) fun _ _ _ => pure_like (.leave h value)

theorem parentClause_like : Like T (Option.Rel (Reference.Like T Eq)) parentClause parentClause :=
  bind_like (take?_like hT _) fun _ _ less => by
    cases less with
    | none => exact pure_like .none
    | some _ => exact bind_like (expect_like hT _ _) fun _ _ name => pure_like (.some ⟨rfl, name⟩)

theorem firstClause_like : Like T (Option.Rel (Stmt.Like T Eq)) firstClause firstClause :=
  bind_like (take?_like hT _) fun _ _ semicolon => by
    cases semicolon with
    | some _ => exact pure_like .none
    | none =>
      refine bind_like (take?_like hT _) fun _ _ word => ?_
      cases word with
      | some _ => exact map_like (variableDeclaration_like hT) fun _ _ => .some
      | none => exact map_like (expressionStatement_like hT) fun _ _ => .some

section Inner

variable {inner inner' : Inner} (hi : inner.Like T inner')
include hi

theorem block_like : Like T (List.Forall₂ (Stmt.Like T Eq)) (block inner) (block inner') :=
  bind_like (bounded_like (untilKind_like hT _ hi.declaration)) fun _ _ items =>
    bind_like (expect_like hT _ _) fun _ _ _ => pure_like (filterMap_like items)

theorem routine_like (kind : RoutineKind) :
    Like T (Routine.Like T (Stmt.Like T Eq)) (routine inner kind) (routine inner' kind) :=
  bind_like (expect_like hT _ _) fun _ _ name => bind_like (expect_like hT _ _) fun _ _ _ =>
    bind_like (parenthesised_like hT _ (expect_like hT _ _)) fun _ _ params =>
      bind_like (expect_like hT _ _) fun _ _ _ => bind_like (expect_like hT _ _) fun _ _ _ =>
        bind_like (block_like hT hi) fun _ _ body => pure_like (.mk name params body)

theorem classDeclaration_like :
    Like T (Stmt.Like T Eq) (classDeclaration inner) (classDeclaration inner') :=
  bind_like (expect_like hT _ _) fun _ _ name => bind_like (parentClause_like hT) fun _ _ parent =>
    bind_like (expect_like hT _ _) fun _ _ _ =>
      bind_like (bounded_like (untilKind_like hT _ (routine_like hT hi .method)))
        fun _ _ methods => bind_like (expect_like hT _ _) fun _ _ _ => pure_like (.klass name parent methods)

theorem ifStatement_like : Like T (Stmt.Like T Eq) (ifStatement inner) (ifStatement inner') :=
  bind_like (expect_like hT _ _) fun _ _ _ => bind_like (wholeExpression_like hT) fun _ _ condition =>
    bind_like (expect_like hT _ _) fun _ _ _ => bind_like hi.statement fun _ _ yes =>
      bind_like (take?_like hT _) fun _ _ word => by
        cases word with
        | none => exact pure_like (.branch condition yes .none)
        | some _ =>
          exact bind_like (map_like hi.statement fun _ _ => .some) fun _ _ no =>
            pure_like (.branch condition yes no)

theorem whileStatement_like : Like T (Stmt.Like T Eq) (whileStatement inner) (whileStatement inner') :=
  bind_like (expect_like hT _ _) fun _ _ _ => bind_like (wholeExpression_like hT) fun _ _ condition =>
    bind_like (expect_like hT _ _) fun _ _ _ => bind_like hi.statement fun _ _ body =>
      pure_like (.loop condition body)

theorem forStatement_like : Like T (Stmt.Like T Eq) (forStatement inner) (forStatement inner') :=
  bind_like (expect_like hT _ _) fun _ _ _ => bind_like (firstClause_like hT) fun _ _ initial =>
    bind_like (unlessKind_like hT _ (wholeExpression_like hT)) fun _ _ condition =>
      bind_like (expect_like hT _ _) fun _ _ _ =>
        bind_like (unlessKind_like hT _ (wholeExpression_like hT)) fun _ _ step =>
          bind_like (expect_like hT _ _) fun _ _ _ => bind_like hi.statement fun _ _ body =>
            pure_like (Stmt.counting_like initial condition step body)

theorem statementFrom?_like (t u : Token) (h : T t u) :
    Option.Rel (Like T (Stmt.Like T Eq)) (statementFrom? inner t) (statementFrom? inner' u) := by
  unfold statementFrom?
  rw [(hT t u h).kind]
  split
  · exact .some (forStatement_like hT hi)
  · exact .some (ifStatement_like hT hi)
  · exact .some (printStatement_like hT)
  · exact .some (returnStatement_like hT h)
  · exact .some (whileStatement_like hT hi)
  · exact .some (map_like (block_like hT hi) fun _ _ => .block)
  · exact .none

theorem statement_like : Like T (Stmt.Like T Eq) (statement inner) (statement inner') :=
  choose_like (statementFrom?_like hT hi) (expressionStatement_like hT)

theorem declarationFrom?_like (t u : Token) (h : T t u) :
    Option.Rel (Like T (Stmt.Like T Eq)) (declarationFrom? inner t) (declarationFrom? inner' u) := by
  unfold declarationFrom?
  rw [(hT t u h).kind]
  split
  · exact .some (classDeclaration_like hT hi)
  · exact .some (map_like (routine_like hT hi .function) fun _ _ => .function)
  · exact .some (variableDeclaration_like hT)
  · exact .none

theorem declaration_like :
    Like T (Option.Rel (Stmt.Like T Eq)) (declaration inner) (declaration inner') :=
  recover_like hT (choose_like (declarationFrom?_like hT hi) (statement_like hT hi))

end Inner

theorem innerWithin_like : ∀ ts us, List.Forall₂ T ts us → (innerWithin ts).Like T (innerWithin us)
  | _, _, .nil => by
    have innermost : Inner.Like T ⟨reject .noExpression, reject .noExpression⟩
        ⟨reject .noExpression, reject .noExpression⟩ := ⟨reject_like _, reject_like _⟩
    exact ⟨statement_like hT innermost, declaration_like hT innermost⟩
  | _ :: ts, _ :: us, .cons _ ht =>
    have inside := innerWithin_like ts us ht
    ⟨statement_like hT inside, declaration_like hT inside⟩

theorem program_like : Like T (List.Forall₂ (Option.Rel (Stmt.Like T Eq))) program program :=
  bounded_like <| untilKind_like hT .eof <| bounded_like fun ts us ht =>
    (innerWithin_like hT ts us ht).declaration

end Parse

variable {T} (hT : ∀ t u, T t u → t.SameText u) {ts us : List Token} (h : List.Forall₂ T ts us)
include hT h

theorem takeWhile_kind_like (test : Kind → Bool) :
    List.Forall₂ T (ts.takeWhile (test ·.kind)) (us.takeWhile (test ·.kind)) := by
  induction h with
  | nil => exact .nil
  | @cons t u _ _ h _ ih =>
    rw [List.takeWhile_cons, List.takeWhile_cons, (hT t u h).kind]
    split
    · exact .cons h ih
    · exact .nil

/-- Like tokens parse to like trees, with the same problems at like tokens. -/
theorem parse_like : List.Forall₂ (Stmt.Like T Eq) (parse ts).statements (parse us).statements ∧
    List.Forall₂ (SyntaxError.Like T) (parse ts).errors (parse us).errors := by
  obtain ⟨value, -, errors⟩ := Parse.program_like hT _ _ (takeWhile_kind_like hT h (· != .eof))
  refine ⟨Parse.filterMap_like ?_, errors⟩
  generalize Parse.program (ts.takeWhile (·.kind != .eof)) = r at value errors ⊢
  generalize Parse.program (us.takeWhile (·.kind != .eof)) = r' at value errors ⊢
  obtain ⟨v, _, _⟩ := r
  obtain ⟨v', _, _⟩ := r'
  cases value with
  | none => exact .nil
  | some h => exact h

end Lox
