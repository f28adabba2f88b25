import Lox.Proofs.Grammar.Obedience

/-! # Programs without a problem are programs of the grammar

The value of an expression tells whether it may be assigned to, so the value is kept
together with the form of its tokens. -/

namespace Lox

namespace Grammar

theorem Derives.many_append {a : Form} {us vs : List Token} (h : Derives (.many a) us)
    (k : Derives (.many a) vs) : Derives (.many a) (us ++ vs) := by
  obtain ⟨F, hF⟩ : ∃ F, F = Form.many a := ⟨_, rfl⟩
  rw [← hF] at h
  induction h with
  | done => exact k
  | more h _ _ ih =>
    cases hF
    rw [List.append_assoc]
    exact .more h (ih rfl)
  | token | rule | nil | cons | oneOf | absent | present | last | comma => cases hF

theorem Derives.terminal {t : Token} {k : Kind} (h : t.kind = k)
    (m : k ∈ [Kind.kwTrue, .kwFalse, .kwNil, .kwThis, .number, .string, .identifier]) :
    Derives (.rule .primary) [t] := by
  refine .rule (.oneOf ?_ (.token h))
  have mine := List.mem_map_of_mem (f := Form.token) m
  simp only [List.map_cons, List.map_nil, List.mem_cons, List.not_mem_nil, or_false] at mine ⊢
  rcases mine with h | h | h | h | h | h | h
  all_goals simp [h]

/-- A call or an access to a property behind what may be called. -/
theorem Derives.suffix {us vs : List Token} (h : Derives (.rule .call) us)
    (k : Derives (.oneOf [.seq [.token .leftParen, .optional (.rule .arguments), .token .rightParen],
      .seq [.token .dot, .token .identifier]]) vs) : Derives (.rule .call) (us ++ vs) := by
  obtain ⟨xs, ys, hp, hs, rfl⟩ := derives_seq_cons.mp (derives_rule.mp h)
  have all := (derives_single.mp hs).many_append (.more k .done)
  rw [List.append_nil] at all
  rw [List.append_assoc]
  exact .rule (.cons hp all.single)

/-- The form of the tokens of an expression that may be assigned to. -/
def Target (e : Expr Unit) (ts : List Token) : Prop :=
  match e with
  | .name _ => Derives (.token .identifier) ts
  | .get _ _ => Derives (.seq [.rule .call, .token .dot, .token .identifier]) ts
  | _ => True

theorem Derives.assigned_name {us vs : List Token} {t : Token} (h : Derives (.token .identifier) us)
    (ht : t.kind = .equal) (k : Derives (.rule .assignment) vs) :
    Derives (.rule .expression) (us ++ t :: vs) := by
  have mine : Derives (.seq [.optional (.seq [.rule .call, .token .dot]), .token .identifier,
      .token .equal, .rule .assignment]) ([] ++ (us ++ t :: vs)) :=
    .cons .absent (.cons h (.token_cons ht k.single))
  exact .rule (r := .expression) (.rule (r := .assignment) (.oneOf List.mem_cons_self mine))

theorem Derives.assigned_property {us vs : List Token} {t : Token}
    (h : Derives (.seq [.rule .call, .token .dot, .token .identifier]) us) (ht : t.kind = .equal)
    (k : Derives (.rule .assignment) vs) : Derives (.rule .expression) (us ++ t :: vs) := by
  obtain ⟨xs, rest, hx, hr, rfl⟩ := derives_seq_cons.mp h
  obtain ⟨dot, last, hd, hl, rfl⟩ := derives_seq_token.mp hr
  have object : Derives (.seq [.rule .call, .token .dot]) (xs ++ [dot]) :=
    .cons hx (.token_cons hd .nil)
  have mine : Derives (.seq [.optional (.seq [.rule .call, .token .dot]), .token .identifier,
      .token .equal, .rule .assignment]) ((xs ++ [dot]) ++ (last ++ t :: vs)) :=
    .cons (.present object) (.cons (derives_single.mp hl) (.token_cons ht k.single))
  have all := Derives.rule (r := .expression) (.rule (r := .assignment) (.oneOf List.mem_cons_self mine))
  simpa using all

/-- The tokens of an expression that is read by a rule. -/
def Means (r : Rule) (e : Expr Unit) (ts : List Token) : Prop :=
  Derives (.rule r) ts ∧ Target e ts

end Grammar

namespace Parse

open Grammar

section Expressions

variable {expression operand : Parse (Expr Unit)} {operator : Kind → Bool} {operators : List Kind}
  {join : Expr Unit → Token → Expr Unit → Expr Unit} {lower upper : Rule}

theorem Means.obeys {r : Rule} {p : Parse (Expr Unit)} (h : Takes (Means r) p) : Obeys (.rule r) p :=
  h.mono fun _ _ h => h.1

theorem joined_takes (hop : ∀ k, operator k = true → k ∈ operators)
    (hj : ∀ l op r us, Target (join l op r) us) (ho : Obeys (.rule lower) operand) :
    ∀ (bound : List Token) (left : Expr Unit) (us : List Token), Target left us →
      Takes (fun e vs => Target e (us ++ vs) ∧
        Derives (.many (.seq [.oneOf (operators.map Form.token), .rule lower])) vs)
        (joined operator join operand left bound)
  | [], left, us, ht => by
    refine Takes.pure ⟨?_, .done⟩
    rw [List.append_nil]
    exact ht
  | _ :: bound, left, us, ht => by
    refine (take?_takes operator).bind fun o vs h => ?_
    rw [h.1]
    cases o with
    | none =>
      refine Takes.pure ⟨?_, .done⟩
      simpa using ht
    | some op =>
      refine Takes.bind ho fun right ws hw => ?_
      refine (joined_takes hop hj ho bound (join left op right) (us ++ op :: ws)
        (hj left op right _)).mono fun e xs he => ⟨by simpa using he.1, ?_⟩
      have mine : Derives (.oneOf (operators.map Form.token)) [op] :=
        .oneOf (List.mem_map_of_mem (hop _ (h.2 op rfl))) (.token rfl)
      simpa using Derives.more (mine.cons hw.single) he.2

theorem level_takes (operators : List Kind) (hf : upper.form = .joined lower operators)
    (hop : ∀ k, operator k = true → k ∈ operators) (hj : ∀ l op r us, Target (join l op r) us)
    (ho : Takes (Means lower) operand) : Takes (Means upper) (level operator join operand) := by
  refine ho.bind fun left us h => ?_
  refine Takes.bounded fun bound => ?_
  refine (joined_takes hop hj (Means.obeys ho) bound left us h.2).mono fun e vs he => ?_
  refine ⟨.rule ?_, he.1⟩
  rw [hf]
  exact .cons h.1 he.2.single

theorem operandFrom?_takes (he : Obeys (.rule .expression) expression) {t : Token}
    {p : Parse (Expr Unit)} (hp : operandFrom? expression t = some p) :
    Takes (fun e us => Means .primary e (t :: us)) p := by
  unfold operandFrom? at hp
  split at hp
  all_goals cases hp
  case h_1 hk | h_2 hk | h_3 hk | h_4 hk | h_5 hk =>
    exact Takes.pure ⟨.terminal hk (by simp), trivial⟩
  case h_6 hk => exact Takes.pure ⟨.terminal hk (by simp), trivial⟩
  case h_7 hk => exact Takes.pure ⟨.terminal hk (by simp), .token hk⟩
  case h_8 hk =>
    refine (expect_takes _ _).bind fun dot us hd => (expect_takes _ _).bind fun method vs hm => ?_
    rw [hd.1, hm.1]
    have mine : Derives (.seq [.token .kwSuper, .token .dot, .token .identifier]) [t, dot, method] :=
      .token_cons hk (.token_cons hd.2 (.token_cons hm.2 .nil))
    exact Takes.pure ⟨.rule (.oneOf (by simp) mine), trivial⟩
  case h_9 hk =>
    refine he.bind fun inner us hi => (expect_takes _ _).bind fun close vs hr => ?_
    rw [hr.1]
    have mine : Derives (.seq [.token .leftParen, .rule .expression, .token .rightParen])
        (t :: (us ++ [close])) := .token_cons hk (.cons hi (.token_cons hr.2 .nil))
    exact Takes.pure ⟨.rule (.oneOf (by simp) mine), trivial⟩

theorem suffixes_takes (he : Obeys (.rule .expression) expression) :
    ∀ (bound : List Token) (operand : Expr Unit) (us : List Token), Means .call operand us →
      Takes (fun e vs => Means .call e (us ++ vs)) (suffixes expression operand bound)
  | [], operand, us, h => by
    refine Takes.pure ?_
    rwa [List.append_nil]
  | _ :: bound, operand, us, h => by
    refine (take?_takes _).bind fun o ws ho => ?_
    rw [ho.1]
    cases o with
    | some paren =>
      have hl : paren.kind = .leftParen := by simpa using ho.2 paren rfl
      refine (parenthesised_obeys .arguments he).bind fun arguments xs ha => ?_
      refine (expect_takes _ _).bind fun close ys hr => ?_
      have listed : Derives (.optional (.rule .arguments)) xs :=
        derives_optional.mpr ((derives_optional.mp ha).imp id .rule)
      have mine := h.1.suffix (.oneOf List.mem_cons_self
        (.token_cons hl (.cons listed (.token_cons hr.2 .nil))))
      refine (suffixes_takes he bound (.call operand close arguments) _ ⟨mine, trivial⟩).mono
        fun e zs hz => ?_
      simpa [hr.1] using hz
    | none =>
      refine (take?_takes _).bind fun o ws ho => ?_
      rw [ho.1]
      cases o with
      | some dot =>
        have hd : dot.kind = .dot := by simpa using ho.2 dot rfl
        refine (expect_takes _ _).bind fun property xs hp => ?_
        have access : Derives (.seq [.token .dot, .token .identifier]) [dot, property] :=
          .token_cons hd (.token_cons hp.2 .nil)
        have mine := h.1.suffix (.oneOf (by simp) access)
        refine (suffixes_takes he bound (.get operand property) _ ⟨mine, .cons h.1 access⟩).mono
          fun e zs hz => ?_
        simpa [hp.1] using hz
      | none =>
        refine Takes.pure ?_
        simpa using h

theorem call_takes (he : Obeys (.rule .expression) expression) :
    Takes (Means .call) (call expression) := by
  have operand : Takes (Means .primary) (primary expression) :=
    choose_takes (fun _ _ hp => operandFrom?_takes he hp) (reject_takes _)
  refine operand.bind fun e us h => Takes.bounded fun bound => suffixes_takes he bound e us ⟨?_, h.2⟩
  have all := Derives.cons h.1 (Derives.single (Derives.done (a := .oneOf [
    .seq [.token .leftParen, .optional (.rule .arguments), .token .rightParen],
    .seq [.token .dot, .token .identifier]])))
  rw [List.append_nil] at all
  exact .rule all

theorem unary_takes (he : Obeys (.rule .expression) expression) :
    Takes (Means .unary) (unary expression) := by
  refine unaryOperators_takes.bind fun ops us h => (call_takes he).bind fun operand vs hv => Takes.pure ?_
  rw [h.1, List.append_nil]
  have isOperator := h.2
  clear h
  induction ops with
  | nil => exact ⟨.rule (.oneOf (by simp) hv.1), hv.2⟩
  | cons op rest ih =>
    obtain ⟨inner, -⟩ := ih fun o hm => isOperator o (List.mem_cons_of_mem _ hm)
    have mine : Derives (.oneOf [.token .bang, .token .minus]) [op] := by
      have hk := isOperator op List.mem_cons_self
      simp only [isUnary, Bool.or_eq_true, beq_iff_eq] at hk
      rcases hk with hk | hk
      · exact .oneOf (by simp) (.token hk)
      · exact .oneOf (by simp) (.token hk)
    exact ⟨.rule (.oneOf (by simp) (mine.cons inner.single)), trivial⟩

theorem disjunction_takes (he : Obeys (.rule .expression) expression) :
    Takes (Means .disjunction) (disjunction expression) := by
  have factor : Takes (Means .factor) (factor expression) :=
    level_takes [.slash, .star] rfl (fun k => by cases k <;> decide)
      (fun _ _ _ _ => trivial) (unary_takes he)
  have term : Takes (Means .term) (term expression) :=
    level_takes [.minus, .plus] rfl (fun k => by cases k <;> decide)
      (fun _ _ _ _ => trivial) factor
  have comparison : Takes (Means .comparison) (comparison expression) :=
    level_takes [.greater, .greaterEqual, .less, .lessEqual] rfl
      (fun k => by cases k <;> decide) (fun _ _ _ _ => trivial) term
  have equality : Takes (Means .equality) (equality expression) :=
    level_takes [.bangEqual, .equalEqual] rfl (fun k => by cases k <;> decide)
      (fun _ _ _ _ => trivial) comparison
  have conjunction : Takes (Means .conjunction) (conjunction expression) :=
    level_takes [.kwAnd] rfl (fun k => by cases k <;> decide)
      (fun _ _ _ _ => trivial) equality
  exact level_takes [.kwOr] rfl (fun k => by cases k <;> decide)
    (fun _ _ _ _ => trivial) conjunction

theorem assignment_obeys (he : Obeys (.rule .expression) expression) :
    Obeys (.rule .expression) (assignment expression) := by
  refine (disjunction_takes he).bind fun target us h => (take?_takes _).bind fun o vs ho => ?_
  rw [ho.1]
  cases o with
  | none =>
    refine Takes.pure ?_
    have mine : Derives (.rule .assignment) us := .rule (.oneOf (by simp) h.1)
    simpa using Derives.rule (r := .expression) mine
  | some equals =>
    have hq : equals.kind = .equal := by simpa using ho.2 equals rfl
    refine he.bind fun value ws hw => ?_
    have value : Derives (.rule .assignment) ws := derives_rule.mp hw
    split
    · exact Takes.pure (by simpa using Derives.assigned_name h.2 hq value)
    · exact Takes.pure (by simpa using Derives.assigned_property h.2 hq value)
    · exact (report_takes (Q := fun _ _ => False) _ _).bind fun _ _ h => h.elim

theorem expressionWithin_obeys : ∀ bound, Obeys (.rule .expression) (expressionWithin bound)
  | [] => assignment_obeys (reject_takes _)
  | _ :: bound => assignment_obeys (expressionWithin_obeys bound)

theorem wholeExpression_obeys : Obeys (.rule .expression) wholeExpression :=
  Takes.bounded expressionWithin_obeys

end Expressions

/-! ## Statements -/

theorem recover_takes {α : Type} {Q : α → List Token → Prop} {p : Parse α} (hp : Takes Q p) :
    Takes (fun o us => ∃ a ∈ o, Q a us) (recover p) := by
  intro tokens quiet
  unfold recover at quiet ⊢
  split at quiet
  · rename_i a rest errors h
    obtain ⟨a', us, hv, e, hQ⟩ := hp tokens (by rw [h]; exact quiet)
    rw [h] at hv e
    exact ⟨some a, us, rfl, e, a', hv, hQ⟩
  · rename_i rest errors h
    obtain ⟨a', us, hv, -⟩ := hp tokens (by rw [h]; exact quiet)
    rw [h] at hv
    cases hv

structure Inner.Obeys (inner : Inner) : Prop where
  statement : Parse.Obeys (.rule .statement) inner.statement
  declaration : Parse.Obeys (.rule .declaration) inner.declaration

section Statements

variable {inner : Inner}

/-- A block behind its opening brace. -/
theorem block_obeys (hi : inner.Obeys) :
    Obeys (.seq [.many (.rule .declaration), .token .rightBrace]) (block inner) :=
  Obeys.seq (Takes.bounded fun bound => untilKind_obeys _ hi.declaration bound) fun _ =>
    Obeys.seq (.expect _) fun _ => .pure

theorem routine_obeys (hi : inner.Obeys) (kind : RoutineKind) :
    Obeys (.rule .function) (routine inner kind) := by
  refine .rule (Obeys.seq (.expect _) fun _ => Obeys.seq (.expect _) fun _ => ?_)
  have parameters : Obeys (.optional (.rule .parameters))
      (parenthesised .parameters (expect .identifier .noParameterName)) :=
    (parenthesised_obeys .parameters (.expect _)).mono fun _ _ h =>
      derives_optional.mpr ((derives_optional.mp h).imp id .rule)
  refine parameters.seq fun _ => Obeys.seq (.expect _) fun _ => ?_
  refine (expect_takes _ _).bind fun brace us hb => (block_obeys hi).bind fun body vs hv => .pure ?_
  rw [hb.1]
  have mine : Derives (.rule .block) (brace :: vs) := .rule (.token_cons hb.2 hv)
  simpa using mine.single

theorem parentClause_obeys :
    Obeys (.optional (.seq [.token .less, .token .identifier])) parentClause := by
  refine (take?_takes _).bind fun o us h => ?_
  rw [h.1]
  cases o with
  | none => exact Takes.pure .absent
  | some t =>
    refine (expect_takes _ _).bind fun name vs hn => Takes.pure (.present ?_)
    rw [hn.1]
    exact .token_cons (by simpa using h.2 t rfl) (.token_cons hn.2 .nil)

theorem classDeclaration_obeys (hi : inner.Obeys) :
    Obeys (.seq [.token .identifier, .optional (.seq [.token .less, .token .identifier]),
      .token .leftBrace, .many (.rule .function), .token .rightBrace]) (classDeclaration inner) := by
  refine Obeys.seq (.expect _) fun name => parentClause_obeys.seq fun _ => Obeys.seq (.expect _) fun _ => ?_
  have methods : Obeys (.many (.rule .function))
      (bounded (untilKind .rightBrace (routine inner .method))) :=
    Takes.bounded fun bound => untilKind_obeys _ (routine_obeys hi .method) bound
  exact methods.seq fun _ => Obeys.seq (.expect _) fun _ => .pure

theorem variableDeclaration_obeys :
    Obeys (.seq [.token .identifier, .optional (.seq [.token .equal, .rule .expression]),
      .token .semicolon]) variableDeclaration := by
  refine Obeys.seq (.expect _) fun name => ?_
  exact .clause wholeExpression_obeys.map (fun _ => Obeys.seq (.expect _) fun _ => .pure)
    (fun _ => rfl) rfl

theorem expressionStatement_obeys : Obeys (.rule .expressionStatement) expressionStatement :=
  .rule (wholeExpression_obeys.seq fun _ => Obeys.seq (.expect _) fun _ => .pure)

theorem printStatement_obeys : Obeys (.seq [.rule .expression, .token .semicolon]) printStatement :=
  wholeExpression_obeys.seq fun _ => Obeys.seq (.expect _) fun _ => .pure

theorem returnStatement_obeys (keyword : Token) :
    Obeys (.seq [.optional (.rule .expression), .token .semicolon]) (returnStatement keyword) :=
  (unlessKind_obeys .semicolon wholeExpression_obeys).seq fun _ => Obeys.seq (.expect _) fun _ => .pure

theorem ifStatement_obeys (hi : inner.Obeys) :
    Obeys (.seq [.token .leftParen, .rule .expression, .token .rightParen, .rule .statement,
      .optional (.seq [.token .kwElse, .rule .statement])]) (ifStatement inner) := by
  refine Obeys.seq (.expect _) fun _ => wholeExpression_obeys.seq fun condition =>
    Obeys.seq (.expect _) fun _ => hi.statement.seq fun yes => ?_
  exact .clause hi.statement.map (fun _ => .pure) (fun _ => rfl) rfl

theorem whileStatement_obeys (hi : inner.Obeys) :
    Obeys (.seq [.token .leftParen, .rule .expression, .token .rightParen, .rule .statement])
      (whileStatement inner) :=
  Obeys.seq (.expect _) fun _ => wholeExpression_obeys.seq fun _ => Obeys.seq (.expect _) fun _ =>
    hi.statement.seq fun _ => .pure

theorem firstClause_obeys :
    Obeys (.oneOf [.rule .variableDeclaration, .rule .expressionStatement, .token .semicolon])
      firstClause := by
  refine (take?_takes _).bind fun o us h => ?_
  rw [h.1]
  cases o with
  | some t =>
    have mine : Derives (.token .semicolon) [t] := .token (by simpa using h.2 t rfl)
    exact Takes.pure (.oneOf (by simp) mine)
  | none =>
    refine (take?_takes _).bind fun o vs k => ?_
    rw [k.1]
    cases o with
    | some t =>
      refine variableDeclaration_obeys.map.mono fun _ ws hw => ?_
      have mine : Derives (.rule .variableDeclaration) (t :: ws) :=
        .rule (.token_cons (by simpa using k.2 t rfl) hw)
      exact .oneOf List.mem_cons_self mine
    | none => exact expressionStatement_obeys.map.mono fun _ ws hw => .oneOf (by simp) hw

theorem forStatement_obeys (hi : inner.Obeys) :
    Obeys (.seq [.token .leftParen,
      .oneOf [.rule .variableDeclaration, .rule .expressionStatement, .token .semicolon],
      .optional (.rule .expression), .token .semicolon, .optional (.rule .expression),
      .token .rightParen, .rule .statement]) (forStatement inner) :=
  Obeys.seq (.expect _) fun _ => firstClause_obeys.seq fun _ =>
    (unlessKind_obeys .semicolon wholeExpression_obeys).seq fun _ => Obeys.seq (.expect _) fun _ =>
    (unlessKind_obeys .rightParen wholeExpression_obeys).seq fun _ => Obeys.seq (.expect _) fun _ =>
    hi.statement.seq fun _ => .pure

theorem statement_obeys (hi : inner.Obeys) : Obeys (.rule .statement) (statement inner) := by
  refine choose_takes (fun t p hp => ?_)
    (expressionStatement_obeys.mono fun _ _ h => .rule (.oneOf List.mem_cons_self h))
  have keyword (r : Rule) {kind : Kind} {parts : List Form} {p : Parse (Stmt Unit)}
      (hr : r.form = .seq (.token kind :: parts))
      (hm : Form.rule r ∈ [Form.rule .forStatement, .rule .ifStatement, .rule .printStatement,
        .rule .returnStatement, .rule .whileStatement, .rule .block])
      (ht : t.kind = kind) (hp : Obeys (.seq parts) p) :
      Takes (fun _ us => Derives (.rule .statement) (t :: us)) p :=
    hp.mono fun _ us h => .rule (.oneOf (List.mem_cons_of_mem _ hm) (.rule (hr ▸ .token_cons ht h)))
  unfold statementFrom? at hp
  split at hp
  all_goals cases hp
  case h_1 ht => exact keyword .forStatement rfl (by simp) ht (forStatement_obeys hi)
  case h_2 ht => exact keyword .ifStatement rfl (by simp) ht (ifStatement_obeys hi)
  case h_3 ht => exact keyword .printStatement rfl (by simp) ht printStatement_obeys
  case h_4 ht => exact keyword .returnStatement rfl (by simp) ht (returnStatement_obeys t)
  case h_5 ht => exact keyword .whileStatement rfl (by simp) ht (whileStatement_obeys hi)
  case h_6 ht => exact keyword .block rfl (by simp) ht (block_obeys hi).map

theorem declaration_obeys (hi : inner.Obeys) : Obeys (.rule .declaration) (declaration inner) := by
  have read : Obeys (.rule .declaration) (choose (declarationFrom? inner) (statement inner)) := by
    refine choose_takes (fun t p hp => ?_)
      ((statement_obeys hi).mono fun _ _ h => .rule (.oneOf (by simp) h))
    have keyword (r : Rule) {kind : Kind} {parts : List Form} {p : Parse (Stmt Unit)}
        (hr : r.form = .seq (.token kind :: parts))
        (hm : Form.rule r ∈ [Form.rule .classDeclaration, .rule .functionDeclaration,
          .rule .variableDeclaration, .rule .statement])
        (ht : t.kind = kind) (hp : Obeys (.seq parts) p) :
        Takes (fun _ us => Derives (.rule .declaration) (t :: us)) p :=
      hp.mono fun _ us h => .rule (.oneOf hm (.rule (hr ▸ .token_cons ht h)))
    unfold declarationFrom? at hp
    split at hp
    all_goals cases hp
    case h_1 ht => exact keyword .classDeclaration rfl (by simp) ht (classDeclaration_obeys hi)
    case h_2 ht =>
      have function := (routine_obeys hi .function).map (f := Stmt.function)
      exact keyword .functionDeclaration rfl (by simp) ht (function.mono fun _ _ h => h.single)
    case h_3 ht => exact keyword .variableDeclaration rfl (by simp) ht variableDeclaration_obeys
  exact (recover_takes read).mono fun _ _ ⟨_, _, h⟩ => h

theorem innerWithin_obeys : ∀ bound, (innerWithin bound).Obeys
  | [] => by
    have innermost : Inner.Obeys ⟨reject .noExpression, reject .noExpression⟩ :=
      ⟨reject_takes _, reject_takes _⟩
    exact ⟨statement_obeys innermost, declaration_obeys innermost⟩
  | _ :: bound =>
    ⟨statement_obeys (innerWithin_obeys bound), declaration_obeys (innerWithin_obeys bound)⟩

theorem wholeDeclaration_obeys : Obeys (.rule .declaration) wholeDeclaration :=
  Takes.bounded fun bound => (innerWithin_obeys bound).declaration

/-- A program without a problem has been read to its end. -/
theorem program_obeys {tokens : List Token} (h : ∀ t ∈ tokens, t.kind ≠ .eof)
    (quiet : (program tokens).errors = []) : Derives (.many (.rule .declaration)) tokens := by
  have some : Takes (fun _ us => us ≠ []) wholeDeclaration := wholeDeclaration_obeys.mono
    fun _ us hd e => by
      obtain ⟨t, rest, e', -⟩ := begins_declaration us hd
      rw [e] at e'
      cases e'
  have stops : ∀ t ∈ (program tokens).rest.head?, t.kind = .eof :=
    untilKind_stops some tokens tokens (Nat.le_refl _) quiet
  obtain ⟨-, us, -, e, hd⟩ := untilKind_obeys .eof wholeDeclaration_obeys tokens tokens quiet
  have e : tokens = us ++ (program tokens).rest := e
  cases hr : (program tokens).rest with
  | nil =>
    rw [e, hr, List.append_nil]
    exact hd
  | cons t rest =>
    have last : t.kind = .eof := stops t (by rw [hr]; rfl)
    refine absurd last (h t ?_)
    rw [e, hr]
    simp

end Statements

end Parse

end Lox
