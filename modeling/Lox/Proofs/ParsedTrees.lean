import Lox.Parse.Program
import Lox.Proofs.WellFormed

/-! # What a reader yields

A reader leaves a suffix of its tokens, and the trees that it yields are well-formed
whether or not it reports problems on the way. One rule for each way in which readers
are put together carries this up to `parse`. -/

namespace Lox.Parse

variable {α β : Type} {T : Token → Prop}

/-- From tokens that pass the test, a reader leaves a suffix, and what it yields
meets the condition. -/
def Yields (T : Token → Prop) (P : α → Prop) (p : Parse α) : Prop :=
  ∀ tokens, (∀ t ∈ tokens, T t) → (p tokens).rest <:+ tokens ∧ ∀ a, (p tokens).value = some a → P a

namespace Yields

variable {P : α → Prop} {Q : β → Prop} {p : Parse α}

theorem pure {a : α} (h : P a) : Yields T P (Pure.pure a : Parse α) := fun tokens _ =>
  ⟨List.suffix_refl tokens, fun _ he => Option.some.inj he ▸ h⟩

theorem mono {Q : α → Prop} (hp : Yields T P p) (h : ∀ a, P a → Q a) : Yields T Q p :=
  fun tokens ht => ⟨(hp tokens ht).1, fun a ha => h a ((hp tokens ht).2 a ha)⟩

theorem bind {f : α → Parse β} (hp : Yields T P p) (hf : ∀ a, P a → Yields T Q (f a)) :
    Yields T Q (p >>= f) := by
  intro tokens ht
  obtain ⟨hs, hv⟩ := hp tokens ht
  change (Parse.bind p f tokens).rest <:+ tokens ∧ ∀ b, (Parse.bind p f tokens).value = some b → Q b
  unfold Parse.bind
  split
  · rename_i he
    rw [he] at hs
    exact ⟨hs, fun _ hb => by cases hb⟩
  · rename_i a rest _ he
    rw [he] at hs hv
    obtain ⟨hs', hv'⟩ := hf a (hv a rfl) rest fun t hm => ht t (hs.subset hm)
    exact ⟨hs'.trans hs, hv'⟩

theorem map {f : α → β} (hp : Yields T P p) (hf : ∀ a, P a → Q (f a)) : Yields T Q (f <$> p) :=
  hp.bind fun a ha => pure (hf a ha)

theorem bounded {p : List Token → Parse α} (h : ∀ bound, Yields T P (p bound)) :
    Yields T P (Parse.bounded p) := fun tokens ht => h tokens tokens ht

end Yields

theorem report_yields (problem : SyntaxProblem) (token : Option Token) :
    Yields T (fun _ => True) (report problem token) := fun tokens _ =>
  ⟨List.suffix_refl tokens, fun _ _ => trivial⟩

theorem reject_yields (P : α → Prop) (problem : SyntaxProblem) : Yields T P (reject problem) :=
  fun tokens _ => ⟨List.suffix_refl tokens, fun _ h => by cases h⟩

theorem atKind_yields (kind : Kind) : Yields T (fun _ => True) (atKind kind) := fun tokens _ =>
  ⟨List.suffix_refl tokens, fun _ _ => trivial⟩

theorem endsAt_yields (kind : Kind) : Yields T (fun _ => True) (endsAt kind) := fun tokens _ =>
  ⟨List.suffix_refl tokens, fun _ _ => trivial⟩

theorem take?_yields (test : Kind → Bool) :
    Yields T (fun o => ∀ t, o = some t → test t.kind = true ∧ T t) (take? test) := by
  intro tokens ht
  cases tokens with
  | nil => exact ⟨List.suffix_refl _, fun o ho t he => by cases ho; cases he⟩
  | cons t rest =>
    simp only [take?]
    split
    · rename_i hk
      refine ⟨List.suffix_cons t rest, fun o ho u he => ?_⟩
      cases ho
      cases he
      exact ⟨hk, ht t List.mem_cons_self⟩
    · exact ⟨List.suffix_refl _, fun o ho t he => by cases ho; cases he⟩

theorem expect_yields (kind : Kind) (problem : SyntaxProblem) :
    Yields T (Token.Is T kind) (expect kind problem) := by
  refine (take?_yields _).bind fun o ho => ?_
  cases o with
  | none => exact reject_yields _ _
  | some t =>
    obtain ⟨hk, hT⟩ := ho t rfl
    exact .pure ⟨by simpa using hk, hT⟩

theorem choose_yields {P : α → Prop} {reader? : Token → Option (Parse α)} {otherwise : Parse α}
    (hr : ∀ t p, T t → reader? t = some p → Yields T P p) (ho : Yields T P otherwise) :
    Yields T P (choose reader? otherwise) := by
  intro tokens ht
  cases tokens with
  | nil => exact ho [] ht
  | cons t rest =>
    simp only [choose]
    split
    · rename_i p hp
      obtain ⟨hs, hv⟩ := hr t p (ht t List.mem_cons_self) hp rest
        fun u hu => ht u (List.mem_cons_of_mem _ hu)
      exact ⟨hs.trans (List.suffix_cons t rest), hv⟩
    · exact ho _ ht

theorem unlessKind_yields {P : α → Prop} {p : Parse α} (kind : Kind) (hp : Yields T P p) :
    Yields T (fun o => ∀ a, o = some a → P a) (unlessKind kind p) := by
  refine (atKind_yields kind).bind fun b _ => ?_
  split
  · exact .pure fun a he => by cases he
  · exact hp.map fun a ha b he => Option.some.inj he ▸ ha

theorem untilKind_yields {P : α → Prop} {item : Parse α} (kind : Kind) (hi : Yields T P item) :
    ∀ bound, Yields T (fun xs => ∀ x ∈ xs, P x) (untilKind kind item bound)
  | [] => .pure (by simp)
  | _ :: bound => by
    refine (endsAt_yields kind).bind fun b _ => ?_
    split
    · exact .pure (by simp)
    · refine hi.bind fun x hx => (untilKind_yields kind hi bound).bind fun xs hxs => .pure ?_
      simpa using ⟨hx, hxs⟩

theorem checkRoom_yields (what : Listed) (seen : Nat) :
    Yields T (fun _ => True) (checkRoom what seen) := by
  unfold checkRoom
  split
  · exact fun tokens ht => report_yields _ _ tokens ht
  · exact .pure trivial

theorem commaList_yields {P : α → Prop} {item : Parse α} (what : Listed) (hi : Yields T P item) :
    ∀ (bound : List Token) (seen : Nat),
      Yields T (fun xs => ∀ x ∈ xs, P x) (commaList what item seen bound)
  | [], seen =>
    (checkRoom_yields what seen).bind fun _ _ => hi.bind fun x hx => .pure (by simpa using hx)
  | _ :: bound, seen => by
    refine (checkRoom_yields what seen).bind fun _ _ => hi.bind fun x hx =>
      (take?_yields _).bind fun o _ => ?_
    cases o with
    | none => exact .pure (by simpa using hx)
    | some t =>
      refine (commaList_yields what hi bound (seen + 1)).bind fun xs hxs => .pure ?_
      simpa using ⟨hx, hxs⟩

theorem parenthesised_yields {P : α → Prop} {item : Parse α} (what : Listed) (hi : Yields T P item) :
    Yields T (fun xs => ∀ x ∈ xs, P x) (parenthesised what item) := by
  refine (atKind_yields .rightParen).bind fun b _ => ?_
  split
  · exact .pure (by simp)
  · exact .bounded fun bound => commaList_yields what hi bound 0

/-! ## Expressions -/

section Expressions

variable {expression operand : Parse (Expr Unit)}

theorem joined_yields {operator : Kind → Bool} {join : Expr Unit → Token → Expr Unit → Expr Unit}
    (hj : ∀ l op r, operator op.kind = true → l.WellFormed T → r.WellFormed T →
      (join l op r).WellFormed T)
    (ho : Yields T (Expr.WellFormed T) operand) :
    ∀ (bound : List Token) (left : Expr Unit), left.WellFormed T →
      Yields T (Expr.WellFormed T) (joined operator join operand left bound)
  | [], left, hl => .pure hl
  | _ :: bound, left, hl => by
    refine (take?_yields operator).bind fun o hop => ?_
    cases o with
    | none => exact .pure hl
    | some op =>
      exact ho.bind fun right hr => joined_yields hj ho bound _ (hj _ _ _ (hop op rfl).1 hl hr)

theorem level_yields {operator : Kind → Bool} {join : Expr Unit → Token → Expr Unit → Expr Unit}
    (hj : ∀ l op r, operator op.kind = true → l.WellFormed T → r.WellFormed T →
      (join l op r).WellFormed T)
    (ho : Yields T (Expr.WellFormed T) operand) :
    Yields T (Expr.WellFormed T) (level operator join operand) :=
  ho.bind fun left hl => .bounded fun bound => joined_yields hj ho bound left hl

theorem operandFrom?_yields (he : Yields T (Expr.WellFormed T) expression) {t : Token} (ht : T t)
    {p : Parse (Expr Unit)} (hp : operandFrom? expression t = some p) :
    Yields T (Expr.WellFormed T) p := by
  unfold operandFrom? at hp
  split at hp
  all_goals cases hp
  case h_1 | h_2 | h_3 | h_4 | h_5 => exact .pure trivial
  case h_6 hk => exact .pure ⟨hk, ht⟩
  case h_7 hk => exact .pure ⟨hk, ht⟩
  case h_8 hk =>
    exact (expect_yields .dot _).bind fun _ _ => (expect_yields .identifier _).bind fun _ hm =>
      .pure ⟨⟨hk, ht⟩, hm⟩
  case h_9 =>
    exact he.bind fun _ hi => (expect_yields .rightParen _).bind fun _ _ => .pure hi

theorem suffixes_yields (he : Yields T (Expr.WellFormed T) expression) :
    ∀ (bound : List Token) (operand : Expr Unit), operand.WellFormed T →
      Yields T (Expr.WellFormed T) (suffixes expression operand bound)
  | [], operand, ho => .pure ho
  | _ :: bound, operand, ho => by
    refine (take?_yields _).bind fun o _ => ?_
    cases o with
    | some _ =>
      refine (parenthesised_yields .arguments he).bind fun arguments ha =>
        (expect_yields .rightParen _).bind fun paren hp => suffixes_yields he bound _ ?_
      exact ⟨hp.1, ho, (Expr.allWellFormed_iff arguments).mpr ha⟩
    | none =>
      refine (take?_yields _).bind fun o _ => ?_
      cases o with
      | some _ =>
        exact (expect_yields .identifier _).bind fun property hp =>
          suffixes_yields he bound _ ⟨hp, ho⟩
      | none => exact .pure ho

theorem call_yields (he : Yields T (Expr.WellFormed T) expression) :
    Yields T (Expr.WellFormed T) (call expression) :=
  (choose_yields (fun _ _ ht hp => operandFrom?_yields he ht hp) (reject_yields _ _)).bind
    fun operand ho => .bounded fun bound => suffixes_yields he bound operand ho

theorem unaryOperators_yields :
    Yields T (fun ops => ∀ op ∈ ops, isUnary op.kind = true) unaryOperators := fun tokens _ => by
  refine ⟨List.dropWhile_suffix _, fun ops hops op hm => ?_⟩
  cases hops
  exact List.all_eq_true.mp List.all_takeWhile op hm

theorem unary_yields (he : Yields T (Expr.WellFormed T) expression) :
    Yields T (Expr.WellFormed T) (unary expression) := by
  refine unaryOperators_yields.bind fun ops hops => (call_yields he).bind fun operand ho => .pure ?_
  clear he
  induction ops with
  | nil => exact ho
  | cons op rest ih =>
    exact ⟨hops op List.mem_cons_self, ih fun o hm => hops o (List.mem_cons_of_mem _ hm)⟩

theorem binaryLevel_yields {operator : Kind → Bool} (hb : ∀ k, operator k = true → k.isBinary = true)
    (ho : Yields T (Expr.WellFormed T) operand) :
    Yields T (Expr.WellFormed T) (level operator .binary operand) :=
  level_yields (fun _ op _ hop hl hr => ⟨hb op.kind hop, hl, hr⟩) ho

theorem equality_yields (he : Yields T (Expr.WellFormed T) expression) :
    Yields T (Expr.WellFormed T) (equality expression) := by
  have factor : Yields T (Expr.WellFormed T) (factor expression) :=
    binaryLevel_yields (fun k => by cases k <;> decide) (unary_yields he)
  have term : Yields T (Expr.WellFormed T) (term expression) :=
    binaryLevel_yields (fun k => by cases k <;> decide) factor
  have comparison : Yields T (Expr.WellFormed T) (comparison expression) :=
    binaryLevel_yields (fun k => by cases k <;> decide) term
  exact binaryLevel_yields (fun k => by cases k <;> decide) comparison

theorem disjunction_yields (he : Yields T (Expr.WellFormed T) expression) :
    Yields T (Expr.WellFormed T) (disjunction expression) := by
  refine level_yields (fun l op r ho hl hr => ⟨?_, hl, hr⟩) ?_
  · simp only [Kind.isLogical, ho, Bool.or_true]
  refine level_yields (fun l op r ho hl hr => ⟨?_, hl, hr⟩) (equality_yields he)
  simp only [Kind.isLogical, ho, Bool.true_or]

theorem assignment_yields (he : Yields T (Expr.WellFormed T) expression) :
    Yields T (Expr.WellFormed T) (assignment expression) := by
  refine (disjunction_yields he).bind fun target ht => (take?_yields _).bind fun o _ => ?_
  cases o with
  | none => exact .pure ht
  | some equals =>
    refine he.bind fun value hv => ?_
    split
    · exact .pure ⟨ht, hv⟩
    · exact .pure ⟨ht.1, ht.2, hv⟩
    · exact (report_yields _ _).bind fun _ _ => .pure ht

theorem expressionWithin_yields :
    ∀ bound, Yields T (Expr.WellFormed T) (expressionWithin bound)
  | [] => assignment_yields (reject_yields _ _)
  | _ :: bound => assignment_yields (expressionWithin_yields bound)

theorem wholeExpression_yields : Yields T (Expr.WellFormed T) wholeExpression :=
  .bounded expressionWithin_yields

end Expressions

/-! ## Statements -/

/-- A well-formed statement that may be a branch. -/
def Nested (T : Token → Prop) (s : Stmt Unit) : Prop := s.WellFormed T ∧ s.declared? = none

/-- What a declaration that could be read is. -/
def Declared (T : Token → Prop) (o : Option (Stmt Unit)) : Prop := ∀ s, o = some s → s.WellFormed T

theorem recover_yields {P : α → Prop} {p : Parse α} (hp : Yields T P p) :
    Yields T (fun o => ∀ a, o = some a → P a) (recover p) := by
  have resumeAfter_suffix : ∀ (tokens : List Token) (previous : Token),
      resumeAfter previous tokens <:+ tokens := by
    intro tokens
    induction tokens with
    | nil => exact fun _ => List.suffix_refl _
    | cons t rest ih =>
      intro previous
      simp only [resumeAfter]
      split
      · exact List.suffix_refl _
      · exact (ih t).trans (List.suffix_cons t rest)
  have resume_suffix : ∀ tokens : List Token, resume tokens <:+ tokens
    | [] => List.suffix_refl _
    | t :: rest => (resumeAfter_suffix rest t).trans (List.suffix_cons t rest)
  intro tokens ht
  obtain ⟨hs, hv⟩ := hp tokens ht
  unfold recover
  split
  · rename_i a rest _ he
    rw [he] at hs hv
    exact ⟨hs, fun o ho b hb => hv b ((Option.some.inj ho).trans hb)⟩
  · rename_i rest _ he
    rw [he] at hs
    refine ⟨(resume_suffix rest).trans hs, fun o ho b hb => ?_⟩
    cases ho
    cases hb

/-- The readers for what stands inside a statement yield well-formed trees. -/
structure Inner.Yields (T : Token → Prop) (inner : Inner) : Prop where
  statement : Parse.Yields T (Nested T) inner.statement
  declaration : Parse.Yields T (Declared T) inner.declaration

section Statements

variable {inner : Inner}

theorem block_yields (hi : inner.Yields T) : Yields T (Stmt.AllWellFormed T) (block inner) := by
  refine (Yields.bounded fun bound => untilKind_yields _ hi.declaration bound).bind
    fun items hitems => (expect_yields .rightBrace _).bind fun _ _ => .pure ?_
  rw [Stmt.allWellFormed_iff]
  intro s hs
  obtain ⟨o, ho, rfl⟩ := List.mem_filterMap.mp hs
  exact hitems _ ho s rfl

theorem routine_yields (hi : inner.Yields T) (kind : RoutineKind) :
    Yields T (Routine.WellFormed T) (routine inner kind) := by
  refine (expect_yields .identifier _).bind fun name hn => (expect_yields .leftParen _).bind
    fun _ _ => (parenthesised_yields .parameters (expect_yields .identifier _)).bind
    fun params hp => (expect_yields .rightParen _).bind fun _ _ =>
    (expect_yields .leftBrace _).bind fun _ _ => (block_yields hi).bind fun body hb => .pure ?_
  exact ⟨hn, hp, hb⟩

theorem parentClause_yields : Yields T (Reference.WellFormed? T) parentClause := by
  refine (take?_yields _).bind fun o _ => ?_
  cases o with
  | none => exact .pure trivial
  | some _ => exact (expect_yields .identifier _).bind fun name hn => .pure hn

theorem classDeclaration_yields (hi : inner.Yields T) :
    Yields T (Stmt.WellFormed T) (classDeclaration inner) := by
  refine (expect_yields .identifier _).bind fun name hn => parentClause_yields.bind
    fun parent hp => (expect_yields .leftBrace _).bind fun _ _ =>
    (Yields.bounded fun bound => untilKind_yields _ (routine_yields hi .method) bound).bind
    fun methods hm => (expect_yields .rightBrace _).bind fun _ _ => .pure ?_
  exact ⟨hn, hp, (Routine.allWellFormed_iff methods).mpr hm⟩

theorem variableDeclaration_yields : Yields T (Stmt.WellFormed T) variableDeclaration := by
  refine (expect_yields .identifier _).bind fun name hn => (take?_yields _).bind fun o _ => ?_
  have declared (initial : Option (Expr Unit)) (h : Expr.WellFormed? T initial) :
      Yields T (Stmt.WellFormed T) (do
        let _ ← expect .semicolon .openDeclaration
        Pure.pure (Stmt.declare name initial)) :=
    (expect_yields .semicolon _).bind fun _ _ => .pure ⟨hn, h⟩
  cases o with
  | none =>
    exact (Yields.pure (a := none) (show Expr.WellFormed? T none from trivial)).bind declared
  | some _ =>
    exact (wholeExpression_yields.map fun e h => show Expr.WellFormed? T (some e) from h).bind
      declared

theorem expressionStatement_yields : Yields T (Nested T) expressionStatement :=
  wholeExpression_yields.bind fun _ hv => (expect_yields .semicolon _).bind fun _ _ =>
    .pure ⟨hv, rfl⟩

theorem printStatement_yields : Yields T (Nested T) printStatement :=
  wholeExpression_yields.bind fun _ hv => (expect_yields .semicolon _).bind fun _ _ =>
    .pure ⟨hv, rfl⟩

theorem optional_wellFormed {o : Option (Expr Unit)} (h : ∀ e, o = some e → e.WellFormed T) :
    Expr.WellFormed? T o := by
  cases o with
  | none => trivial
  | some e => exact h e rfl

theorem returnStatement_yields {keyword : Token} (hk : keyword.kind = .kwReturn) :
    Yields T (Nested T) (returnStatement keyword) :=
  (unlessKind_yields .semicolon wholeExpression_yields).bind fun _ hv =>
    (expect_yields .semicolon _).bind fun _ _ => .pure ⟨⟨hk, optional_wellFormed hv⟩, rfl⟩

theorem ifStatement_yields (hi : inner.Yields T) : Yields T (Nested T) (ifStatement inner) := by
  refine (expect_yields .leftParen _).bind fun _ _ => wholeExpression_yields.bind
    fun condition hc => (expect_yields .rightParen _).bind fun _ _ => hi.statement.bind
    fun yes hy => (take?_yields _).bind fun o _ => ?_
  cases o with
  | none =>
    exact (Yields.pure (a := none) (show Stmt.WellFormed? T none from trivial)).bind
      fun no hn => .pure ⟨⟨hc, hy, hn⟩, rfl⟩
  | some _ =>
    exact (hi.statement.map fun s h => show Stmt.WellFormed? T (some s) from h).bind
      fun no hn => .pure ⟨⟨hc, hy, hn⟩, rfl⟩

theorem whileStatement_yields (hi : inner.Yields T) : Yields T (Nested T) (whileStatement inner) :=
  (expect_yields .leftParen _).bind fun _ _ => wholeExpression_yields.bind fun _ hc =>
    (expect_yields .rightParen _).bind fun _ _ => hi.statement.bind fun _ hb =>
      .pure ⟨⟨hc, hb⟩, rfl⟩

theorem firstClause_yields : Yields T (Declared T) firstClause := by
  have clause {p : Parse (Stmt Unit)} (hp : Yields T (Stmt.WellFormed T) p) :
      Yields T (Declared T) (some <$> p) :=
    hp.map fun s hs r hr => Option.some.inj hr ▸ hs
  refine (take?_yields _).bind fun o _ => ?_
  cases o with
  | some _ => exact .pure fun s hs => by cases hs
  | none =>
    refine (take?_yields _).bind fun o _ => ?_
    cases o with
    | some _ => exact clause variableDeclaration_yields
    | none => exact clause (expressionStatement_yields.mono fun _ h => h.1)

theorem counting_nested {initial : Option (Stmt Unit)} {condition step : Option (Expr Unit)}
    {body : Stmt Unit} (hi : Declared T initial) (hc : ∀ e, condition = some e → e.WellFormed T)
    (hs : ∀ e, step = some e → e.WellFormed T) (hb : Nested T body) :
    Nested T (.counting initial condition step body) := by
  have holds : (condition.getD (.literal (.bool true))).WellFormed T := by
    cases condition with
    | none => trivial
    | some e => exact hc e rfl
  have loop : (Stmt.counting none condition step body).WellFormed T := by
    cases step with
    | none => exact ⟨holds, hb⟩
    | some e => exact ⟨holds, ⟨hb.1, hs e rfl, trivial⟩, rfl⟩
  cases initial with
  | none => exact ⟨loop, by cases step <;> rfl⟩
  | some s => exact ⟨⟨hi s rfl, loop, trivial⟩, rfl⟩

theorem forStatement_yields (hi : inner.Yields T) : Yields T (Nested T) (forStatement inner) :=
  (expect_yields .leftParen _).bind fun _ _ => firstClause_yields.bind fun _ hinit =>
    (unlessKind_yields .semicolon wholeExpression_yields).bind fun _ hc =>
    (expect_yields .semicolon _).bind fun _ _ =>
    (unlessKind_yields .rightParen wholeExpression_yields).bind fun _ hs =>
    (expect_yields .rightParen _).bind fun _ _ => hi.statement.bind fun _ hb =>
      .pure (counting_nested hinit hc hs hb)

theorem statement_yields (hi : inner.Yields T) : Yields T (Nested T) (statement inner) := by
  refine choose_yields (fun t p _ hp => ?_) expressionStatement_yields
  unfold statementFrom? at hp
  split at hp
  all_goals cases hp
  case h_1 => exact forStatement_yields hi
  case h_2 => exact ifStatement_yields hi
  case h_3 => exact printStatement_yields
  case h_4 hk => exact returnStatement_yields hk
  case h_5 => exact whileStatement_yields hi
  case h_6 => exact (block_yields hi).map fun _ hb => ⟨hb, rfl⟩

theorem declaration_yields (hi : inner.Yields T) : Yields T (Declared T) (declaration inner) := by
  refine recover_yields (choose_yields (fun t p _ hp => ?_)
    ((statement_yields hi).mono fun _ h => h.1))
  unfold declarationFrom? at hp
  split at hp
  all_goals cases hp
  case h_1 => exact classDeclaration_yields hi
  case h_2 => exact (routine_yields hi .function).map fun _ hr => hr
  case h_3 => exact variableDeclaration_yields

theorem innerWithin_yields : ∀ bound, (innerWithin bound).Yields T
  | [] => by
    have innermost : Inner.Yields T ⟨reject .noExpression, reject .noExpression⟩ :=
      ⟨reject_yields _ _, reject_yields _ _⟩
    exact ⟨statement_yields innermost, declaration_yields innermost⟩
  | _ :: bound =>
    ⟨statement_yields (innerWithin_yields bound), declaration_yields (innerWithin_yields bound)⟩

theorem program_yields : Yields T (fun items => ∀ o ∈ items, Declared T o) program :=
  .bounded fun bound => untilKind_yields .eof
    (.bounded fun bound => (innerWithin_yields bound).declaration) bound

end Statements

end Lox.Parse

/-- The trees that are read are well-formed, whatever problems were met. -/
theorem Lox.parse_wellFormed {T : Lox.Token → Prop} {tokens : List Lox.Token}
    (h : ∀ t ∈ tokens, T t) : Lox.Stmt.AllWellFormed T (Lox.parse tokens).statements := by
  rw [Stmt.allWellFormed_iff]
  intro s hs
  obtain ⟨o, ho, rfl⟩ := List.mem_filterMap.mp hs
  have hv := (Parse.program_yields (tokens.takeWhile (·.kind != .eof))
    fun t ht => h t (List.takeWhile_subset _ ht)).2
  cases hp : (Parse.program (tokens.takeWhile (·.kind != .eof))).value with
  | none => rw [hp] at ho; cases ho
  | some items =>
    rw [hp] at ho
    exact hv items hp _ ho s rfl
