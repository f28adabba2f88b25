import Lox.Proofs.Recovery.Declarations

/-! # Statements that are not complete

Up to the token that closes them, such tokens are read as at most one statement. A reader that
gives up there does so in front of the closing token, and reading goes on behind it. -/

namespace Lox

/-- What neither closes a statement nor begins one, and is no brace. -/
structure Kind.IsInner (k : Kind) : Prop where
  semicolon : k ≠ .semicolon
  leftBrace : k ≠ .leftBrace
  rightBrace : k ≠ .rightBrace
  start : Parse.startsStatement k = false

namespace Parse

/-- Tokens inside a statement, and the one that closes it. -/
inductive Run (close : Token) : List Token → Prop
  | last : Run close [close]
  | cons {t : Token} {us : List Token} (h : t.kind.IsInner) (hs : Run close us) : Run close (t :: us)

variable {α β : Type} {close : Token}

/-- A reader that does not take the closing token. -/
def Spares (close : Token) (p : Parse α) : Prop := ∀ us, Run close us → Run close (p us).rest

/-- A reader that gives up in front of the closing token. -/
def Fails (close : Token) (p : Parse α) : Prop :=
  ∀ us, Run close us → (p us).value = none ∧ Run close (p us).rest

/-- What comes to nothing in front of the closing token, or to a value behind it. -/
def ClosedBy (close : Token) (r : Reply α) : Prop :=
  (r.value = none ∧ Run close r.rest) ∨ (close.kind = .semicolon ∧ r.value.isSome ∧ r.rest = [])

/-- A reader that gives up in front of the closing token, or takes it last if it is a semicolon. -/
def Closes (close : Token) (p : Parse α) : Prop := ∀ us, Run close us → ClosedBy close (p us)

section Parts

variable {p : Parse α} {f : α → Parse β}

theorem Fails.closes (h : Fails close p) : Closes close p := fun us run => .inl (h us run)

theorem Closes.fails (h : Closes close p) (hc : close.kind ≠ .semicolon) : Fails close p :=
  fun us run => (h us run).resolve_right fun ends => hc ends.1

theorem pure_spares (a : α) : Spares close (pure a) := fun _ run => run

theorem reject_spares (problem : SyntaxProblem) : Spares close (reject problem : Parse α) := fun _ run => run

theorem report_spares (problem : SyntaxProblem) (token : Option Token) : Spares close (report problem token) :=
  fun _ run => run

theorem atKind_spares (kind : Kind) : Spares close (atKind kind) := fun _ run => run

theorem checkRoom_spares (what : Listed) (seen : Nat) : Spares close (checkRoom what seen) := by
  unfold checkRoom
  split
  · exact fun _ run => run
  · exact pure_spares ()

theorem Spares.bind (hp : Spares close p) (hf : ∀ a, Spares close (f a)) : Spares close (p >>= f) := by
  intro us run
  have first := hp us run
  change Run close (Parse.bind p f us).rest
  unfold Parse.bind
  split
  · rename_i h
    rw [h] at first
    exact first
  · rename_i a _ _ h
    rw [h] at first
    exact hf a _ first

theorem Spares.map {f : α → β} (hp : Spares close p) : Spares close (f <$> p) :=
  hp.bind fun a => pure_spares (f a)

theorem Spares.bind_closes (hp : Spares close p) (hf : ∀ a, Closes close (f a)) : Closes close (p >>= f) := by
  intro us run
  have first := hp us run
  change ClosedBy close (Parse.bind p f us)
  unfold Parse.bind
  split
  · rename_i h
    rw [h] at first
    exact .inl ⟨rfl, first⟩
  · rename_i a _ _ h
    rw [h] at first
    exact hf a _ first

/-- Behind the closing token the rest comes to a value without any more tokens. -/
theorem Closes.bind (hp : Closes close p) (hf : ∀ a, (f a []).value.isSome ∧ (f a []).rest = []) :
    Closes close (p >>= f) := by
  intro us run
  have first := hp us run
  change ClosedBy close (Parse.bind p f us)
  unfold Parse.bind
  split
  · rename_i h
    rw [h] at first
    rcases first with ⟨-, stopped⟩ | ⟨-, read, -⟩
    · exact .inl ⟨rfl, stopped⟩
    · cases read
  · rename_i a _ _ h
    rw [h] at first
    rcases first with ⟨gone, -⟩ | ⟨hc, -, ends⟩
    · cases gone
    · obtain rfl : _ = [] := ends
      exact .inr ⟨hc, hf a⟩

theorem Closes.map {f : α → β} (hp : Closes close p) : Closes close (f <$> p) :=
  hp.bind fun _ => ⟨rfl, rfl⟩

theorem Fails.bind (hp : Fails close p) : Fails close (p >>= f) := by
  intro us run
  have first := hp us run
  change (Parse.bind p f us).value = none ∧ Run close (Parse.bind p f us).rest
  unfold Parse.bind
  split
  · rename_i h
    rw [h] at first
    exact ⟨rfl, first.2⟩
  · rename_i h
    rw [h] at first
    cases first.1

theorem take?_spares {test : Kind → Bool} (h : test close.kind = false) : Spares close (take? test) := by
  intro us run
  cases run with
  | last => rw [take?_miss fun t m => Option.some.inj m ▸ h]; exact .last
  | @cons t us ht run =>
    rw [take?]
    split
    · exact run
    · exact .cons ht run

theorem kind_spares {kind : Kind} (h : close.kind ≠ kind) : Spares close (take? (· == kind)) :=
  take?_spares (beq_eq_false_iff_ne.mpr h)

/-- A token that none of these is cannot be taken. -/
theorem take?_misses (test : Kind → Bool) (h : test close.kind = false)
    (inner : ∀ k : Kind, k.IsInner → test k = false) {us : List Token} (run : Run close us) :
    take? test us = ⟨some none, us, []⟩ := by
  cases run with
  | last => exact take?_miss fun t m => Option.some.inj m ▸ h
  | cons ht run => exact take?_miss fun t m => Option.some.inj m ▸ inner _ ht

theorem expect_spares {kind : Kind} (problem : SyntaxProblem) (h : close.kind ≠ kind) :
    Spares close (expect kind problem) := by
  refine (kind_spares h).bind fun o => ?_
  cases o with
  | none => exact reject_spares problem
  | some t => exact pure_spares t

theorem expect_fails {kind : Kind} (problem : SyntaxProblem) (h : close.kind ≠ kind)
    (outer : ¬ kind.IsInner) : Fails close (expect kind problem) := by
  intro us run
  have missed := take?_misses (· == kind) (beq_eq_false_iff_ne.mpr h)
    (fun k hk => beq_eq_false_iff_ne.mpr fun e => outer (e ▸ hk)) run
  rw [expect, bind_reply missed]
  exact ⟨rfl, run⟩

theorem semicolon_closes (problem : SyntaxProblem) : Closes close (expect .semicolon problem) := by
  by_cases hc : close.kind = .semicolon
  · intro us run
    cases run with
    | last => rw [expect_reply problem hc]; exact .inr ⟨hc, rfl, rfl⟩
    | @cons t us ht run =>
      have missed : take? (· == Kind.semicolon) (t :: us) = ⟨some none, t :: us, []⟩ :=
        take?_miss fun u m => beq_eq_false_iff_ne.mpr (Option.some.inj m ▸ ht.semicolon)
      rw [expect, bind_reply missed]
      exact .inl ⟨rfl, .cons ht run⟩
  · exact (expect_fails problem hc fun inner => inner.semicolon rfl).closes

theorem choose_spares {reader? : Token → Option (Parse α)} {otherwise : Parse α}
    (hr : ∀ t p, reader? t = some p → Spares close p) (hc : reader? close = none)
    (ho : Spares close otherwise) : Spares close (choose reader? otherwise) := by
  intro us run
  cases run with
  | last => rw [choose_otherwise hc]; exact ho _ .last
  | @cons t us ht run =>
    cases chosen : reader? t with
    | none => rw [choose_otherwise chosen]; exact ho _ (.cons ht run)
    | some p => rw [choose_reply chosen]; exact hr t p chosen us run

theorem unlessKind_spares (kind : Kind) (hp : Spares close p) : Spares close (unlessKind kind p) := by
  refine (atKind_spares kind).bind fun here => ?_
  cases here with
  | true => exact pure_spares none
  | false => exact hp.map

theorem commaList_spares (what : Listed) (hc : close.kind ≠ .comma) (hp : Spares close p) (bound : List Token) :
    ∀ seen, Spares close (commaList what p seen bound) := by
  induction bound with
  | nil => exact fun seen => (checkRoom_spares what seen).bind fun _ => hp.bind fun x => pure_spares [x]
  | cons b bound ih =>
    refine fun seen => (checkRoom_spares what seen).bind fun _ => hp.bind fun x =>
      (kind_spares hc).bind fun o => ?_
    cases o with
    | none => exact pure_spares [x]
    | some t => exact (ih (seen + 1)).bind fun xs => pure_spares (x :: xs)

theorem parenthesised_spares (what : Listed) (hc : close.kind ≠ .comma) (hp : Spares close p) :
    Spares close (parenthesised what p) := by
  refine (atKind_spares .rightParen).bind fun here => ?_
  cases here with
  | true => exact pure_spares []
  | false => exact fun us run => commaList_spares what hc hp us 0 us run

end Parts

/-- What a statement is closed with, or the block around it. -/
def IsClose (k : Kind) : Prop := k = .semicolon ∨ k = .rightBrace

section Closed

variable (hc : IsClose close.kind)
include hc

theorem IsClose.ne {k : Kind} (h : ¬ IsClose k := by simp [IsClose]) : close.kind ≠ k := fun e => h (e ▸ hc)

/-! ## Expressions -/

section Expressions

variable {operand expression : Parse (Expr Unit)} {join : Expr Unit → Token → Expr Unit → Expr Unit}

theorem test_close {test : Kind → Bool} (h : test .semicolon = false ∧ test .rightBrace = false) :
    test close.kind = false := by
  rcases hc with e | e
  · rw [e, h.1]
  · rw [e, h.2]

theorem level_spares {operator : Kind → Bool} (h : operator .semicolon = false ∧ operator .rightBrace = false)
    (ho : Spares close operand) : Spares close (level operator join operand) := by
  have joined (bound : List Token) : ∀ left, Spares close (joined operator join operand left bound) := by
    induction bound with
    | nil => exact pure_spares
    | cons b bound ih =>
      refine fun left => (take?_spares (test_close hc h)).bind fun o => ?_
      cases o with
      | none => exact pure_spares left
      | some op => exact ho.bind fun right => ih _
  exact ho.bind fun left us run => joined us left us run

variable (he : Spares close expression)
include he

theorem call_spares : Spares close (call expression) := by
  have primary : Spares close (primary expression) := by
    refine choose_spares (fun t p chosen => ?_) ?_ (reject_spares _)
    · unfold operandFrom? at chosen
      split at chosen
      all_goals cases chosen
      case h_8 =>
        exact (expect_spares _ hc.ne).bind fun _ => (expect_spares _ hc.ne).bind fun _ => pure_spares _
      case h_9 => exact he.bind fun _ => (expect_spares _ hc.ne).bind fun _ => pure_spares _
      all_goals exact pure_spares _
    · rcases hc with e | e
      all_goals simp [operandFrom?, e]
  have suffixes (bound : List Token) : ∀ operand, Spares close (suffixes expression operand bound) := by
    induction bound with
    | nil => exact pure_spares
    | cons b bound ih =>
      refine fun operand => (take?_spares (test_close hc ⟨rfl, rfl⟩)).bind fun paren => ?_
      cases paren with
      | some _ =>
        exact (parenthesised_spares .arguments hc.ne he).bind fun _ =>
          (expect_spares _ hc.ne).bind fun _ => ih _
      | none =>
        refine (take?_spares (test_close hc ⟨rfl, rfl⟩)).bind fun dot => ?_
        cases dot with
        | some _ => exact (expect_spares _ hc.ne).bind fun _ => ih _
        | none => exact pure_spares operand
  exact primary.bind fun operand us run => suffixes us operand us run

theorem unary_spares : Spares close (unary expression) := by
  have operators : Spares close unaryOperators := by
    intro us run
    unfold unaryOperators
    induction run with
    | last =>
      have kept : isUnary close.kind = false := test_close hc ⟨rfl, rfl⟩
      rw [List.dropWhile_cons_of_neg (by simp [kept])]
      exact .last
    | @cons t us ht run ih =>
      dsimp only at ih ⊢
      rw [List.dropWhile_cons]
      split
      · exact ih
      · exact .cons ht run
  exact operators.bind fun _ => (call_spares hc he).bind fun _ => pure_spares _

theorem assignment_spares : Spares close (assignment expression) := by
  have disjunction : Spares close (disjunction expression) :=
    level_spares hc ⟨rfl, rfl⟩ <| level_spares hc ⟨rfl, rfl⟩ <| level_spares hc ⟨rfl, rfl⟩ <|
      level_spares hc ⟨rfl, rfl⟩ <| level_spares hc ⟨rfl, rfl⟩ <| level_spares hc ⟨rfl, rfl⟩ <|
      unary_spares hc he
  refine disjunction.bind fun target => (take?_spares (test_close hc ⟨rfl, rfl⟩)).bind fun o => ?_
  cases o with
  | none => exact pure_spares target
  | some equals =>
    refine he.bind fun value => ?_
    split
    · exact pure_spares _
    · exact pure_spares _
    · exact (report_spares _ _).bind fun _ => pure_spares target

omit he in
theorem wholeExpression_spares : Spares close wholeExpression := by
  have within (bound : List Token) : Spares close (expressionWithin bound) := by
    induction bound with
    | nil => exact assignment_spares hc (reject_spares _)
    | cons b bound ih => exact assignment_spares hc ih
  exact fun us run => within us us run

end Expressions

/-! ## Statements -/

section Statements

variable {inner : Inner}

omit hc in
theorem leftBrace_fails (problem : SyntaxProblem) (h : close.kind ≠ .leftBrace) :
    Fails close (expect .leftBrace problem) := expect_fails problem h fun inner => inner.leftBrace rfl

theorem variableDeclaration_closes : Closes close variableDeclaration := by
  have closed (name : Token) (initial : Option (Expr Unit)) : Closes close (do
      let _ ← expect .semicolon .openDeclaration
      pure (Stmt.declare name initial)) := (semicolon_closes _).map
  refine (expect_spares _ hc.ne).bind_closes fun name =>
    (kind_spares hc.ne).bind_closes fun o => ?_
  cases o with
  | none => exact (pure_spares none).bind_closes (closed name)
  | some _ => exact (wholeExpression_spares hc).map.bind_closes (closed name)

theorem expressionStatement_closes : Closes close expressionStatement :=
  (wholeExpression_spares hc).bind_closes fun _ => (semicolon_closes _).map

theorem printStatement_closes : Closes close printStatement :=
  (wholeExpression_spares hc).bind_closes fun _ => (semicolon_closes _).map

theorem returnStatement_closes (keyword : Token) : Closes close (returnStatement keyword) :=
  (unlessKind_spares _ (wholeExpression_spares hc)).bind_closes fun _ => (semicolon_closes _).map

/-- A routine has a body, so it is not complete without a brace. -/
theorem routine_closes (kind : RoutineKind) : Closes close (routine inner kind) := by
  have brace := hc.ne (k := .leftBrace)
  refine (expect_spares _ hc.ne).bind_closes fun _ =>
    (expect_spares _ hc.ne).bind_closes fun _ =>
    (parenthesised_spares _ hc.ne (expect_spares _ hc.ne)).bind_closes
    fun _ => (expect_spares _ hc.ne).bind_closes fun _ => (leftBrace_fails _ brace).bind.closes

theorem classDeclaration_closes : Closes close (classDeclaration inner) := by
  have brace := hc.ne (k := .leftBrace)
  have parent : Spares close parentClause := by
    refine (kind_spares hc.ne).bind fun o => ?_
    cases o with
    | none => exact pure_spares none
    | some _ => exact (expect_spares _ hc.ne).bind fun _ => pure_spares _
  exact (expect_spares _ hc.ne).bind_closes fun _ => parent.bind_closes fun _ =>
    (leftBrace_fails _ brace).bind.closes

theorem ifStatement_closes (hs : Closes close inner.statement) : Closes close (ifStatement inner) :=
  (expect_spares _ hc.ne).bind_closes fun _ => (wholeExpression_spares hc).bind_closes
    fun _ => (expect_spares _ hc.ne).bind_closes fun _ => hs.bind fun _ => ⟨rfl, rfl⟩

theorem whileStatement_closes (hs : Closes close inner.statement) : Closes close (whileStatement inner) :=
  (expect_spares _ hc.ne).bind_closes fun _ => (wholeExpression_spares hc).bind_closes
    fun _ => (expect_spares _ hc.ne).bind_closes fun _ => hs.bind fun _ => ⟨rfl, rfl⟩

/-- The first clause of a counting loop has a semicolon. -/
theorem forStatement_closes (h : close.kind ≠ .semicolon) : Closes close (forStatement inner) := by
  have clause : Fails close firstClause := by
    intro us run
    have noSemicolon := take?_misses (· == .semicolon) (beq_eq_false_iff_ne.mpr h)
      (fun k hk => beq_eq_false_iff_ne.mpr hk.semicolon) run
    have noVar := take?_misses (· == .kwVar) (beq_eq_false_iff_ne.mpr hc.ne)
      (fun k hk => beq_eq_false_iff_ne.mpr fun e => by simpa [e, startsStatement] using hk.start) run
    rw [firstClause, bind_reply noSemicolon]
    dsimp only
    rw [bind_reply noVar]
    exact (expressionStatement_closes hc).map.fails h us run
  exact (expect_spares _ hc.ne).bind_closes fun _ => clause.bind.closes

omit hc in
theorem begins_none {us : List Token} (hc : IsClose close.kind) (run : Run close us) : ∃ t vs, us = t :: vs ∧
    (∀ inner, statementFrom? inner t = none) ∧ ∀ inner, declarationFrom? inner t = none := by
  have apart {t : Token} (h : startsStatement t.kind = false) (brace : t.kind ≠ .leftBrace) :
      (∀ inner, statementFrom? inner t = none) ∧ ∀ inner, declarationFrom? inner t = none := by
    cases hk : t.kind <;> simp_all [startsStatement, statementFrom?, declarationFrom?]
  cases run with
  | last => exact ⟨close, [], rfl, apart (by rcases hc with e | e <;> rw [e] <;> rfl) hc.ne⟩
  | @cons t us ht run => exact ⟨t, us, rfl, apart ht.start ht.leftBrace⟩

theorem statement_closes : Closes close (statement inner) := by
  intro us run
  obtain ⟨t, vs, rfl, none, -⟩ := begins_none hc run
  rw [statement, choose_otherwise (none inner)]
  exact expressionStatement_closes hc _ run

theorem innerWithin_closes (bound : List Token) : Closes close (innerWithin bound).statement := by
  cases bound with
  | nil => exact statement_closes hc
  | cons b bound => exact statement_closes hc

end Statements

end Closed

/-- What may be given up as one statement: tokens inside a statement, behind a keyword or not, and
the one that closes it. A `for` is not closed with the first semicolon. -/
inductive Trial (close : Token) : List Token → Prop
  | plain {us : List Token} (run : Run close us) : Trial close us
  | keyword {t : Token} {us : List Token} (ht : startsStatement t.kind = true)
      (hf : close.kind = .semicolon → t.kind ≠ .kwFor) (run : Run close us) : Trial close (t :: us)

section Core

variable (hc : IsClose close.kind) {us : List Token}
include hc

theorem core_closes (trial : Trial close us) (bound : List Token) :
    ClosedBy close (core (innerWithin bound) us) := by
  have inner := innerWithin_closes hc bound
  cases trial with
  | plain run =>
    obtain ⟨t, vs, rfl, -, none⟩ := begins_none hc run
    rw [core, choose_otherwise (none _)]
    exact statement_closes hc _ run
  | @keyword t us ht hf run =>
    have declared {p : Parse (Stmt Unit)} (begun : declarationFrom? (innerWithin bound) t = some p)
        (hp : Closes close p) : ClosedBy close (core (innerWithin bound) (t :: us)) := by
      rw [core, choose_reply begun]
      exact hp us run
    have stated {p : Parse (Stmt Unit)} (other : declarationFrom? (innerWithin bound) t = none)
        (begun : statementFrom? (innerWithin bound) t = some p) (hp : Closes close p) :
        ClosedBy close (core (innerWithin bound) (t :: us)) := by
      rw [core, choose_otherwise other, statement, choose_reply begun]
      exact hp us run
    have kinds : t.kind = .kwClass ∨ t.kind = .kwFun ∨ t.kind = .kwVar ∨ t.kind = .kwFor ∨ t.kind = .kwIf ∨
        t.kind = .kwWhile ∨ t.kind = .kwPrint ∨ t.kind = .kwReturn := by
      simpa [startsStatement, or_assoc] using ht
    rcases kinds with hk | hk | hk | hk | hk | hk | hk | hk
    · exact declared (by rw [declarationFrom?, hk]) (classDeclaration_closes hc)
    · exact declared (by rw [declarationFrom?, hk]) (routine_closes hc _).map
    · exact declared (by rw [declarationFrom?, hk]) (variableDeclaration_closes hc)
    · exact stated (by rw [declarationFrom?, hk]) (by rw [statementFrom?, hk])
        (forStatement_closes hc fun e => hf e hk)
    · exact stated (by rw [declarationFrom?, hk]) (by rw [statementFrom?, hk]) (ifStatement_closes hc inner)
    · exact stated (by rw [declarationFrom?, hk]) (by rw [statementFrom?, hk]) (whileStatement_closes hc inner)
    · exact stated (by rw [declarationFrom?, hk]) (by rw [statementFrom?, hk]) (printStatement_closes hc)
    · exact stated (by rw [declarationFrom?, hk]) (by rw [statementFrom?, hk]) (returnStatement_closes hc t)

/-- Nothing in front of the closing token keeps the reader from going on behind it. -/
theorem resume_run (run : Run close us) (more : List Token) : resume (us ++ more) = resumeAfter close more := by
  have after (us : List Token) (run : Run close us) : ∀ t : Token, t.kind ≠ .semicolon →
      resumeAfter t (us ++ more) = resumeAfter close more := by
    induction run with
    | last =>
      intro t ht
      have start : startsStatement close.kind = false := by rcases hc with e | e <;> rw [e] <;> rfl
      rw [List.singleton_append, resumeAfter, if_neg (by simp [ht, start])]
    | @cons u us hu _ ih =>
      intro t ht
      rw [List.cons_append, resumeAfter, if_neg (by simp [ht, hu.start])]
      exact ih u hu.semicolon
  cases run with
  | last => rfl
  | @cons t us ht run => exact after us run t ht.semicolon

end Core

end Parse

end Lox
