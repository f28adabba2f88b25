import Mathlib.Algebra.Ring.Nat
import Mathlib.Data.List.Perm.Subperm
import Lox.Proofs.ParsedTrees
import Lox.Proofs.References

/-! # No token stands for two references

A reader pays with a token for each reference in what it yields, and no token pays twice. This
holds whether or not problems are reported on the way, and in counting loops, whose parts are
put together in another order than they are read in. -/

namespace Lox

variable {P : Token → Bool}

/-! ## What there is to pay for -/

/-- How many of some references stand at tokens that pass a test. -/
def Reference.weight (P : Token → Bool) (rs : List (Reference Unit)) : Nat := rs.countP (P ·.name)

open Reference (weight)

theorem weight_append (a b : List (Reference Unit)) : weight P (a ++ b) = weight P a + weight P b :=
  List.countP_append

def Expr.weight (P : Token → Bool) (e : Expr Unit) : Nat := Reference.weight P e.references

def Stmt.weight (P : Token → Bool) (s : Stmt Unit) : Nat := Reference.weight P s.references

def Routine.weight (P : Token → Bool) (r : Routine (Stmt Unit)) : Nat := Reference.weight P (Routine.references r)

/-- What there is to pay for in a part that may be missing. -/
def optionally {α : Type} (cost : α → Nat) (o : Option α) : Nat := o.elim 0 cost

theorem Expr.weight_all (es : List (Expr Unit)) :
    Reference.weight P (Expr.allReferences es) = (es.map (Expr.weight P)).sum := by
  induction es with
  | nil => rfl
  | cons e rest ih => rw [Expr.allReferences, weight_append, ih, List.map_cons, List.sum_cons, Expr.weight]

theorem Stmt.weight_all (ss : List (Stmt Unit)) :
    Reference.weight P (Stmt.allReferences ss) = (ss.map (Stmt.weight P)).sum := by
  induction ss with
  | nil => rfl
  | cons s rest ih => rw [Stmt.allReferences, weight_append, ih, List.map_cons, List.sum_cons, Stmt.weight]

theorem Routine.weight_all (rs : List (Routine (Stmt Unit))) :
    Reference.weight P (Routine.allReferences rs) = (rs.map (Routine.weight P)).sum := by
  induction rs with
  | nil => rfl
  | cons r rest ih => rw [Routine.allReferences, weight_append, ih, List.map_cons, List.sum_cons, Routine.weight]

theorem Stmt.weight_read (items : List (Option (Stmt Unit))) :
    ((items.filterMap id).map (Stmt.weight P)).sum = (items.map (optionally (Stmt.weight P))).sum := by
  induction items with
  | nil => rfl
  | cons o rest ih =>
    cases o with
    | none => simpa [optionally] using ih
    | some s => simpa [optionally] using ih

/-! ## Paying with tokens -/

namespace Parse

variable {α β : Type} {c d : Nat} {cost cost' : α → Nat} {p : Parse α}

/-- What a reader yields costs no more than the tokens that it takes, and what has been paid before. -/
def Pays (P : Token → Bool) (c : Nat) (cost : α → Nat) (p : Parse α) : Prop :=
  ∀ us a, (p us).value = some a → cost a + (p us).rest.countP P ≤ c + us.countP P

namespace Pays

theorem pure {a : α} (h : cost a ≤ c) : Pays P c cost (Pure.pure a : Parse α) := by
  intro us b read
  obtain rfl := Option.some.inj read
  exact Nat.add_le_add_right h _

theorem mono (h : Pays P c cost p) (more : c ≤ d) (less : ∀ a, cost' a ≤ cost a) : Pays P d cost' p := by
  intro us a read
  have := h us a read
  have := less a
  omega

/-- What has been read first has been paid for. -/
theorem bind {cost' : β → Nat} {f : α → Parse β} (hp : Pays P 0 cost p)
    (hf : ∀ a, Pays P (c + cost a) cost' (f a)) : Pays P c cost' (p >>= f) := by
  intro us b read
  change (Parse.bind p f us).value = some b at read
  change cost' b + (Parse.bind p f us).rest.countP P ≤ c + us.countP P
  unfold Parse.bind at read ⊢
  cases hr : p us with
  | mk value rest errors =>
    rw [hr] at read
    cases value with
    | none => cases read
    | some a =>
      have first := hp us a (by rw [hr])
      have second := hf a rest b read
      rw [hr] at first
      dsimp only at first ⊢
      omega

/-- What has been taken for nothing is not missed. -/
theorem free {cost' : β → Nat} {f : α → Parse β} (hp : Pays P 0 (fun _ => 0) p)
    (hf : ∀ a, Pays P c cost' (f a)) : Pays P c cost' (p >>= f) := hp.bind hf

theorem map {cost' : β → Nat} {f : α → β} (hp : Pays P 0 cost p) (hf : ∀ a, cost' (f a) ≤ cost a) :
    Pays P 0 cost' (f <$> p) := hp.bind fun a => pure (by have := hf a; omega)

theorem bounded {p : List Token → Parse α} (h : ∀ bound, Pays P c cost (p bound)) : Pays P c cost (Parse.bounded p) :=
  fun us => h us us

end Pays

theorem reject_pays (cost : α → Nat) (problem : SyntaxProblem) : Pays P c cost (reject problem) :=
  fun _ _ read => by cases read

theorem report_pays (problem : SyntaxProblem) (token : Option Token) : Pays P 0 (fun _ => 0) (report problem token) :=
  fun _ _ _ => Nat.le_refl _

theorem atKind_pays (kind : Kind) : Pays P 0 (fun _ => 0) (atKind kind) := fun _ _ _ => Nat.le_refl _

theorem endsAt_pays (kind : Kind) : Pays P 0 (fun _ => 0) (endsAt kind) := fun _ _ _ => Nat.le_refl _

theorem take?_pays (test : Kind → Bool) : Pays P 0 (fun o => o.toList.countP P) (take? test) := by
  intro us o read
  cases us with
  | nil =>
    cases read
    exact Nat.le_refl _
  | cons t us =>
    cases ht : test t.kind with
    | true =>
      simp only [take?, ht, if_true] at read ⊢
      obtain rfl := Option.some.inj read
      simp [List.countP_cons, Nat.add_comm]
    | false =>
      have missed : take? test (t :: us) = ⟨some none, t :: us, []⟩ := by simp [take?, ht]
      rw [missed] at read ⊢
      cases read
      exact Nat.le_refl _

theorem take?_free (test : Kind → Bool) : Pays P 0 (fun _ => 0) (take? test) :=
  (take?_pays test).mono (Nat.le_refl 0) fun _ => Nat.zero_le _

theorem expect_pays (kind : Kind) (problem : SyntaxProblem) : Pays P 0 (fun t => [t].countP P) (expect kind problem) := by
  refine (take?_pays _).bind fun o => ?_
  cases o with
  | some t => exact .pure (by simp)
  | none => exact reject_pays _ _

theorem expect_free (kind : Kind) (problem : SyntaxProblem) : Pays P 0 (fun _ => 0) (expect kind problem) :=
  (expect_pays kind problem).mono (Nat.le_refl 0) fun _ => Nat.zero_le _

/-- The token that chooses a reader may pay, too. -/
theorem choose_pays {reader? : Token → Option (Parse α)} {otherwise : Parse α}
    (hr : ∀ t p, reader? t = some p → Pays P (c + [t].countP P) cost p) (ho : Pays P c cost otherwise) :
    Pays P c cost (choose reader? otherwise) := by
  intro us a read
  cases us with
  | nil => exact ho [] a read
  | cons t us =>
    cases chosen : reader? t with
    | none =>
      simp only [choose, chosen] at read ⊢
      exact ho _ a read
    | some p =>
      simp only [choose, chosen] at read ⊢
      have paid := hr t p chosen us a read
      rw [List.countP_cons]
      simp only [List.countP_singleton] at paid
      omega

theorem unlessKind_pays (kind : Kind) (hp : Pays P 0 cost p) : Pays P 0 (optionally cost) (unlessKind kind p) := by
  refine (atKind_pays kind).free fun here => ?_
  cases here with
  | true => exact .pure (Nat.le_refl 0)
  | false => exact hp.map fun _ => Nat.le_refl _

theorem untilKind_pays (kind : Kind) {item : Parse α} (hi : Pays P 0 cost item) :
    ∀ bound, Pays P 0 (fun xs => (xs.map cost).sum) (untilKind kind item bound)
  | [] => .pure (Nat.le_refl 0)
  | _ :: bound => by
    refine (endsAt_pays kind).free fun ended => ?_
    split
    · exact .pure (Nat.le_refl 0)
    · exact hi.bind fun x => (untilKind_pays kind hi bound).bind fun xs => .pure (by simp)

theorem checkRoom_pays (what : Listed) (seen : Nat) : Pays P 0 (fun _ => 0) (checkRoom what seen) := by
  unfold checkRoom
  split
  · exact fun _ _ _ => Nat.le_refl _
  · exact .pure (Nat.le_refl 0)

theorem commaList_pays (what : Listed) {item : Parse α} (hi : Pays P 0 cost item) :
    ∀ (bound : List Token) (seen : Nat), Pays P 0 (fun xs => (xs.map cost).sum) (commaList what item seen bound)
  | [], seen => (checkRoom_pays what seen).free fun _ => hi.bind fun x => .pure (by simp)
  | _ :: bound, seen => by
    refine (checkRoom_pays what seen).free fun _ => hi.bind fun x => (take?_free _).free fun o => ?_
    cases o with
    | none => exact .pure (by simp)
    | some t => exact (commaList_pays what hi bound (seen + 1)).bind fun xs => .pure (by simp)

theorem parenthesised_pays (what : Listed) {item : Parse α} (hi : Pays P 0 cost item) :
    Pays P 0 (fun xs => (xs.map cost).sum) (parenthesised what item) := by
  refine (atKind_pays .rightParen).free fun here => ?_
  cases here with
  | true => exact .pure (Nat.le_refl 0)
  | false => exact Pays.bounded (p := commaList what item 0) fun bound => commaList_pays what hi bound 0

/-! ## Expressions -/

section Expressions

variable {operand expression : Parse (Expr Unit)} {operator : Kind → Bool}
  {join : Expr Unit → Token → Expr Unit → Expr Unit}

theorem joined_pays (hj : ∀ l t r, (join l t r).weight P = l.weight P + r.weight P)
    (ho : Pays P 0 (Expr.weight P) operand) : ∀ (bound : List Token) (left : Expr Unit),
      Pays P (left.weight P) (Expr.weight P) (joined operator join operand left bound)
  | [], left => .pure (Nat.le_refl _)
  | _ :: bound, left => by
    refine (take?_free _).free fun o => ?_
    cases o with
    | none => exact .pure (Nat.le_refl _)
    | some t =>
      exact ho.bind fun right => (joined_pays hj ho bound (join left t right)).mono (Nat.le_of_eq (hj _ _ _))
        fun _ => Nat.le_refl _

theorem level_pays (hj : ∀ l t r, (join l t r).weight P = l.weight P + r.weight P)
    (ho : Pays P 0 (Expr.weight P) operand) : Pays P 0 (Expr.weight P) (level operator join operand) :=
  ho.bind fun left => .bounded fun bound => (joined_pays hj ho bound left).mono (Nat.le_add_left _ 0)
    fun _ => Nat.le_refl _

variable (he : Pays P 0 (Expr.weight P) expression)
include he

theorem operandFrom?_pays {t : Token} {p : Parse (Expr Unit)} (hp : operandFrom? expression t = some p) :
    Pays P (0 + [t].countP P) (Expr.weight P) p := by
  have named (r : Reference Unit) (hr : r.name = t) : weight P [r] = [t].countP P := by
    simp [weight, List.countP_singleton, hr]
  unfold operandFrom? at hp
  split at hp
  all_goals cases hp
  case h_1 | h_2 | h_3 | h_4 | h_5 => exact .pure (Nat.zero_le _)
  case h_6 | h_7 => exact .pure (by rw [Nat.zero_add]; exact Nat.le_of_eq (named _ rfl))
  case h_8 =>
    exact (expect_free _ _).free fun _ => (expect_free _ _).free fun _ =>
      .pure (by rw [Nat.zero_add]; exact Nat.le_of_eq (named _ rfl))
  case h_9 =>
    exact he.bind fun inner => (expect_free _ _).free fun _ => .pure (Nat.le_add_left _ _)

theorem suffixes_pays : ∀ (bound : List Token) (e : Expr Unit),
    Pays P (e.weight P) (Expr.weight P) (suffixes expression e bound)
  | [], e => .pure (Nat.le_refl _)
  | _ :: bound, e => by
    refine (take?_free _).free fun o => ?_
    cases o with
    | some _ =>
      refine (parenthesised_pays .arguments he).bind fun arguments => (expect_free _ _).free fun paren => ?_
      refine (suffixes_pays bound (.call e paren arguments)).mono ?_ fun _ => Nat.le_refl _
      rw [Expr.weight, Expr.references, weight_append, Expr.weight_all]
      exact Nat.le_refl _
    | none =>
      refine (take?_free _).free fun o => ?_
      cases o with
      | some _ => exact (expect_free _ _).free fun property => suffixes_pays bound (.get e property)
      | none => exact .pure (Nat.le_refl _)

theorem unary_pays : Pays P 0 (Expr.weight P) (unary expression) := by
  have call : Pays P 0 (Expr.weight P) (call expression) := by
    refine Pays.bind (choose_pays (fun t p hp => operandFrom?_pays he hp) (reject_pays _ _)) fun e => ?_
    exact .bounded fun bound => (suffixes_pays he bound e).mono (Nat.le_add_left _ 0) fun _ => Nat.le_refl _
  have operators : Pays P 0 (fun _ => 0) unaryOperators := fun us _ _ => by
    rw [Nat.zero_add, Nat.zero_add]
    exact (List.dropWhile_suffix _).sublist.countP_le
  refine operators.free fun ops => call.bind fun e => .pure ?_
  have applied : (ops.foldr Expr.unary e).weight P = e.weight P := by
    induction ops with
    | nil => rfl
    | cons op rest ih => exact ih
  omega

theorem assignment_pays : Pays P 0 (Expr.weight P) (assignment expression) := by
  have binary (l : Expr Unit) (t : Token) (r : Expr Unit) : (Expr.binary l t r).weight P = l.weight P + r.weight P :=
    weight_append _ _
  have logical (l : Expr Unit) (t : Token) (r : Expr Unit) : (Expr.logical l t r).weight P = l.weight P + r.weight P :=
    weight_append _ _
  have disjunction : Pays P 0 (Expr.weight P) (disjunction expression) :=
    level_pays logical <| level_pays logical <| level_pays binary <| level_pays binary <|
      level_pays binary <| level_pays binary <| unary_pays he
  refine disjunction.bind fun target => (take?_free _).free fun o => ?_
  cases o with
  | none => exact .pure (Nat.le_add_left _ 0)
  | some equals =>
    refine he.bind fun value => ?_
    split
    · exact .pure (by simp [Expr.weight, Expr.references, weight, List.countP_cons, Nat.add_comm])
    · exact .pure (by simp [Expr.weight, Expr.references, weight])
    · exact (report_pays _ _).free fun _ => .pure (by omega)

omit he in
theorem wholeExpression_pays : Pays P 0 (Expr.weight P) wholeExpression := by
  have within (bound : List Token) : Pays P 0 (Expr.weight P) (expressionWithin bound) := by
    induction bound with
    | nil => exact assignment_pays (reject_pays _ _)
    | cons _ _ ih => exact assignment_pays ih
  exact .bounded within

end Expressions

/-! ## Statements -/

/-- The readers for what stands inside a statement pay for what they yield. -/
structure Inner.Pays (P : Token → Bool) (inner : Inner) : Prop where
  statement : Parse.Pays P 0 (Stmt.weight P) inner.statement
  declaration : Parse.Pays P 0 (optionally (Stmt.weight P)) inner.declaration

section Statements

variable {inner : Inner}

theorem block_pays (hi : inner.Pays P) : Pays P 0 (fun ss => (ss.map (Stmt.weight P)).sum) (block inner) := by
  have items := Pays.bounded (p := untilKind .rightBrace inner.declaration) fun bound =>
    untilKind_pays .rightBrace hi.declaration bound
  refine items.bind fun items => (expect_free _ _).free fun _ => .pure ?_
  rw [Stmt.weight_read]
  exact Nat.le_add_left _ _

theorem routine_pays (hi : inner.Pays P) (kind : RoutineKind) : Pays P 0 (Routine.weight P) (routine inner kind) := by
  have params : Pays P 0 (fun _ => 0) (parenthesised .parameters (expect .identifier .noParameterName)) :=
    (parenthesised_pays .parameters (expect_free _ _)).mono (Nat.le_refl 0) fun _ => Nat.zero_le _
  refine (expect_free _ _).free fun name => (expect_free _ _).free fun _ => params.free fun params =>
    (expect_free _ _).free fun _ => (expect_free _ _).free fun _ => (block_pays hi).bind fun body => .pure ?_
  rw [Routine.weight, Routine.references, Stmt.weight_all]
  exact Nat.le_add_left _ _

theorem parentClause_pays : Pays P 0 (fun o => weight P o.toList) parentClause := by
  refine (take?_free _).free fun o => ?_
  cases o with
  | none => exact .pure (Nat.le_refl 0)
  | some _ => exact (expect_pays _ _).bind fun name => .pure (by simp [weight, List.countP_singleton])

theorem classDeclaration_pays (hi : inner.Pays P) : Pays P 0 (Stmt.weight P) (classDeclaration inner) := by
  have methods := Pays.bounded (p := untilKind .rightBrace (routine inner .method)) fun bound =>
    untilKind_pays .rightBrace (routine_pays hi .method) bound
  refine (expect_free _ _).free fun name => parentClause_pays.bind fun parent => (expect_free _ _).free fun _ =>
    methods.bind fun methods => (expect_free _ _).free fun _ => .pure ?_
  refine Nat.le_of_eq ?_
  rw [Stmt.weight, Stmt.references, weight_append, Routine.weight_all, Nat.zero_add]

theorem optionally_weight (o : Option (Expr Unit)) :
    weight P (Expr.references? o) = optionally (Expr.weight P) o := by
  cases o <;> rfl

theorem variableDeclaration_pays : Pays P 0 (Stmt.weight P) variableDeclaration := by
  have declared (name : Token) (initial : Option (Expr Unit)) : Pays P (0 + optionally (Expr.weight P) initial)
      (Stmt.weight P) (do
        let _ ← expect .semicolon .openDeclaration
        Pure.pure (Stmt.declare name initial)) := by
    refine (expect_free _ _).free fun _ => .pure ?_
    rw [Stmt.weight, Stmt.references, optionally_weight]
    exact Nat.le_add_left _ _
  refine (expect_free _ _).free fun name => (take?_free _).free fun o => ?_
  cases o with
  | none => exact Pays.bind (.pure (Nat.le_refl 0)) (declared name)
  | some _ => exact Pays.bind (wholeExpression_pays.map fun _ => Nat.le_refl _) (declared name)

theorem expressionStatement_pays : Pays P 0 (Stmt.weight P) expressionStatement :=
  wholeExpression_pays.bind fun _ => (expect_free _ _).free fun _ => .pure (Nat.le_add_left _ 0)

theorem printStatement_pays : Pays P 0 (Stmt.weight P) printStatement :=
  wholeExpression_pays.bind fun _ => (expect_free _ _).free fun _ => .pure (Nat.le_add_left _ 0)

theorem returnStatement_pays (keyword : Token) : Pays P 0 (Stmt.weight P) (returnStatement keyword) := by
  refine (unlessKind_pays .semicolon wholeExpression_pays).bind fun value => (expect_free _ _).free fun _ => .pure ?_
  rw [Stmt.weight, Stmt.references, optionally_weight]
  exact Nat.le_add_left _ _

theorem weight_else (no : Option (Stmt Unit)) : weight P (Stmt.references? no) = optionally (Stmt.weight P) no := by
  cases no <;> rfl

theorem ifStatement_pays (hi : inner.Pays P) : Pays P 0 (Stmt.weight P) (ifStatement inner) := by
  have branched (condition : Expr Unit) (yes : Stmt Unit) (no : Option (Stmt Unit)) :
      Pays P (0 + condition.weight P + yes.weight P + optionally (Stmt.weight P) no) (Stmt.weight P)
        (Pure.pure (Stmt.branch condition yes no)) := by
    refine .pure ?_
    rw [Stmt.weight, Stmt.references, weight_append, weight_append, weight_else]
    exact Nat.le_of_eq (by rw [Nat.zero_add, Nat.add_assoc]; rfl)
  refine (expect_free _ _).free fun _ => wholeExpression_pays.bind fun condition => (expect_free _ _).free fun _ =>
    hi.statement.bind fun yes => (take?_free _).free fun o => ?_
  cases o with
  | none => exact Pays.bind (.pure (Nat.le_refl 0)) (branched condition yes)
  | some _ => exact Pays.bind (hi.statement.map fun _ => Nat.le_refl _) (branched condition yes)

theorem weight_loop (condition : Expr Unit) (body : Stmt Unit) :
    (Stmt.loop condition body).weight P = condition.weight P + body.weight P := weight_append _ _

theorem whileStatement_pays (hi : inner.Pays P) : Pays P 0 (Stmt.weight P) (whileStatement inner) :=
  (expect_free _ _).free fun _ => wholeExpression_pays.bind fun condition => (expect_free _ _).free fun _ =>
    hi.statement.bind fun body => .pure (by rw [weight_loop]; omega)

theorem firstClause_pays : Pays P 0 (optionally (Stmt.weight P)) firstClause := by
  refine (take?_free _).free fun o => ?_
  cases o with
  | some _ => exact .pure (Nat.le_refl 0)
  | none =>
    refine (take?_free _).free fun o => ?_
    cases o with
    | some _ => exact variableDeclaration_pays.map fun _ => Nat.le_refl _
    | none => exact expressionStatement_pays.map fun _ => Nat.le_refl _

/-- In a counting loop each clause stands once. -/
theorem weight_counting (initial : Option (Stmt Unit)) (condition step : Option (Expr Unit)) (body : Stmt Unit) :
    (Stmt.counting initial condition step body).weight P = optionally (Stmt.weight P) initial +
      optionally (Expr.weight P) condition + optionally (Expr.weight P) step + body.weight P := by
  have pair (a b : Stmt Unit) : (Stmt.block [a, b]).weight P = a.weight P + b.weight P := by
    rw [Stmt.weight, Stmt.references, Stmt.weight_all]
    simp
  have holds : (condition.getD (.literal (.bool true))).weight P = optionally (Expr.weight P) condition := by
    cases condition <;> rfl
  have done (e : Expr Unit) : (Stmt.expression e).weight P = e.weight P := rfl
  cases initial <;> cases step <;> simp only [Stmt.counting, pair, weight_loop, holds, done, optionally, Option.elim] <;>
    omega

theorem forStatement_pays (hi : inner.Pays P) : Pays P 0 (Stmt.weight P) (forStatement inner) :=
  (expect_free _ _).free fun _ => firstClause_pays.bind fun initial =>
    (unlessKind_pays .semicolon wholeExpression_pays).bind fun condition => (expect_free _ _).free fun _ =>
    (unlessKind_pays .rightParen wholeExpression_pays).bind fun step => (expect_free _ _).free fun _ =>
    hi.statement.bind fun body => .pure (by rw [weight_counting]; omega)

theorem statement_pays (hi : inner.Pays P) : Pays P 0 (Stmt.weight P) (statement inner) := by
  refine choose_pays (fun t p hp => ?_) expressionStatement_pays
  have free {p : Parse (Stmt Unit)} (h : Pays P 0 (Stmt.weight P) p) : Pays P (0 + [t].countP P) (Stmt.weight P) p :=
    h.mono (Nat.zero_le _) fun _ => Nat.le_refl _
  unfold statementFrom? at hp
  split at hp
  all_goals cases hp
  case h_1 => exact free (forStatement_pays hi)
  case h_2 => exact free (ifStatement_pays hi)
  case h_3 => exact free printStatement_pays
  case h_4 => exact free (returnStatement_pays t)
  case h_5 => exact free (whileStatement_pays hi)
  case h_6 => exact free ((block_pays hi).map fun body => Nat.le_of_eq (Stmt.weight_all body))

/-- A declaration that is left out costs nothing. -/
theorem recover_pays {α : Type} {cost : α → Nat} {p : Parse α} (hp : Pays P 0 cost p)
    (suffix : ∀ us, (recover p us).rest <:+ us) : Pays P 0 (optionally cost) (recover p) := by
  intro us o read
  have left := (suffix us).sublist.countP_le (p := P)
  unfold recover at read left ⊢
  cases hr : p us with
  | mk value rest errors =>
    rw [hr] at read left
    cases value with
    | none =>
      cases read
      simpa [optionally] using left
    | some a =>
      cases read
      have paid := hp us a (by rw [hr])
      rw [hr] at paid
      exact paid

theorem declaration_pays (hi : inner.Pays P) (hy : inner.Yields fun _ => True) :
    Pays P 0 (optionally (Stmt.weight P)) (declaration inner) := by
  refine recover_pays (choose_pays (fun t p hp => ?_) (statement_pays hi)) fun us =>
    (declaration_yields hy us fun _ _ => trivial).1
  have free {p : Parse (Stmt Unit)} (h : Pays P 0 (Stmt.weight P) p) : Pays P (0 + [t].countP P) (Stmt.weight P) p :=
    h.mono (Nat.zero_le _) fun _ => Nat.le_refl _
  unfold declarationFrom? at hp
  split at hp
  all_goals cases hp
  case h_1 => exact free (classDeclaration_pays hi)
  case h_2 => exact free ((routine_pays hi .function).map fun r => Nat.le_refl _)
  case h_3 => exact free variableDeclaration_pays

theorem innerWithin_pays (bound : List Token) : (innerWithin bound).Pays P := by
  induction bound with
  | nil =>
    have innermost : Inner.Pays P ⟨reject .noExpression, reject .noExpression⟩ := ⟨reject_pays _ _, reject_pays _ _⟩
    exact ⟨statement_pays innermost, declaration_pays innermost ⟨reject_yields _ _, reject_yields _ _⟩⟩
  | cons _ bound ih => exact ⟨statement_pays ih, declaration_pays ih (innerWithin_yields bound)⟩

theorem program_pays : Pays P 0 (fun items => (items.map (optionally (Stmt.weight P))).sum) program :=
  .bounded fun bound => untilKind_pays .eof (.bounded fun bound => (innerWithin_pays bound).declaration) bound

end Statements

end Parse

open Classical in
/-- Each reference that is read stands at a token of its own. -/
theorem parse_references (tokens : List Token) :
    ((Stmt.allReferences (parse tokens).statements).map (·.name)).Subperm tokens := by
  refine List.subperm_ext_iff.mpr fun t _ => ?_
  have before : (tokens.takeWhile (·.kind != .eof)).Sublist tokens := List.takeWhile_sublist _
  refine Nat.le_trans ?_ before.countP_le
  have held : List.count t ((Stmt.allReferences (parse tokens).statements).map (·.name)) =
      weight (· == t) (Stmt.allReferences (parse tokens).statements) := List.countP_map
  rw [held, parse, Stmt.weight_all, Stmt.weight_read]
  cases read : (Parse.program (tokens.takeWhile (·.kind != .eof))).value with
  | none => exact Nat.zero_le _
  | some items =>
    have paid := Parse.program_pays (P := (· == t)) _ items read
    rw [Nat.zero_add] at paid
    exact Nat.le_trans (Nat.le_add_right _ _) paid

end Lox
