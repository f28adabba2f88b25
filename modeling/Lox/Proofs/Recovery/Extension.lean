import Lox.Parse.Program
import Lox.Proofs.Grammar.Replies

/-! # Readers with more tokens behind

A reader that does not come to the end of its tokens replies as it would with more of them
behind. How long its bounds are does not matter, if they are no shorter than the tokens. -/

namespace Lox

/-- A reply to some tokens in front of more. -/
def Reply.before {α : Type} (r : Reply α) (more : List Token) : Reply α := { r with rest := r.rest ++ more }

namespace Parse

variable {α β : Type}

/-- To these tokens the first reader replies as the second one does with more behind. -/
structure Extends (p q : Parse α) (us : List Token) : Prop where
  shrinks : (p us).rest.length ≤ us.length
  same : ∀ more, more = [] ∨ (p us).rest ≠ [] → q (us ++ more) = (p us).before more

/-- A value costs at least one token. -/
def Spends (p : Parse α) (us : List Token) : Prop :=
  (p us).value.isSome → (p us).rest.length < us.length

/-- The readers that are meant extend to no more than so many tokens. -/
def Extending (n : Nat) (p q : Parse α) : Prop := ∀ us, us.length ≤ n → Extends p q us

/-- The same of readers whose values cost tokens, and which are only asked where some are left. -/
def Advancing (n : Nat) (p q : Parse α) : Prop :=
  ∀ us, us ≠ [] → us.length ≤ n → Extends p q us ∧ Spends p us

section Parts

variable {n m : Nat} {p q : Parse α} {f g : α → Parse β} {us : List Token}

theorem Extending.mono (h : Extending n p q) (le : m ≤ n) : Extending m p q :=
  fun us short => h us (Nat.le_trans short le)

theorem Advancing.mono (h : Advancing n p q) (le : m ≤ n) : Advancing m p q :=
  fun us some short => h us some (Nat.le_trans short le)

theorem Extends.bind (hp : Extends p q us)
    (hf : ∀ a, (p us).value = some a → Extends (f a) (g a) (p us).rest) :
    Extends (p >>= f) (q >>= g) us := by
  change Extends (Parse.bind p f) (Parse.bind q g) us
  obtain ⟨shrinks, same⟩ := hp
  cases hr : p us with
  | mk value rest errors =>
    rw [hr] at shrinks same hf
    dsimp only at shrinks same hf
    cases value with
    | none =>
      have stops : Parse.bind p f us = ⟨none, rest, errors⟩ := by simp only [Parse.bind, hr]
      refine ⟨by rw [stops]; exact shrinks, fun more apart => ?_⟩
      rw [stops] at apart ⊢
      simp only [Parse.bind, same more apart, Reply.before]
    | some a =>
      obtain ⟨shrinks', same'⟩ := hf a rfl
      have goes : Parse.bind p f us = { f a rest with errors := errors ++ (f a rest).errors } := by
        simp only [Parse.bind, hr]
      refine ⟨by rw [goes]; exact Nat.le_trans shrinks' shrinks, fun more apart => ?_⟩
      rw [goes] at apart ⊢
      have before : more = [] ∨ rest ≠ [] := by
        refine apart.imp_right fun left => ?_
        rintro rfl
        exact left (List.eq_nil_of_length_eq_zero (Nat.le_zero.mp shrinks'))
      simp only [Parse.bind, same more before, Reply.before, same' more apart]

theorem Spends.bind_left (hp : Spends p us)
    (hf : ∀ a, (f a (p us).rest).rest.length ≤ (p us).rest.length) : Spends (p >>= f) us := by
  change Spends (Parse.bind p f) us
  unfold Spends Parse.bind at *
  cases hr : p us with
  | mk value rest errors =>
    rw [hr] at hp hf
    cases value with
    | none => exact fun h => by cases h
    | some a => exact fun _ => Nat.lt_of_le_of_lt (hf a) (hp rfl)

theorem Spends.bind_right (hp : (p us).rest.length ≤ us.length) (hf : ∀ a, Spends (f a) (p us).rest) :
    Spends (p >>= f) us := by
  change Spends (Parse.bind p f) us
  unfold Spends Parse.bind at *
  cases hr : p us with
  | mk value rest errors =>
    rw [hr] at hp hf
    cases value with
    | none => exact fun h => by cases h
    | some a => exact fun some => Nat.lt_of_lt_of_le (hf a some) hp

theorem Extending.bind (hp : Extending n p q) (hf : ∀ a, Extending n (f a) (g a)) :
    Extending n (p >>= f) (q >>= g) := fun us short =>
  (hp us short).bind fun a _ => hf a _ (Nat.le_trans (hp us short).shrinks short)

theorem pure_extending (a : α) : Extending n (pure a : Parse α) (pure a) :=
  fun _ _ => ⟨Nat.le_refl _, fun _ _ => rfl⟩

theorem Extending.map {f : α → β} (hp : Extending n p q) : Extending n (f <$> p) (f <$> q) :=
  hp.bind fun a => pure_extending (f a)

/-- Where no token is left there is nothing to take. -/
theorem extending_zero (rest : (p []).rest = []) (same : q [] = p []) : Extending 0 p q := by
  intro us short
  obtain rfl := List.eq_nil_of_length_eq_zero (Nat.le_zero.mp short)
  refine ⟨Nat.le_of_eq (congrArg List.length rest), fun more apart => ?_⟩
  obtain rfl := apart.resolve_right fun h => h rest
  rw [List.nil_append, same, Reply.before, List.append_nil]

/-- A reader that is nothing but a look at the next token. -/
theorem look_extending (h : ∀ us, (p us).rest = us)
    (same : ∀ us more, more = [] ∨ us ≠ [] → p (us ++ more) = (p us).before more) : Extending n p p :=
  fun us _ => ⟨Nat.le_of_eq (by rw [h]), fun more apart => same us more (by rwa [h] at apart)⟩

theorem head?_before {more : List Token} (apart : more = [] ∨ us ≠ []) : (us ++ more).head? = us.head? := by
  cases us with
  | nil => rw [apart.resolve_right fun h => h rfl, List.append_nil]
  | cons t us => rfl

theorem report_extending (problem : SyntaxProblem) (token : Option Token) :
    Extending n (report problem token) (report problem token) :=
  look_extending (fun _ => rfl) fun _ _ _ => rfl

theorem reject_extending (problem : SyntaxProblem) :
    Extending n (reject problem : Parse α) (reject problem) :=
  look_extending (fun _ => rfl) fun us more apart => by
    unfold reject
    rw [head?_before apart]
    rfl

theorem complain_extending (problem : SyntaxProblem) : Extending n (complain problem) (complain problem) :=
  look_extending (fun _ => rfl) fun us more apart => by
    unfold complain report
    rw [head?_before apart]
    rfl

theorem atKind_extending (kind : Kind) : Extending n (atKind kind) (atKind kind) :=
  look_extending (fun _ => rfl) fun us more apart => by
    unfold atKind
    rw [head?_before apart]
    rfl

theorem take?_extends (test : Kind → Bool) (us : List Token) : Extends (take? test) (take? test) us := by
  cases us with
  | nil => exact ⟨Nat.le_refl _, fun more apart => by rw [apart.resolve_right fun h => h rfl]; rfl⟩
  | cons t us =>
    cases ht : test t.kind with
    | true => exact ⟨by simp [take?, ht], fun more _ => by simp [take?, ht, Reply.before]⟩
    | false => exact ⟨by simp [take?, ht], fun more _ => by simp [take?, ht, Reply.before]⟩

/-- Behind a token that has been taken there are fewer. -/
theorem take?_extending {f g : Option Token → Parse β} {test : Kind → Bool}
    (hit : ∀ t, Extending (n - 1) (f (some t)) (g (some t))) (miss : Extending n (f none) (g none)) :
    Extending n (take? test >>= f) (take? test >>= g) := by
  intro us short
  refine (take?_extends test us).bind fun o taken => ?_
  cases us with
  | nil =>
    cases taken
    exact miss [] short
  | cons t us =>
    rw [List.length_cons] at short
    cases ht : test t.kind with
    | true =>
      rw [take?_hit ht] at taken ⊢
      cases taken
      exact hit t us (by omega)
    | false =>
      have missed : take? test (t :: us) = ⟨some none, t :: us, []⟩ :=
        take?_miss fun u m => Option.some.inj m ▸ ht
      rw [missed] at taken ⊢
      cases taken
      exact miss _ short

theorem expect_extending (kind : Kind) (problem : SyntaxProblem) :
    Extending n (expect kind problem) (expect kind problem) :=
  take?_extending (fun t => pure_extending t) (reject_extending problem)

theorem expect_spends (kind : Kind) (problem : SyntaxProblem) (us : List Token) :
    Spends (expect kind problem) us := by
  intro read
  cases us with
  | nil => cases read
  | cons t us =>
    by_cases ht : t.kind = kind
    · rw [expect_reply problem ht]
      exact Nat.lt_succ_self _
    · have missed : take? (· == kind) (t :: us) = ⟨some none, t :: us, []⟩ :=
        take?_miss fun u m => beq_eq_false_iff_ne.mpr (Option.some.inj m ▸ ht)
      rw [expect, bind_reply missed] at read
      cases read

theorem choose_extending {f g : Token → Option (Parse α)} (h : ∀ t, Option.Rel (Extending (n - 1)) (f t) (g t))
    (ho : Extending n p q) : Extending n (choose f p) (choose g q) := by
  intro us short
  cases us with
  | nil =>
    obtain ⟨shrinks, same⟩ := ho [] short
    refine ⟨shrinks, fun more apart => ?_⟩
    obtain rfl := apart.resolve_right fun some =>
      some (List.eq_nil_of_length_eq_zero (Nat.le_zero.mp shrinks))
    exact same [] (.inl rfl)
  | cons t us =>
    have chosen := h t
    rw [List.length_cons] at short
    have otherwise := ho (t :: us) short
    generalize hf : f t = x at chosen
    generalize hg : g t = y at chosen
    cases chosen with
    | none =>
      refine ⟨by rw [choose_otherwise hf]; exact otherwise.shrinks, fun more apart => ?_⟩
      rw [choose_otherwise hf] at apart ⊢
      rw [List.cons_append, choose_otherwise hg]
      exact otherwise.same more apart
    | some hc =>
      obtain ⟨shrinks, same⟩ := hc us (by omega)
      refine ⟨by rw [choose_reply hf]; exact Nat.le_succ_of_le shrinks, fun more apart => ?_⟩
      rw [choose_reply hf] at apart ⊢
      rw [List.cons_append, choose_reply hg]
      exact same more apart

theorem choose_spends {f : Token → Option (Parse α)}
    (h : ∀ t p, f t = some p → ∀ us, us.length + 1 ≤ n → (p us).rest.length ≤ us.length)
    (ho : ∀ us, us.length ≤ n → Spends p us) (short : us.length ≤ n) : Spends (choose f p) us := by
  cases us with
  | nil => exact ho [] short
  | cons t us =>
    unfold Spends
    cases hf : f t with
    | none =>
      rw [choose_otherwise hf]
      exact ho _ short
    | some r =>
      rw [choose_reply hf]
      exact fun _ => Nat.lt_succ_of_le (h t r hf us short)

theorem unlessKind_extending (kind : Kind) (hp : Extending n p q) :
    Extending n (unlessKind kind p) (unlessKind kind q) := by
  refine (atKind_extending kind).bind fun here => ?_
  cases here with
  | true => exact pure_extending none
  | false => exact hp.map

theorem bounded_extending {p q : List Token → Parse α}
    (h : ∀ b b' : List Token, ∀ m ≤ n, m ≤ b.length → m ≤ b'.length → Extending m (p b) (q b')) :
    Extending n (bounded p) (bounded q) := by
  intro us short
  refine ⟨(h us us us.length short (Nat.le_refl _) (Nat.le_refl _) us (Nat.le_refl _)).shrinks,
    fun more apart => ?_⟩
  exact (h us (us ++ more) us.length short (Nat.le_refl _) (by simp) us (Nat.le_refl _)).same more apart

/-- Readers that go round and round: each round costs a token, and an entry of the bound. -/
theorem rounds_extending {σ : Type} {p q : σ → List Token → Parse α}
    (zero : ∀ s b b', Extending 0 (p s b) (q s b'))
    (round : ∀ t u b b' m, m ≤ n → (∀ s, Extending (m - 1) (p s b) (q s b')) →
      ∀ s, Extending m (p s (t :: b)) (q s (u :: b'))) :
    ∀ (b b' : List Token) (m : Nat), m ≤ n → m ≤ b.length → m ≤ b'.length →
      ∀ s, Extending m (p s b) (q s b') := by
  intro b
  induction b with
  | nil =>
    intro b' m _ long _ s
    obtain rfl := Nat.le_zero.mp long
    exact zero s [] b'
  | cons t b ih =>
    intro b' m le long long'
    cases b' with
    | nil =>
      obtain rfl := Nat.le_zero.mp long'
      exact fun s => zero s (t :: b) []
    | cons u b' =>
      simp only [List.length_cons] at long long'
      exact round t u b b' m le (ih b' (m - 1) (by omega) (by omega) (by omega))

end Parts

/-! ## Lists -/

section Lists

variable {n : Nat} {p q : Parse α}

/-- Where a list does not end, it goes on with an item. -/
theorem untilKind_goes {kind : Kind} {t b : Token} (h : t.kind ≠ kind) (item : Parse α) (us bs : List Token) :
    untilKind kind item (b :: bs) (t :: us) =
      (item >>= fun a => untilKind kind item bs >>= fun as => pure (a :: as)) (t :: us) := by
  have elsewhere : endsAt kind (t :: us) = ⟨some false, t :: us, []⟩ := by simp [endsAt, h]
  rw [untilKind, bind_reply elsewhere]
  rfl

theorem untilKind_extending (kind : Kind) (hp : Advancing n p q) (b b' : List Token) (m : Nat) (le : m ≤ n)
    (long : m ≤ b.length) (long' : m ≤ b'.length) : Extending m (untilKind kind p b) (untilKind kind q b') := by
  refine rounds_extending (p := fun _ => untilKind kind p) (q := fun _ => untilKind kind q)
    (fun _ b b' => ?_) (fun _ _ b b' m le further _ us short => ?_) b b' m le long long' ()
  · have ends (item : Parse α) (b : List Token) : untilKind kind item b [] = ⟨some [], [], []⟩ := untilKind_end nofun
    exact extending_zero (congrArg Reply.rest (ends p b)) ((ends q b').trans (ends p b).symm)
  · by_cases ended : ∀ t ∈ us.head?, t.kind = kind
    · refine ⟨Nat.le_of_eq (congrArg (fun r : Reply _ => r.rest.length) (untilKind_end ended)), fun more apart => ?_⟩
      rw [untilKind_end ended] at apart ⊢
      rw [untilKind_end (by rwa [head?_before apart])]
      rfl
    · cases us with
      | nil => exact absurd nofun ended
      | cons t us =>
        have other : t.kind ≠ kind := fun e => ended fun u m => by cases m; exact e
        obtain ⟨extends_, spends⟩ := hp (t :: us) (List.cons_ne_nil t us) (Nat.le_trans short le)
        have item := extends_.bind (f := fun a => untilKind kind p b >>= fun as => pure (a :: as))
          (g := fun a => untilKind kind q b' >>= fun as => pure (a :: as)) fun a some => by
            have fewer := spends (by rw [some]; rfl)
            exact (further ()).bind (fun as => pure_extending _) _ (by omega)
        refine ⟨by rw [untilKind_goes other]; exact item.shrinks, fun more apart => ?_⟩
        rw [untilKind_goes other] at apart ⊢
        rw [List.cons_append, untilKind_goes other]
        exact item.same more apart

theorem checkRoom_extending (what : Listed) (seen : Nat) :
    Extending n (checkRoom what seen) (checkRoom what seen) := by
  unfold checkRoom
  split
  · exact complain_extending _
  · exact pure_extending ()

theorem commaList_extending (what : Listed) (hp : Extending n p q) (b b' : List Token) (m : Nat) (le : m ≤ n)
    (long : m ≤ b.length) (long' : m ≤ b'.length) (seen : Nat) :
    Extending m (commaList what p seen b) (commaList what q seen b') := by
  refine rounds_extending (fun seen b b' => ?_) (fun _ _ b b' m le further seen => ?_) b b' m le long long' seen
  · cases b <;> cases b' <;>
      exact (checkRoom_extending what seen).bind fun _ => (hp.mono (Nat.zero_le n)).bind fun x =>
        extending_zero rfl rfl
  · exact (checkRoom_extending what seen).bind fun _ => (hp.mono le).bind fun x =>
      take?_extending (fun _ => (further (seen + 1)).map) (pure_extending [x])

theorem parenthesised_extending (what : Listed) (hp : Extending n p q) :
    Extending n (parenthesised what p) (parenthesised what q) := by
  refine (atKind_extending .rightParen).bind fun here => ?_
  cases here with
  | true => exact pure_extending []
  | false =>
    exact bounded_extending (p := commaList what p 0) (q := commaList what q 0) fun b b' m le long long' =>
      commaList_extending what hp b b' m le long long' 0

end Lists

/-! ## Expressions -/

section Expressions

variable {n : Nat} {operand operand' expression expression' : Parse (Expr Unit)}
  {join : Expr Unit → Token → Expr Unit → Expr Unit}

theorem joined_extending (operator : Kind → Bool) (ho : Extending n operand operand') (b b' : List Token) (m : Nat)
    (le : m ≤ n) (long : m ≤ b.length) (long' : m ≤ b'.length) (left : Expr Unit) :
    Extending m (joined operator join operand left b) (joined operator join operand' left b') := by
  refine rounds_extending (fun left b b' => ?_) (fun _ _ b b' m le further left => ?_) b b' m le long long' left
  · cases b <;> cases b' <;> exact extending_zero rfl rfl
  · exact take?_extending (fun _ => (ho.mono (by omega)).bind fun right => further _) (pure_extending left)

theorem level_extending (operator : Kind → Bool) (ho : Extending n operand operand') :
    Extending n (level operator join operand) (level operator join operand') :=
  ho.bind fun left => bounded_extending (p := joined operator join operand left)
    (q := joined operator join operand' left) fun b b' m le long long' =>
      joined_extending operator ho b b' m le long long' left

theorem suffixes_extending (he : Extending n expression expression') (b b' : List Token) (m : Nat)
    (le : m ≤ n + 1) (long : m ≤ b.length) (long' : m ≤ b'.length) (operand : Expr Unit) :
    Extending m (suffixes expression operand b) (suffixes expression' operand b') := by
  refine rounds_extending (fun operand b b' => ?_) (fun _ _ b b' m le further operand => ?_) b b' m le long long'
    operand
  · cases b <;> cases b' <;> exact extending_zero rfl rfl
  · refine take?_extending (fun _ => ?call) (take?_extending (fun _ => ?get) (pure_extending operand))
    case call =>
      exact (parenthesised_extending .arguments (he.mono (by omega))).bind fun _ =>
        (expect_extending _ _).bind fun _ => further _
    case get => exact (expect_extending _ _).bind fun _ => further _

variable (he : Extending n expression expression')
include he

theorem operandFrom?_extending (t : Token) :
    Option.Rel (Extending n) (operandFrom? expression t) (operandFrom? expression' t) := by
  unfold operandFrom?
  split
  case h_8 =>
    exact .some ((expect_extending _ _).bind fun _ => (expect_extending _ _).bind fun _ => pure_extending _)
  case h_9 => exact .some (he.bind fun _ => (expect_extending _ _).bind fun _ => pure_extending _)
  case h_10 => exact .none
  all_goals exact .some (pure_extending _)

theorem call_extending : Extending (n + 1) (call expression) (call expression') := by
  have primary : Extending (n + 1) (primary expression) (primary expression') :=
    choose_extending (operandFrom?_extending he) (reject_extending _)
  exact primary.bind fun e => bounded_extending (p := suffixes expression e) (q := suffixes expression' e)
    fun b b' m le long long' => suffixes_extending he b b' m le long long' e

omit he in
theorem unaryOperators_extending : Extending n unaryOperators unaryOperators := by
  intro us short
  refine ⟨(List.dropWhile_suffix _).length_le, ?_⟩
  clear short
  induction us with
  | nil =>
    intro more apart
    rw [apart.resolve_right fun h => h rfl]
    rfl
  | cons t us ih =>
    intro more apart
    unfold unaryOperators at ih apart ⊢
    cases ht : isUnary t.kind with
    | false => simp [ht, Reply.before]
    | true =>
      simp only [List.dropWhile_cons, ht, if_true] at apart
      have behind := ih more apart
      simp only [Reply.before, Reply.mk.injEq, Option.some.injEq] at behind
      simp [ht, Reply.before, behind.1, behind.2.1]

theorem unary_extending : Extending (n + 1) (unary expression) (unary expression') :=
  unaryOperators_extending.bind fun _ => (call_extending he).bind fun _ => pure_extending _

theorem disjunction_extending : Extending (n + 1) (disjunction expression) (disjunction expression') :=
  level_extending _ <| level_extending _ <| level_extending _ <| level_extending _ <|
    level_extending _ <| level_extending _ <| unary_extending he

theorem assignment_extending : Extending (n + 1) (assignment expression) (assignment expression') := by
  refine (disjunction_extending he).bind fun target => take?_extending (fun equals => ?_) (pure_extending _)
  refine he.bind fun value => ?_
  have bad : Extending n (do report .badTarget (some equals); pure target) (do report .badTarget (some equals); pure target) :=
    (report_extending _ _).bind fun _ => pure_extending target
  cases target with
  | name place => exact pure_extending _
  | get object property => exact pure_extending _
  | _ => exact bad

omit he in
theorem expressionWithin_nil (b : List Token) : expressionWithin b [] = reject .noExpression [] := by
  cases b <;> rfl

omit he in
theorem expressionWithin_extending : ∀ (b b' : List Token) (m : Nat), m ≤ b.length + 1 → m ≤ b'.length + 1 →
    Extending m (expressionWithin b) (expressionWithin b') := by
  intro b
  induction b with
  | nil =>
    intro b' m long _
    refine Extending.mono (n := 0 + 1) ?_ long
    cases b' with
    | nil => exact assignment_extending (reject_extending _)
    | cons b' bs' => exact assignment_extending (extending_zero rfl (expressionWithin_nil bs'))
  | cons b bs ih =>
    intro b' m long long'
    cases b' with
    | nil =>
      refine (assignment_extending (n := 0) (extending_zero ?_ ?_)).mono long'
      · rw [expressionWithin_nil]
        rfl
      · rw [expressionWithin_nil]
    | cons b' bs' =>
      simp only [List.length_cons] at long long'
      exact (assignment_extending (ih bs' (m - 1) (by omega) (by omega))).mono (by omega)

omit he in
theorem wholeExpression_extending : Extending n wholeExpression wholeExpression :=
  bounded_extending fun b b' m _ long long' => expressionWithin_extending b b' m (by omega) (by omega)

end Expressions

end Parse

end Lox
