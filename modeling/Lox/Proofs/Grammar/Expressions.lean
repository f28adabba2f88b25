import Lox.Proofs.Grammar.Beginning
import Lox.Proofs.Grammar.Replies

/-! # Expressions of the grammar are read

What a reader takes depends on what follows: an operand is read to its end if no
operator follows that binds it. Operators are ranked for that. The induction is on
the number of tokens, since what is nested in an expression is shorter. -/

namespace Lox

/-- How loosely a token binds that goes on with an expression. -/
def Kind.looseness : Kind → Nat
  | .leftParen | .dot => 0
  | .slash | .star => 1
  | .minus | .plus => 2
  | .greater | .greaterEqual | .less | .lessEqual => 3
  | .bangEqual | .equalEqual => 4
  | .kwAnd => 5
  | .kwOr => 6
  | .equal => 7
  | _ => 8

namespace Parse

open Grammar

variable {α β : Type}

/-- What follows begins with a token that passes the test, if with any. -/
def Ahead (F : Kind → Prop) (rest : List Token) : Prop := ∀ t ∈ rest.head?, F t.kind

@[simp] theorem ahead_nil {F : Kind → Prop} : Ahead F [] := by simp [Ahead]

@[simp] theorem ahead_cons {F : Kind → Prop} {t : Token} {rest : List Token} :
    Ahead F (t :: rest) ↔ F t.kind := by simp [Ahead]

theorem Ahead.mono {F G : Kind → Prop} {rest : List Token} (h : Ahead F rest) (hG : ∀ k, F k → G k) :
    Ahead G rest := fun t ht => hG _ (h t ht)

theorem ahead_many {S : Kind → Bool} {F : Kind → Prop} {a : Form} {us rest : List Token}
    (ha : Begins S a) (h : Derives (.many a) us) (hS : ∀ k, S k = true → F k) (hr : Ahead F rest) :
    Ahead F (us ++ rest) := by
  rcases derives_many.mp h with rfl | ⟨vs, ws, hv, -, rfl⟩
  · exact hr
  · obtain ⟨t, vs, rfl, ht⟩ := ha vs hv
    exact ahead_cons.mpr (hS _ ht)

/-- A reader reads, without a problem and to its end, whatever is no longer than the
bound and meets the condition, if what follows passes the test. -/
def Reads (n : Nat) (L : List Token → Prop) (F : Kind → Prop) (p : Parse α) : Prop :=
  ∀ us rest, us.length ≤ n → L us → Ahead F rest → ∃ a, p (us ++ rest) = ⟨some a, rest, []⟩

theorem expect_reads (n : Nat) (kind : Kind) (problem : SyntaxProblem) :
    Reads n (Derives (.token kind)) (fun _ => True) (expect kind problem) := by
  intro us rest _ h _
  obtain ⟨t, ht, rfl⟩ := derives_token.mp h
  exact ⟨t, expect_reply problem ht⟩

/-! ## Lists -/

theorem checkRoom_reply {what : Listed} {seen : Nat} (h : seen < maxListed) (tokens : List Token) :
    checkRoom what seen tokens = ⟨some (), tokens, []⟩ := by
  rw [checkRoom, if_neg (by omega)]
  rfl

theorem commaList_reads (what : Listed) {item : Parse α} {F : Kind → Prop} {S : Kind → Bool} {n : Nat}
    {a : Form} (hi : Reads n (Derives a) F item) (ha : Begins S a) (hF : F .comma) :
    ∀ (bound : List Token) (m seen : Nat) (us rest : List Token), Derives (.listed m a) us →
      m + seen ≤ maxListed → us.length ≤ n → us.length ≤ bound.length → Ahead F rest →
      Ahead (· ≠ .comma) rest →
      ∃ xs, commaList what item seen bound (us ++ rest) = ⟨some xs, rest, []⟩ := by
  intro bound
  induction bound with
  | nil =>
    intro m seen us rest h _ _ long
    obtain ⟨t, us, rfl, -⟩ := ha.listed us h
    simp at long
  | cons b bound ih =>
    intro m seen us rest h room short long follows ends
    obtain ⟨m, rfl, h | ⟨us, t, vs, hu, ht, hv, rfl⟩⟩ := derives_listed.mp h
    · obtain ⟨x, hx⟩ := hi us rest short h follows
      have none : take? (· == .comma) rest = ⟨some none, rest, []⟩ :=
        take?_miss fun t ht => by simpa using ends t ht
      refine ⟨[x], ?_⟩
      rw [commaList, bind_reply (checkRoom_reply (by omega) _), bind_reply hx, bind_reply none]
      rfl
    · simp only [List.length_append, List.length_cons] at short long
      obtain ⟨x, hx⟩ := hi us (t :: (vs ++ rest)) (by omega) hu (by simpa [ht] using hF)
      have comma : take? (· == .comma) (t :: (vs ++ rest)) = ⟨some (some t), vs ++ rest, []⟩ :=
        take?_hit (by simp [ht])
      obtain ⟨xs, hxs⟩ := ih m (seen + 1) vs rest hv (by omega) (by omega) (by omega) follows ends
      refine ⟨x :: xs, ?_⟩
      rw [List.append_assoc, List.cons_append, commaList, bind_reply (checkRoom_reply (by omega) _),
        bind_reply hx, bind_reply comma]
      exact bind_reply hxs

theorem parenthesised_reads (what : Listed) {item : Parse α} {F : Kind → Prop} {S : Kind → Bool}
    {n : Nat} {a : Form} (hi : Reads n (Derives a) F item) (ha : Begins S a) (hS : S .rightParen = false)
    (hF : F .comma) (hF' : F .rightParen) {us : List Token} {close : Token} (rest : List Token) (short : us.length ≤ n)
    (h : Derives (.optional (.listed maxListed a)) us) (hc : close.kind = .rightParen) :
    ∃ xs, parenthesised what item (us ++ close :: rest) = ⟨some xs, close :: rest, []⟩ := by
  rcases derives_optional.mp h with rfl | h
  · have here : atKind .rightParen (close :: rest) = ⟨some true, close :: rest, []⟩ := by
      simp [atKind, hc]
    exact ⟨[], bind_reply here⟩
  · obtain ⟨t, us, rfl, ht⟩ := ha.listed us h
    have other : t.kind ≠ .rightParen := fun e => by rw [e, hS] at ht; cases ht
    have here : atKind .rightParen (t :: (us ++ close :: rest)) =
        ⟨some false, t :: (us ++ close :: rest), []⟩ := by simp [atKind, other]
    obtain ⟨xs, hxs⟩ := commaList_reads what hi ha hF (t :: (us ++ close :: rest)) maxListed 0 _
      (close :: rest) h (by omega) short (by simp) (by simpa [hc] using hF') (by simp [hc])
    refine ⟨xs, ?_⟩
    rw [List.cons_append, parenthesised, bind_reply here]
    exact hxs

/-! ## Operands -/

section Expressions

variable {expression operand : Parse (Expr Unit)} {n : Nat}

/-- The reader for what is nested in expressions of at most one token more. -/
def Nests (n : Nat) (expression : Parse (Expr Unit)) : Prop :=
  Reads n (Derives (.rule .expression)) (7 < ·.looseness) expression

theorem primary_reads (he : Nests n expression) :
    Reads (n + 1) (Derives (.rule .primary)) (fun _ => True) (primary expression) := by
  intro us rest short h _
  obtain ⟨a, m, h⟩ := derives_oneOf.mp (derives_rule.mp h)
  have terminal {k : Kind} {e : Token → Expr Unit} (h : Derives (.token k) us)
      (hk : ∀ t, t.kind = k → operandFrom? expression t = some (pure (e t))) :
      ∃ e, primary expression (us ++ rest) = ⟨some e, rest, []⟩ := by
    obtain ⟨t, ht, rfl⟩ := derives_token.mp h
    exact ⟨e t, choose_reply (hk t ht)⟩
  simp only [List.mem_cons, List.not_mem_nil, or_false] at m
  rcases m with rfl | rfl | rfl | rfl | rfl | rfl | rfl | rfl | rfl
  · exact terminal h fun t ht => by simp [operandFrom?, ht]; rfl
  · exact terminal h fun t ht => by simp [operandFrom?, ht]; rfl
  · exact terminal h fun t ht => by simp [operandFrom?, ht]; rfl
  · exact terminal h fun t ht => by simp [operandFrom?, ht]; rfl
  · exact terminal h fun t ht => by simp [operandFrom?, ht]; rfl
  · exact terminal h fun t ht => by simp [operandFrom?, ht]; rfl
  · exact terminal h fun t ht => by simp [operandFrom?, ht]; rfl
  · obtain ⟨t, xs, ht, h₁, rfl⟩ := derives_seq_token.mp h
    obtain ⟨inner, ys, hi, h₂, rfl⟩ := derives_seq_cons.mp h₁
    obtain ⟨close, zs, hc, h₃, rfl⟩ := derives_seq_token.mp h₂
    obtain rfl := derives_seq_nil.mp h₃
    simp only [List.length_cons, List.length_append] at short
    obtain ⟨e, reply⟩ := he inner (close :: rest) (by omega) hi (by simp [hc, Kind.looseness])
    have begun : operandFrom? expression t = some (do
        let inner ← expression
        let _ ← expect .rightParen .openGrouping
        pure (.grouping inner)) := by simp [operandFrom?, ht]
    refine ⟨.grouping e, ?_⟩
    rw [primary, List.cons_append, choose_reply begun, List.append_assoc, List.singleton_append,
      bind_reply reply, bind_reply (expect_reply _ hc)]
    rfl
  · obtain ⟨t, xs, ht, h₁, rfl⟩ := derives_seq_token.mp h
    obtain ⟨dot, ys, hd, h₂, rfl⟩ := derives_seq_token.mp h₁
    obtain ⟨method, zs, hm, h₃, rfl⟩ := derives_seq_token.mp h₂
    obtain rfl := derives_seq_nil.mp h₃
    have begun : operandFrom? expression t = some (do
        let _ ← expect .dot .noSuperDot
        let method ← expect .identifier .noSuperMethod
        pure (.super ⟨(), t⟩ method)) := by simp [operandFrom?, ht]
    refine ⟨.super ⟨(), t⟩ method, ?_⟩
    rw [primary, List.cons_append, choose_reply begun, List.cons_append, bind_reply (expect_reply _ hd),
      List.cons_append, bind_reply (expect_reply _ hm)]
    rfl

/-- The form of what may stand behind an operand. -/
def suffix : Form :=
  .oneOf [.seq [.token .leftParen, .optional (.rule .arguments), .token .rightParen],
    .seq [.token .dot, .token .identifier]]

theorem begins_suffix : Begins (fun k => k.looseness = 0) suffix := by
  refine .oneOf fun a m => ?_
  simp only [List.mem_cons, List.not_mem_nil, or_false] at m
  rcases m with rfl | rfl
  · exact .cons (.token rfl)
  · exact .cons (.token rfl)

theorem suffixes_property {dot property : Token} (hd : dot.kind = .dot)
    (hp : property.kind = .identifier) (operand : Expr Unit) (b : Token) (bound rest : List Token) :
    suffixes expression operand (b :: bound) (dot :: property :: rest) =
      suffixes expression (.get operand property) bound rest := by
  have notParen : take? (· == .leftParen) (dot :: property :: rest) =
      ⟨some none, dot :: property :: rest, []⟩ := take?_miss fun t ht => by cases ht; simp [hd]
  have here : take? (· == .dot) (dot :: property :: rest) =
      ⟨some (some dot), property :: rest, []⟩ := take?_hit (by simp [hd])
  rw [suffixes, bind_reply notParen]
  dsimp only
  rw [bind_reply here]
  exact bind_reply (expect_reply _ hp)

/-- The reader comes from one operand to the next. -/
theorem suffixes_step (he : Nests n expression) {us : List Token} (short : us.length ≤ n + 1)
    (h : Derives suffix us) (operand : Expr Unit) (b : Token) (bound rest : List Token) :
    ∃ next, suffixes expression operand (b :: bound) (us ++ rest) =
      suffixes expression next bound rest := by
  obtain ⟨a, m, h⟩ := derives_oneOf.mp h
  simp only [List.mem_cons, List.not_mem_nil, or_false] at m
  rcases m with rfl | rfl
  · obtain ⟨t, xs, ht, h₁, rfl⟩ := derives_seq_token.mp h
    obtain ⟨args, ys, ha, h₂, rfl⟩ := derives_seq_cons.mp h₁
    obtain ⟨close, zs, hc, h₃, rfl⟩ := derives_seq_token.mp h₂
    obtain rfl := derives_seq_nil.mp h₃
    simp only [List.length_cons, List.length_append] at short
    have listed : Derives (.optional (.listed maxListed (.rule .expression))) args :=
      derives_optional.mpr ((derives_optional.mp ha).imp id derives_rule.mp)
    obtain ⟨arguments, read⟩ := parenthesised_reads .arguments he begins_expression rfl
      (by decide) (by decide) rest (by omega) listed hc
    have here : take? (· == .leftParen) (t :: (args ++ close :: rest)) =
        ⟨some (some t), args ++ close :: rest, []⟩ := take?_hit (by simp [ht])
    refine ⟨.call operand close arguments, ?_⟩
    rw [suffixes, List.cons_append, List.append_assoc, List.singleton_append, bind_reply here]
    dsimp only
    rw [bind_reply read]
    exact bind_reply (expect_reply _ hc)
  · obtain ⟨dot, ys, hd, h₁, rfl⟩ := derives_seq_token.mp h
    obtain ⟨property, zs, hp, h₂, rfl⟩ := derives_seq_token.mp h₁
    obtain rfl := derives_seq_nil.mp h₂
    exact ⟨.get operand property, suffixes_property hd hp operand b bound rest⟩

theorem suffixes_stop {rest : List Token} (h : Ahead (0 < ·.looseness) rest) (operand : Expr Unit) :
    ∀ bound, suffixes expression operand bound rest = ⟨some operand, rest, []⟩
  | [] => rfl
  | _ :: bound => by
    have notParen : take? (· == .leftParen) rest = ⟨some none, rest, []⟩ := take?_miss fun t ht => by
      have := h t ht
      cases hk : t.kind <;> simp_all [Kind.looseness]
    have notDot : take? (· == .dot) rest = ⟨some none, rest, []⟩ := take?_miss fun t ht => by
      have := h t ht
      cases hk : t.kind <;> simp_all [Kind.looseness]
    rw [suffixes, bind_reply notParen]
    dsimp only
    rw [bind_reply notDot]
    rfl

/-- The reader gets behind all that stands behind an operand, with enough of its bound
left to go on. -/
theorem suffixes_advance (he : Nests n expression) :
    ∀ (bound us rest : List Token) (operand : Expr Unit), Derives (.many suffix) us →
      us.length ≤ n + 1 → us.length ≤ bound.length →
      ∃ next left, bound.length ≤ left.length + us.length ∧
        suffixes expression operand bound (us ++ rest) = suffixes expression next left rest := by
  intro bound
  induction bound with
  | nil =>
    intro us rest operand _ _ long
    rw [List.eq_nil_of_length_eq_zero (Nat.le_zero.mp long)]
    exact ⟨operand, [], by simp, rfl⟩
  | cons b bound ih =>
    intro us rest operand h short long
    rcases derives_many.mp h with rfl | ⟨xs, ys, hx, hy, rfl⟩
    · exact ⟨operand, b :: bound, by simp, rfl⟩
    · obtain ⟨t, xs, rfl, -⟩ := begins_suffix xs hx
      simp only [List.length_append, List.length_cons] at short long
      obtain ⟨next, step⟩ := suffixes_step he (by simp; omega) hx operand b bound (ys ++ rest)
      obtain ⟨last, left, enough, steps⟩ := ih ys rest next hy (by omega) (by omega)
      refine ⟨last, left, ?_, ?_⟩
      · simp only [List.length_append, List.length_cons]
        omega
      · rw [List.append_assoc, step, steps]

/-- A call is its first operand and what stands behind that. -/
theorem call_advance (he : Nests n expression) {us : List Token} (h : Derives (.rule .call) us)
    (short : us.length ≤ n + 1) (rest : List Token) : ∃ operand left, rest.length ≤ left.length ∧
      call expression (us ++ rest) = suffixes expression operand left rest := by
  obtain ⟨xs, ys, hx, hy, rfl⟩ := derives_seq_cons.mp (derives_rule.mp h)
  simp only [List.length_append] at short
  obtain ⟨first, reply⟩ := primary_reads he xs (ys ++ rest) (by omega) hx (fun _ _ => trivial)
  obtain ⟨operand, left, enough, steps⟩ := suffixes_advance he (ys ++ rest) ys rest first
    (derives_single.mp hy) (by omega) (by simp)
  refine ⟨operand, left, ?_, ?_⟩
  · simp only [List.length_append] at enough
    omega
  · rw [call, List.append_assoc, bind_reply reply]
    exact steps

theorem call_reads (he : Nests n expression) :
    Reads (n + 1) (Derives (.rule .call)) (0 < ·.looseness) (call expression) := by
  intro us rest short h follows
  obtain ⟨operand, left, -, steps⟩ := call_advance he h short rest
  exact ⟨operand, steps.trans (suffixes_stop follows operand left)⟩

theorem call_name_reads {name : Token} {rest : List Token} (hn : name.kind = .identifier)
    (follows : Ahead (0 < ·.looseness) rest) :
    call expression (name :: rest) = ⟨some (.name ⟨(), name⟩), rest, []⟩ := by
  have begun : operandFrom? expression name = some (pure (.name ⟨(), name⟩)) := by
    simp [operandFrom?, hn]
  have reply : primary expression (name :: rest) = ⟨some (.name ⟨(), name⟩), rest, []⟩ :=
    choose_reply begun
  rw [call, bind_reply reply]
  exact suffixes_stop follows _ rest

theorem call_property_reads (he : Nests n expression) {us rest : List Token} {dot name : Token}
    (h : Derives (.rule .call) us) (short : us.length ≤ n + 1) (hd : dot.kind = .dot)
    (hn : name.kind = .identifier) (follows : Ahead (0 < ·.looseness) rest) :
    ∃ object, call expression (us ++ dot :: name :: rest) = ⟨some (.get object name), rest, []⟩ := by
  obtain ⟨object, left, enough, steps⟩ := call_advance he h short (dot :: name :: rest)
  cases left with
  | nil => simp at enough
  | cons b left => exact ⟨object, (steps.trans (suffixes_property hd hn object b left rest)).trans
      (suffixes_stop follows _ left)⟩

/-! ## Operators -/

theorem unary_split : ∀ {us : List Token}, Derives (.rule .unary) us → ∃ ops vs, us = ops ++ vs ∧
    (∀ op ∈ ops, isUnary op.kind = true) ∧ Derives (.rule .call) vs := by
  intro us
  induction us with
  | nil =>
    intro h
    obtain ⟨t, rest, e, -⟩ := begins_unary [] h
    cases e
  | cons t us ih =>
    intro h
    obtain ⟨a, m, h⟩ := derives_oneOf.mp (derives_rule.mp h)
    simp only [List.mem_cons, List.not_mem_nil, or_false] at m
    rcases m with rfl | rfl
    · obtain ⟨xs, ys, hx, hy, e⟩ := derives_seq_cons.mp h
      obtain ⟨b, m, hb⟩ := derives_oneOf.mp hx
      simp only [List.mem_cons, List.not_mem_nil, or_false] at m
      obtain ⟨op, rfl, hop⟩ : ∃ op, xs = [op] ∧ isUnary op.kind = true := by
        rcases m with rfl | rfl
        · obtain ⟨op, hk, rfl⟩ := derives_token.mp hb
          exact ⟨op, rfl, by simp [isUnary, hk]⟩
        · obtain ⟨op, hk, rfl⟩ := derives_token.mp hb
          exact ⟨op, rfl, by simp [isUnary, hk]⟩
      cases e
      obtain ⟨ops, vs, rfl, hops, hv⟩ := ih (derives_single.mp hy)
      refine ⟨t :: ops, vs, rfl, ?_, hv⟩
      intro o ho
      rcases List.mem_cons.mp ho with rfl | ho
      · exact hop
      · exact hops o ho
    · exact ⟨[], t :: us, rfl, by simp, h⟩

/-- Operators stand in front of what is read as a call. -/
theorem unary_reply {ops vs rest : List Token} {e : Expr Unit}
    (hops : ∀ op ∈ ops, isUnary op.kind = true) (first : Ahead (fun k => k.beginsOperand = true) vs)
    (h : call expression vs = ⟨some e, rest, []⟩) :
    unary expression (ops ++ vs) = ⟨some (ops.foldr .unary e), rest, []⟩ := by
  have front : unaryOperators (ops ++ vs) = ⟨some ops, vs, []⟩ := by
    have stop : vs.takeWhile (isUnary ·.kind) = [] ∧ vs.dropWhile (isUnary ·.kind) = vs := by
      cases vs with
      | nil => exact ⟨rfl, rfl⟩
      | cons t vs =>
        have ht : isUnary t.kind = false := by
          have := first t rfl
          cases hk : t.kind <;> simp_all [Kind.beginsOperand, isUnary]
        simp [ht]
    rw [unaryOperators, List.takeWhile_append_of_pos hops, List.dropWhile_append_of_pos hops, stop.1,
      stop.2, List.append_nil]
  rw [unary, bind_reply front, bind_reply h]
  rfl

theorem unary_reads (he : Nests n expression) :
    Reads (n + 1) (Derives (.rule .unary)) (0 < ·.looseness) (unary expression) := by
  intro us rest short h follows
  obtain ⟨ops, vs, rfl, hops, hv⟩ := unary_split h
  simp only [List.length_append] at short
  obtain ⟨e, reply⟩ := call_reads he vs rest (by omega) hv follows
  obtain ⟨t, ws, rfl, ht⟩ := begins_call vs hv
  refine ⟨ops.foldr .unary e, ?_⟩
  rw [List.append_assoc]
  exact unary_reply hops (by simpa using ht) reply

section Levels

variable {operator : Kind → Bool} {join : Expr Unit → Token → Expr Unit → Expr Unit}
  {lower upper : Rule} {operators : List Kind} {m : Nat}

theorem joined_stop {rest : List Token} (h : Ahead (fun k => operator k = false) rest)
    (left : Expr Unit) : ∀ bound, joined operator join operand left bound rest = ⟨some left, rest, []⟩
  | [] => rfl
  | _ :: bound => by
    rw [joined, bind_reply (take?_miss h)]
    rfl

/-- A level at which no operator follows is read as its operand. -/
theorem level_pass {tokens rest : List Token} {e : Expr Unit}
    (h : operand tokens = ⟨some e, rest, []⟩) (ends : Ahead (fun k => operator k = false) rest) :
    level operator join operand tokens = ⟨some e, rest, []⟩ := by
  rw [level, bind_reply h]
  exact joined_stop ends e rest

theorem begins_round (hk : ∀ k ∈ operators, operator k = true) :
    Begins operator (.seq [.oneOf (operators.map Form.token), .rule lower]) := by
  refine .cons (.oneOf fun a ha => ?_)
  obtain ⟨k, mk, rfl⟩ := List.mem_map.mp ha
  exact .token (hk k mk)

theorem joined_reads (hop : ∀ k, operator k = true ↔ k.looseness = m + 1)
    (hk : ∀ k ∈ operators, operator k = true)
    (ho : Reads n (Derives (.rule lower)) (m < ·.looseness) operand) :
    ∀ (bound us rest : List Token) (left : Expr Unit),
      Derives (.many (.seq [.oneOf (operators.map Form.token), .rule lower])) us →
      us.length ≤ n → us.length ≤ bound.length → Ahead (m + 1 < ·.looseness) rest →
      ∃ e, joined operator join operand left bound (us ++ rest) = ⟨some e, rest, []⟩ := by
  intro bound
  induction bound with
  | nil =>
    intro us rest left _ _ long _
    rw [List.eq_nil_of_length_eq_zero (Nat.le_zero.mp long)]
    exact ⟨left, rfl⟩
  | cons b bound ih =>
    intro us rest left h short long follows
    rcases derives_many.mp h with rfl | ⟨first, vs, hr, hv, rfl⟩
    · refine ⟨left, joined_stop (follows.mono fun k hk => ?_) left _⟩
      rw [Bool.eq_false_iff]
      intro e
      have := (hop k).mp e
      omega
    · obtain ⟨xs, ys, hx, hy, rfl⟩ := derives_seq_cons.mp hr
      obtain ⟨op, rfl, hop'⟩ : ∃ op, xs = [op] ∧ operator op.kind = true := by
        obtain ⟨a, m, ha⟩ := derives_oneOf.mp hx
        obtain ⟨k, mk, rfl⟩ := List.mem_map.mp m
        obtain ⟨op, e, rfl⟩ := derives_token.mp ha
        exact ⟨op, rfl, by rw [e]; exact hk k mk⟩
      simp only [List.length_append, List.length_cons, List.length_nil] at short long
      have ahead : Ahead (m < ·.looseness) (vs ++ rest) := by
        refine ahead_many (begins_round hk) hv (fun k e => ?_) (follows.mono fun k e => by omega)
        rw [(hop k).mp e]
        omega
      obtain ⟨right, hright⟩ := ho ys (vs ++ rest) (by omega) (derives_single.mp hy) ahead
      obtain ⟨e, he⟩ := ih vs rest (join left op right) hv (by omega) (by omega) follows
      refine ⟨e, ?_⟩
      have hit : take? operator (op :: (ys ++ (vs ++ rest))) = ⟨some (some op), ys ++ (vs ++ rest), []⟩ :=
        take?_hit hop'
      rw [joined, List.append_assoc, List.append_assoc, List.singleton_append, bind_reply hit]
      dsimp only
      rw [bind_reply hright]
      exact he

theorem level_reads (operators : List Kind) (hf : upper.form = .joined lower operators)
    (hop : ∀ k, operator k = true ↔ k.looseness = m + 1) (hk : ∀ k ∈ operators, operator k = true)
    (ho : Reads n (Derives (.rule lower)) (m < ·.looseness) operand) :
    Reads n (Derives (.rule upper)) (m + 1 < ·.looseness) (level operator join operand) := by
  intro us rest short h follows
  have h := derives_rule.mp h
  rw [hf] at h
  obtain ⟨xs, ys, hx, hy, rfl⟩ := derives_seq_cons.mp h
  have hy := derives_single.mp hy
  simp only [List.length_append] at short
  have ahead : Ahead (m < ·.looseness) (ys ++ rest) := by
    refine ahead_many (begins_round hk) hy (fun k e => ?_) (follows.mono fun k e => by omega)
    rw [(hop k).mp e]
    omega
  obtain ⟨left, reply⟩ := ho xs (ys ++ rest) (by omega) hx ahead
  obtain ⟨e, replies⟩ := joined_reads hop hk ho (ys ++ rest) ys rest left hy (by omega) (by simp) follows
  refine ⟨e, ?_⟩
  rw [level, List.append_assoc, bind_reply reply]
  exact replies

end Levels

theorem disjunction_reads (he : Nests n expression) :
    Reads (n + 1) (Derives (.rule .disjunction)) (6 < ·.looseness) (disjunction expression) := by
  have factor : Reads (n + 1) (Derives (.rule .factor)) (1 < ·.looseness) (factor expression) :=
    level_reads [.slash, .star] rfl (fun k => by cases k <;> decide) (by decide) (unary_reads he)
  have term : Reads (n + 1) (Derives (.rule .term)) (2 < ·.looseness) (term expression) :=
    level_reads [.minus, .plus] rfl (fun k => by cases k <;> decide) (by decide) factor
  have comparison : Reads (n + 1) (Derives (.rule .comparison)) (3 < ·.looseness) (comparison expression) :=
    level_reads [.greater, .greaterEqual, .less, .lessEqual] rfl (fun k => by cases k <;> decide)
      (by decide) term
  have equality : Reads (n + 1) (Derives (.rule .equality)) (4 < ·.looseness) (equality expression) :=
    level_reads [.bangEqual, .equalEqual] rfl (fun k => by cases k <;> decide) (by decide) comparison
  have conjunction : Reads (n + 1) (Derives (.rule .conjunction)) (5 < ·.looseness)
      (conjunction expression) :=
    level_reads [.kwAnd] rfl (fun k => by cases k <;> decide) (by decide) equality
  exact level_reads [.kwOr] rfl (fun k => by cases k <;> decide) (by decide) conjunction

/-- Where no operator stands, the value of a call is passed through all levels. -/
theorem disjunction_pass {tokens rest : List Token} {e : Expr Unit}
    (first : Ahead (fun k => k.beginsOperand = true) tokens)
    (h : call expression tokens = ⟨some e, rest, []⟩) (follows : Ahead (6 < ·.looseness) rest) :
    disjunction expression tokens = ⟨some e, rest, []⟩ := by
  have unary : unary expression tokens = ⟨some e, rest, []⟩ := @unary_reply expression [] _ _ _ (by simp) first h
  have pass {operator : Kind → Bool} {join : Expr Unit → Token → Expr Unit → Expr Unit}
      {operand : Parse (Expr Unit)} (hop : ∀ k, 6 < k.looseness → operator k = false)
      (h : operand tokens = ⟨some e, rest, []⟩) : level operator join operand tokens = ⟨some e, rest, []⟩ :=
    level_pass h (follows.mono hop)
  have factor : factor expression tokens = ⟨some e, rest, []⟩ :=
    pass (fun k => by cases k <;> decide) unary
  have term : term expression tokens = ⟨some e, rest, []⟩ :=
    pass (fun k => by cases k <;> decide) factor
  have comparison : comparison expression tokens = ⟨some e, rest, []⟩ :=
    pass (fun k => by cases k <;> decide) term
  have equality : equality expression tokens = ⟨some e, rest, []⟩ :=
    pass (fun k => by cases k <;> decide) comparison
  have conjunction : conjunction expression tokens = ⟨some e, rest, []⟩ :=
    pass (fun k => by cases k <;> decide) equality
  exact pass (fun k => by cases k <;> decide) conjunction

/-! ## Whole expressions -/

theorem assignment_reads (he : Nests n expression) :
    Reads (n + 1) (Derives (.rule .expression)) (7 < ·.looseness) (assignment expression) := by
  intro us rest short h follows
  obtain ⟨a, m, h⟩ := derives_oneOf.mp (derives_rule.mp (derives_rule.mp h))
  simp only [List.mem_cons, List.not_mem_nil, or_false] at m
  rcases m with rfl | rfl
  · obtain ⟨object, xs, ho, h₁, rfl⟩ := derives_seq_cons.mp h
    obtain ⟨name, ys, hn, h₂, rfl⟩ := derives_seq_token.mp h₁
    obtain ⟨equals, vs, hq, h₃, rfl⟩ := derives_seq_token.mp h₂
    simp only [List.length_append, List.length_cons] at short
    obtain ⟨value, hv⟩ := he vs rest (by omega) (.rule (derives_single.mp h₃)) follows
    have behind : Ahead (6 < ·.looseness) (equals :: (vs ++ rest)) := by simp [hq, Kind.looseness]
    rcases derives_optional.mp ho with rfl | ho
    · have reply := @call_name_reads expression _ _ hn (behind.mono fun k e => by omega)
      have target := disjunction_pass (by simp [hn, Kind.beginsOperand]) reply behind
      refine ⟨.assign ⟨(), name⟩ value, ?_⟩
      change assignment expression (name :: equals :: (vs ++ rest)) = _
      rw [assignment, bind_reply target, bind_reply (take?_hit (by simp [hq]))]
      dsimp only
      rw [bind_reply hv]
      rfl
    · obtain ⟨callee, zs, hc, h₄, rfl⟩ := derives_seq_cons.mp ho
      obtain ⟨dot, ws, hd, h₅, rfl⟩ := derives_seq_token.mp h₄
      obtain rfl := derives_seq_nil.mp h₅
      simp only [List.length_append, List.length_cons, List.length_nil] at short
      obtain ⟨e, reply⟩ := call_property_reads he hc (by omega) hd hn (behind.mono fun k e => by omega)
      obtain ⟨t, ts, rfl, ht⟩ := begins_call callee hc
      have target := disjunction_pass (by simpa using ht) reply behind
      refine ⟨.set e name value, ?_⟩
      have tokens : (t :: ts ++ [dot] ++ name :: equals :: vs) ++ rest =
          t :: ts ++ dot :: name :: equals :: (vs ++ rest) := by simp
      rw [assignment, tokens, bind_reply target, bind_reply (take?_hit (by simp [hq]))]
      dsimp only
      rw [bind_reply hv]
      rfl
  · obtain ⟨e, reply⟩ := disjunction_reads he us rest short h (follows.mono fun k e => by omega)
    have none : take? (· == .equal) rest = ⟨some none, rest, []⟩ := take?_miss fun t ht => by
      have := follows t ht
      cases hk : t.kind <;> simp_all [Kind.looseness]
    refine ⟨e, ?_⟩
    rw [assignment, bind_reply reply, bind_reply none]
    rfl

theorem expressionWithin_reads : ∀ bound : List Token,
    Reads bound.length (Derives (.rule .expression)) (7 < ·.looseness) (expressionWithin bound)
  | [] => by
    intro us rest short h _
    obtain ⟨t, vs, rfl, -⟩ := begins_expression us h
    simp at short
  | _ :: bound => assignment_reads (expressionWithin_reads bound)

theorem wholeExpression_reads (n : Nat) :
    Reads n (Derives (.rule .expression)) (7 < ·.looseness) wholeExpression :=
  fun us rest _ h follows => expressionWithin_reads (us ++ rest) us rest (by simp) h follows

end Expressions

end Parse

end Lox
