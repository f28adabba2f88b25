import Lox.Proofs.Grammar.Dangling
import Lox.Proofs.Grammar.Expressions

/-! # Programs of the grammar are read

As for expressions the induction is on the number of tokens. A statement in front of
an `else` has to be closed, and an open one is read if no `else` follows. -/

namespace Lox.Parse

open Grammar

variable {α β : Type} {n : Nat} {L : List Token → Prop} {F G : Kind → Prop}

/-- Parts one after the other, and behind them tokens that meet a condition. -/
def Behind : List Form → (List Token → Prop) → List Token → Prop
  | [], L, us => L us
  | a :: parts, L, us => ∃ xs ys, Derives a xs ∧ Behind parts L ys ∧ us = xs ++ ys

theorem Behind.of_seq {right : List Form} {xs ys : List Token} (hy : Behind right L ys) :
    ∀ {left : List Form}, Derives (.seq left) xs → Behind (left ++ right) L (xs ++ ys) := by
  intro left
  induction left generalizing xs with
  | nil =>
    intro hx
    rw [derives_seq_nil.mp hx]
    exact hy
  | cons a left ih =>
    intro hx
    obtain ⟨us, vs, hu, hv, rfl⟩ := derives_seq_cons.mp hx
    exact ⟨us, vs ++ ys, hu, ih hv, List.append_assoc us vs ys⟩

/-- Parts in front of tokens that meet a condition. -/
theorem Behind.before {parts : List Form} {xs ys : List Token} (hy : L ys)
    (hx : Derives (.seq parts) xs) : Behind parts L (xs ++ ys) := by
  have all : Behind (parts ++ []) L (xs ++ ys) := of_seq (show Behind [] L ys from hy) hx
  rwa [List.append_nil] at all

theorem Behind.of_all {parts : List Form} {us : List Token} (h : Derives (.seq parts) us) :
    Behind parts (· = []) us := by
  have all : Behind parts (· = []) (us ++ []) := before rfl h
  rwa [List.append_nil] at all

namespace Reads

theorem mono {L' : List Token → Prop} {F' : Kind → Prop} {p : Parse α} (hp : Reads n L F p)
    (hL : ∀ us, L' us → L us) (hF : ∀ k, F' k → F k) : Reads n L' F' p :=
  fun us rest short h follows => hp us rest short (hL us h) (follows.mono hF)

theorem pure {x : α} : Reads n (· = []) F (Pure.pure x : Parse α) := by
  intro us rest _ e _
  rw [e]
  exact ⟨x, rfl⟩

theorem map {f : α → β} {p : Parse α} (hp : Reads n L F p) : Reads n L F (f <$> p) := by
  intro us rest short h follows
  obtain ⟨a, reply⟩ := hp us rest short h follows
  exact ⟨f a, map_reply reply⟩

/-- Reads a part, which what stands behind it has to let end. -/
theorem part {a : Form} {parts : List Form} {p : Parse α} {f : α → Parse β}
    (hp : Reads n (Derives a) G p) (hf : ∀ x, Reads n (Behind parts L) F (f x))
    (ends : ∀ ys rest, Behind parts L ys → Ahead F rest → Ahead G (ys ++ rest)) :
    Reads n (Behind (a :: parts) L) F (p >>= f) := by
  intro us rest short ⟨xs, ys, hx, hy, e⟩ follows
  subst e
  rw [List.length_append] at short
  obtain ⟨x, first⟩ := hp xs (ys ++ rest) (by omega) hx (ends ys rest hy follows)
  obtain ⟨y, second⟩ := hf x ys rest (by omega) hy follows
  refine ⟨y, ?_⟩
  rw [List.append_assoc, bind_reply first]
  exact second

theorem token {kind : Kind} {parts : List Form} {problem : SyntaxProblem} {f : Token → Parse α}
    (hf : ∀ t, Reads n (Behind parts L) F (f t)) :
    Reads n (Behind (.token kind :: parts) L) F (expect kind problem >>= f) :=
  part (expect_reads n kind problem) hf fun _ _ _ _ _ _ => trivial

end Reads

/-- A terminal lets end what stands in front of it. -/
theorem ahead_token {kind : Kind} {parts : List Form} (hG : G kind) (ys rest : List Token)
    (h : Behind (.token kind :: parts) L ys) : Ahead G (ys ++ rest) := by
  obtain ⟨xs, zs, hx, -, rfl⟩ := h
  obtain ⟨t, ht, rfl⟩ := derives_token.mp hx
  exact ahead_cons.mpr (by rw [ht]; exact hG)

/-- An expression in front of a terminal that ends it. -/
theorem expression_reads {kind : Kind} {parts : List Form} {f : Expr Unit → Parse α}
    (hk : 7 < kind.looseness) (hf : ∀ e, Reads n (Behind (.token kind :: parts) L) F (f e)) :
    Reads n (Behind (.rule .expression :: .token kind :: parts) L) F (wholeExpression >>= f) :=
  .part (wholeExpression_reads n) hf fun ys rest h _ => ahead_token hk ys rest h

/-- An expression that may be missing in front of a terminal. -/
theorem optionalExpression_reads {kind : Kind} {parts : List Form} {f : Option (Expr Unit) → Parse α}
    (hk : 7 < kind.looseness) (hb : kind.beginsExpression = false)
    (hf : ∀ e, Reads n (Behind (.token kind :: parts) L) F (f e)) :
    Reads n (Behind (.optional (.rule .expression) :: .token kind :: parts) L) F
      (unlessKind kind wholeExpression >>= f) := by
  intro us rest short ⟨xs, ys, hx, hy, e⟩ follows
  subst e
  rw [List.length_append] at short
  rcases derives_optional.mp hx with rfl | hx
  · have front := hy
    obtain ⟨zs, ws, hz, -, e⟩ := front
    obtain ⟨t, ht, rfl⟩ := derives_token.mp hz
    obtain ⟨y, reply⟩ := hf none ys rest (by omega) hy follows
    refine ⟨y, ?_⟩
    rw [e] at reply ⊢
    exact (bind_reply (unlessKind_absent ht)).trans reply
  · obtain ⟨e, reply⟩ := wholeExpression_reads n xs (ys ++ rest) (by omega) hx
      (ahead_token hk ys rest hy)
    obtain ⟨t, xs, rfl, ht⟩ := begins_expression xs hx
    have other : ∀ u ∈ (t :: (xs ++ (ys ++ rest))).head?, u.kind ≠ kind := by
      intro u hu e
      cases hu
      rw [e, hb] at ht
      cases ht
    obtain ⟨y, replies⟩ := hf (some e) ys rest (by omega) hy follows
    refine ⟨y, ?_⟩
    rw [List.append_assoc, List.cons_append]
    exact (bind_reply (unlessKind_present other reply)).trans replies

/-- A part behind a token of its own, which may be missing. -/
theorem clause_reads {γ : Type} {kind : Kind} {a : Form} {parts : List Form} {q : Parse γ} {x : γ}
    {g : γ → Parse α} {f : Option Token → Parse α} (hq : Reads n (Derives a) G q)
    (hg : ∀ c, Reads n (Behind parts L) F (g c)) (present : ∀ t, f (some t) = q >>= g)
    (absent : f none = pure x >>= g)
    (ends : ∀ ys rest, Behind parts L ys → Ahead F rest → Ahead G (ys ++ rest))
    (other : ∀ ys rest, Behind parts L ys → Ahead F rest → Ahead (· ≠ kind) (ys ++ rest)) :
    Reads n (Behind (.optional (.seq [.token kind, a]) :: parts) L) F (take? (· == kind) >>= f) := by
  intro us rest short ⟨xs, ys, hx, hy, e⟩ follows
  subst e
  rw [List.length_append] at short
  rcases derives_optional.mp hx with rfl | hx
  · obtain ⟨y, reply⟩ := hg x ys rest (by omega) hy follows
    have none : take? (· == kind) (ys ++ rest) = ⟨some none, ys ++ rest, []⟩ :=
      take?_miss fun t ht => by simpa using other ys rest hy follows t ht
    refine ⟨y, ?_⟩
    rw [List.nil_append, bind_reply none, absent]
    exact reply
  · obtain ⟨t, zs, ht, hz, rfl⟩ := derives_seq_token.mp hx
    rw [List.length_cons] at short
    obtain ⟨c, first⟩ := hq zs (ys ++ rest) (by omega) (derives_single.mp hz) (ends ys rest hy follows)
    obtain ⟨y, second⟩ := hg c ys rest (by omega) hy follows
    refine ⟨y, ?_⟩
    rw [List.append_assoc, List.cons_append, bind_reply (take?_hit (by simp [ht])), present,
      bind_reply first]
    exact second

theorem untilKind_reads {kind : Kind} {a : Form} {S : Kind → Bool} {item : Parse α}
    (hi : Reads n (Derives a) F item) (ha : Begins S a) (hS : S kind = false)
    (hF : ∀ k, S k = true → F k) (hF' : F kind) :
    Reads n (Derives (.many a)) (· = kind) (bounded (untilKind kind item)) := by
  have all : ∀ bound us rest : List Token, us.length ≤ n → us.length ≤ bound.length →
      Derives (.many a) us → Ahead (· = kind) rest →
      ∃ xs, untilKind kind item bound (us ++ rest) = ⟨some xs, rest, []⟩ := by
    intro bound
    induction bound with
    | nil =>
      intro us rest _ long _ _
      rw [List.eq_nil_of_length_eq_zero (Nat.le_zero.mp long)]
      exact ⟨[], rfl⟩
    | cons b bound ih =>
      intro us rest short long h ends
      rcases derives_many.mp h with rfl | ⟨xs, ys, hx, hy, rfl⟩
      · exact ⟨[], untilKind_end ends⟩
      · have ahead : Ahead F (ys ++ rest) := ahead_many ha hy hF (ends.mono fun k e => e ▸ hF')
        obtain ⟨t, xs, rfl, ht⟩ := ha xs hx
        simp only [List.length_append, List.length_cons] at short long
        obtain ⟨x, first⟩ := hi (t :: xs) (ys ++ rest) (by simp; omega) hx ahead
        obtain ⟨items, others⟩ := ih ys rest (by omega) (by omega) hy ends
        have other : t.kind ≠ kind := fun e => by rw [e, hS] at ht; cases ht
        refine ⟨x :: items, ?_⟩
        rw [List.append_assoc]
        exact (untilKind_item other first).trans (bind_reply others)
  intro us rest short h ends
  exact all (us ++ rest) us rest short (by simp) h ends

/-- The readers for what stands inside a statement of at most one token more. -/
structure Inner.Nests (n : Nat) (inner : Inner) : Prop where
  closed : Reads n Closed (fun _ => True) inner.statement
  opened : Reads n Open (· ≠ .kwElse) inner.statement
  declaration : Reads n (Derives (.rule .declaration)) (· ≠ .kwElse) inner.declaration

section Statements

variable {inner : Inner}

theorem block_reads (hi : inner.Nests n) :
    Reads n (Behind [.many (.rule .declaration), .token .rightBrace] (· = [])) F (block inner) := by
  have items : Reads n (Derives (.many (.rule .declaration))) (· = .rightBrace)
      (bounded (untilKind .rightBrace inner.declaration)) :=
    untilKind_reads hi.declaration begins_declaration (by decide) (fun k => by cases k <;> decide)
      (by decide)
  exact items.part (fun _ => .token fun _ => .pure) fun ys rest h _ =>
    ahead_token (G := (· = .rightBrace)) rfl ys rest h

theorem parameters_reads {parts : List Form} {f : List Token → Parse α}
    (hf : ∀ xs, Reads n (Behind (.token .rightParen :: parts) L) F (f xs)) :
    Reads n (Behind (.optional (.rule .parameters) :: .token .rightParen :: parts) L) F
      (parenthesised .parameters (expect .identifier .noParameterName) >>= f) := by
  intro us rest short ⟨xs, ys, hx, hy, e⟩ follows
  subst e
  rw [List.length_append] at short
  have front := hy
  obtain ⟨zs, ws, hz, -, e⟩ := front
  obtain ⟨close, hc, rfl⟩ := derives_token.mp hz
  have listed : Derives (.optional (.listed maxListed (.token .identifier))) xs :=
    derives_optional.mpr ((derives_optional.mp hx).imp id derives_rule.mp)
  have begins : Begins (· == .identifier) (.token .identifier) := .token rfl
  obtain ⟨params, reply⟩ := parenthesised_reads .parameters (expect_reads n .identifier .noParameterName)
    begins rfl trivial trivial (ws ++ rest) (by omega) listed hc
  obtain ⟨y, replies⟩ := hf params ys rest (by omega) hy follows
  refine ⟨y, ?_⟩
  rw [e] at replies ⊢
  rw [List.append_assoc]
  exact (bind_reply reply).trans replies

theorem routine_reads (hi : inner.Nests n) (kind : RoutineKind) :
    Reads n (Derives (.rule .function)) F (routine inner kind) := by
  have parts : Reads n (Behind [.token .identifier, .token .leftParen, .optional (.rule .parameters),
      .token .rightParen, .token .leftBrace, .many (.rule .declaration), .token .rightBrace] (· = [])) F
      (routine inner kind) :=
    .token fun _ => .token fun _ => parameters_reads fun _ => .token fun _ => .token fun _ =>
      (block_reads hi).map
  refine parts.mono (fun us h => ?_) fun _ => id
  have h : Derives (.seq ([.token .identifier, .token .leftParen, .optional (.rule .parameters),
      .token .rightParen] ++ [.rule .block])) us := derives_rule.mp h
  obtain ⟨xs, ys, hx, hy, rfl⟩ := derives_seq_append.mp h
  exact Behind.of_seq (Behind.of_all (derives_rule.mp (derives_single.mp hy))) hx

theorem parentClause_reads :
    Reads n (Derives (.optional (.seq [.token .less, .token .identifier]))) (· ≠ .less)
      parentClause := by
  intro us rest _ h follows
  rcases derives_optional.mp h with rfl | h
  · have none : take? (· == .less) rest = ⟨some none, rest, []⟩ :=
      take?_miss fun t ht => by simpa using follows t ht
    exact ⟨.none, bind_reply none⟩
  · obtain ⟨less, xs, hl, h₁, rfl⟩ := derives_seq_token.mp h
    obtain ⟨name, ys, hn, h₂, rfl⟩ := derives_seq_token.mp h₁
    obtain rfl := derives_seq_nil.mp h₂
    refine ⟨some ⟨(), name⟩, ?_⟩
    rw [parentClause, List.cons_append, bind_reply (take?_hit (by simp [hl]))]
    exact bind_reply (expect_reply _ hn)

theorem classDeclaration_reads (hi : inner.Nests n) :
    Reads n (Behind [.token .identifier, .optional (.seq [.token .less, .token .identifier]),
      .token .leftBrace, .many (.rule .function), .token .rightBrace] (· = [])) F
      (classDeclaration inner) := by
  have methods : Reads n (Derives (.many (.rule .function))) (· = .rightBrace)
      (bounded (untilKind .rightBrace (routine inner .method))) :=
    untilKind_reads (F := fun _ => True) (routine_reads hi .method) begins_function rfl
      (fun _ _ => trivial) trivial
  refine .token fun _ => parentClause_reads.part (fun _ => .token fun _ => ?_) fun ys rest h _ =>
    ahead_token (G := (· ≠ .less)) (by decide) ys rest h
  exact methods.part (fun _ => .token fun _ => .pure) fun ys rest h _ =>
    ahead_token (G := (· = .rightBrace)) rfl ys rest h

theorem variableDeclaration_reads :
    Reads n (Behind [.token .identifier, .optional (.seq [.token .equal, .rule .expression]),
      .token .semicolon] (· = [])) F variableDeclaration := by
  refine .token fun name => ?_
  exact clause_reads (wholeExpression_reads n).map (fun _ => .token fun _ => .pure) (fun _ => rfl) rfl
    (fun ys rest h _ => ahead_token (G := (7 < ·.looseness)) (by decide) ys rest h)
    (fun ys rest h _ => ahead_token (G := (· ≠ .equal)) (by decide) ys rest h)

theorem printStatement_reads :
    Reads n (Behind [.rule .expression, .token .semicolon] (· = [])) F printStatement :=
  expression_reads (by decide) fun _ => .token fun _ => .pure

theorem expressionStatement_reads :
    Reads n (Behind [.rule .expression, .token .semicolon] (· = [])) F expressionStatement :=
  expression_reads (by decide) fun _ => .token fun _ => .pure

theorem returnStatement_reads (keyword : Token) :
    Reads n (Behind [.optional (.rule .expression), .token .semicolon] (· = [])) F
      (returnStatement keyword) :=
  optionalExpression_reads (by decide) (by decide) fun _ => .token fun _ => .pure

theorem whileStatement_reads (hs : Reads n L F inner.statement) :
    Reads n (Behind [.token .leftParen, .rule .expression, .token .rightParen] L) F
      (whileStatement inner) :=
  .token fun _ => expression_reads (by decide) fun _ => .token fun _ => hs.map

theorem firstClause_reads :
    Reads n (Derives (.oneOf [.rule .variableDeclaration, .rule .expressionStatement,
      .token .semicolon])) (fun _ => True) firstClause := by
  intro us rest short h _
  obtain ⟨a, m, h⟩ := derives_oneOf.mp h
  simp only [List.mem_cons, List.not_mem_nil, or_false] at m
  rcases m with rfl | rfl | rfl
  · obtain ⟨t, xs, ht, hx, rfl⟩ := derives_seq_token.mp (derives_rule.mp h)
    rw [List.length_cons] at short
    obtain ⟨s, reply⟩ := variableDeclaration_reads (n := n) (F := fun _ => True) xs rest
      (by omega) (.of_all hx) fun _ _ => trivial
    have notSemicolon : take? (· == .semicolon) (t :: (xs ++ rest)) =
        ⟨some none, t :: (xs ++ rest), []⟩ := take?_miss fun u hu => by cases hu; simp [ht]
    refine ⟨some s, ?_⟩
    rw [firstClause, List.cons_append, bind_reply notSemicolon]
    dsimp only
    rw [bind_reply (take?_hit (by simp [ht]))]
    exact map_reply reply
  · have h := derives_rule.mp h
    obtain ⟨s, reply⟩ := expressionStatement_reads (n := n) (F := fun _ => True) us rest short
      (.of_all h) fun _ _ => trivial
    obtain ⟨t, xs, rfl, ht⟩ := Begins.cons begins_expression us h
    have notSemicolon : take? (· == .semicolon) (t :: (xs ++ rest)) =
        ⟨some none, t :: (xs ++ rest), []⟩ := take?_miss fun u hu => by
      cases hu
      cases hk : t.kind <;> simp_all [Kind.beginsExpression, Kind.beginsOperand]
    have notVar : take? (· == .kwVar) (t :: (xs ++ rest)) =
        ⟨some none, t :: (xs ++ rest), []⟩ := take?_miss fun u hu => by
      cases hu
      cases hk : t.kind <;> simp_all [Kind.beginsExpression, Kind.beginsOperand]
    refine ⟨some s, ?_⟩
    rw [firstClause, List.cons_append, bind_reply notSemicolon]
    dsimp only
    rw [bind_reply notVar]
    exact map_reply reply
  · obtain ⟨t, ht, rfl⟩ := derives_token.mp h
    exact ⟨none, bind_reply (take?_hit (by simp [ht]))⟩

theorem forStatement_reads (hs : Reads n L F inner.statement) :
    Reads n (Behind [.token .leftParen,
      .oneOf [.rule .variableDeclaration, .rule .expressionStatement, .token .semicolon],
      .optional (.rule .expression), .token .semicolon, .optional (.rule .expression),
      .token .rightParen] L) F (forStatement inner) := by
  refine .token fun _ => firstClause_reads.part (fun _ => ?_) fun _ _ _ _ _ _ => trivial
  exact optionalExpression_reads (by decide) (by decide) fun _ => .token fun _ =>
    optionalExpression_reads (by decide) (by decide) fun _ => .token fun _ => hs.map

/-- An `if` without an `else`, which must not follow. -/
theorem ifStatement_reads (hs : Reads n L G inner.statement) (hG : ∀ k, F k → G k)
    (hF : ∀ k, F k → k ≠ .kwElse) :
    Reads n (Behind [.token .leftParen, .rule .expression, .token .rightParen] L) F
      (ifStatement inner) := by
  refine .token fun _ => expression_reads (by decide) fun condition => .token fun _ => ?_
  intro us rest short h follows
  obtain ⟨yes, reply⟩ := hs us rest short h (follows.mono hG)
  have none : take? (· == .kwElse) rest = ⟨some none, rest, []⟩ :=
    take?_miss fun t ht => by simpa using hF _ (follows t ht)
  refine ⟨.branch condition yes .none, ?_⟩
  rw [bind_reply reply, bind_reply none]
  rfl

/-- Two conditions on tokens with an `else` between them. -/
def AroundElse (L M : List Token → Prop) (us : List Token) : Prop :=
  ∃ xs t ys, L xs ∧ t.kind = .kwElse ∧ M ys ∧ us = xs ++ t :: ys

/-- An `if` with an `else`, which has to let end what stands in front of it. -/
theorem ifElseStatement_reads {M : List Token → Prop} (hs : Reads n L G inner.statement)
    (hG : G .kwElse) (ht : Reads n M F inner.statement) :
    Reads n (Behind [.token .leftParen, .rule .expression, .token .rightParen] (AroundElse L M)) F
      (ifStatement inner) := by
  refine .token fun _ => expression_reads (by decide) fun condition => .token fun _ => ?_
  intro us rest short ⟨xs, t, ys, hx, hk, hy, e⟩ follows
  subst e
  simp only [List.length_append, List.length_cons] at short
  obtain ⟨yes, first⟩ := hs xs (t :: (ys ++ rest)) (by omega) hx (by simpa [hk] using hG)
  obtain ⟨no, second⟩ := ht ys rest (by omega) hy follows
  refine ⟨.branch condition yes (some no), ?_⟩
  rw [List.append_assoc, List.cons_append, bind_reply first, bind_reply (take?_hit (by simp [hk]))]
  dsimp only
  rw [bind_reply (map_reply second)]
  rfl

/-! ## Statements by their shape -/

theorem keyword_reads {t : Token} {q : Parse (Stmt Unit)} (hq : statementFrom? inner t = some q)
    (h : Reads n L F q) {us rest : List Token} (short : us.length ≤ n) (hu : L us)
    (follows : Ahead F rest) : ∃ s, statement inner (t :: us ++ rest) = ⟨some s, rest, []⟩ := by
  obtain ⟨s, reply⟩ := h us rest short hu follows
  exact ⟨s, (choose_reply hq).trans reply⟩

theorem simple_reads (hi : inner.Nests n) {r : Rule} (hr : r.isSimple = true) :
    Reads (n + 1) (Derives (.rule r)) F (statement inner) := by
  intro us rest short h follows
  have h := derives_rule.mp h
  cases r with
  | expressionStatement =>
    obtain ⟨s, reply⟩ := expressionStatement_reads us rest short (.of_all h) follows
    obtain ⟨t, xs, rfl, ht⟩ := Begins.cons begins_expression us h
    have other : statementFrom? inner t = none := by
      cases hk : t.kind <;> simp_all [statementFrom?, Kind.beginsExpression, Kind.beginsOperand]
    exact ⟨s, (choose_otherwise other).trans reply⟩
  | printStatement =>
    obtain ⟨t, xs, ht, hx, rfl⟩ := derives_seq_token.mp h
    rw [List.length_cons] at short
    exact keyword_reads (n := n) (by simp [statementFrom?, ht]) printStatement_reads (by omega)
      (.of_all hx) follows
  | returnStatement =>
    obtain ⟨t, xs, ht, hx, rfl⟩ := derives_seq_token.mp h
    rw [List.length_cons] at short
    exact keyword_reads (n := n) (by simp [statementFrom?, ht]) (returnStatement_reads t) (by omega)
      (.of_all hx) follows
  | block =>
    obtain ⟨t, xs, ht, hx, rfl⟩ := derives_seq_token.mp h
    rw [List.length_cons] at short
    have begun : statementFrom? inner t = some (.block <$> block inner) := by simp [statementFrom?, ht]
    exact keyword_reads begun (block_reads hi).map (by omega) (.of_all hx) follows
  | _ => cases hr

theorem loop_reads {head us rest : List Token} (hs : Reads n L F inner.statement)
    (h : Derives (.oneOf [.seq whileHead, .seq forHead]) head) (hu : L us)
    (short : (head ++ us).length ≤ n + 1) (follows : Ahead F rest) :
    ∃ s, statement inner (head ++ us ++ rest) = ⟨some s, rest, []⟩ := by
  obtain ⟨a, m, h⟩ := derives_oneOf.mp h
  simp only [List.mem_cons, List.not_mem_nil, or_false] at m
  rcases m with rfl | rfl
  · obtain ⟨t, xs, ht, hx, rfl⟩ := derives_seq_token.mp h
    simp only [List.length_append, List.length_cons] at short
    exact keyword_reads (by simp [statementFrom?, ht]) (whileStatement_reads hs) (by simp; omega)
      (Behind.before hu hx) follows
  · obtain ⟨t, xs, ht, hx, rfl⟩ := derives_seq_token.mp h
    simp only [List.length_append, List.length_cons] at short
    exact keyword_reads (by simp [statementFrom?, ht]) (forStatement_reads hs) (by simp; omega)
      (Behind.before hu hx) follows

theorem branch_reads {M : List Token → Prop} {head us vs rest : List Token} {t : Token}
    (hs : Reads n L G inner.statement) (hG : G .kwElse) (hm : Reads n M F inner.statement)
    (h : Derives (.seq ifHead) head) (hu : L us) (ht : t.kind = .kwElse) (hv : M vs)
    (short : (head ++ (us ++ t :: vs)).length ≤ n + 1) (follows : Ahead F rest) :
    ∃ s, statement inner (head ++ (us ++ t :: vs) ++ rest) = ⟨some s, rest, []⟩ := by
  obtain ⟨k, xs, hk, hx, rfl⟩ := derives_seq_token.mp h
  simp only [List.length_append, List.length_cons] at short
  have around : AroundElse L M (us ++ t :: vs) := ⟨us, t, vs, hu, ht, hv, rfl⟩
  exact keyword_reads (by simp [statementFrom?, hk]) (ifElseStatement_reads hs hG hm)
    (by simp; omega) (Behind.before around hx) follows

theorem closed_reads (hi : inner.Nests n) : Reads (n + 1) Closed (fun _ => True) (statement inner) := by
  intro us rest short h follows
  cases h with
  | simple hr h => exact simple_reads hi hr us rest short h follows
  | branch h hu ht hv => exact branch_reads hi.closed trivial hi.closed h hu ht hv short follows
  | loop h hu => exact loop_reads hi.closed h hu short follows

theorem open_reads (hi : inner.Nests n) : Reads (n + 1) Open (· ≠ .kwElse) (statement inner) := by
  have single {L : List Token → Prop} {head us rest : List Token}
      (hs : Reads n L (· ≠ .kwElse) inner.statement) (h : Derives (.seq ifHead) head) (hu : L us)
      (short : (head ++ us).length ≤ n + 1) (follows : Ahead (· ≠ .kwElse) rest) :
      ∃ s, statement inner (head ++ us ++ rest) = ⟨some s, rest, []⟩ := by
    obtain ⟨k, xs, hk, hx, rfl⟩ := derives_seq_token.mp h
    simp only [List.length_append, List.length_cons] at short
    exact keyword_reads (by simp [statementFrom?, hk])
      (ifStatement_reads hs (fun _ h => h) fun _ h => h) (by simp; omega)
      (Behind.before hu hx) follows
  intro us rest short h follows
  cases h with
  | branch h hu => exact single (hi.closed.mono (fun _ h => h) fun _ _ => trivial) h hu short follows
  | nested h hu => exact single hi.opened h hu short follows
  | other h hu ht hv => exact branch_reads hi.closed trivial hi.opened h hu ht hv short follows
  | loop h hu => exact loop_reads hi.opened h hu short follows

theorem recover_reply {p : Parse α} {tokens rest : List Token} {a : α}
    (h : p tokens = ⟨some a, rest, []⟩) : recover p tokens = ⟨some (some a), rest, []⟩ := by
  simp only [recover, h]

theorem declaration_reads (hi : inner.Nests n) :
    Reads (n + 1) (Derives (.rule .declaration)) (· ≠ .kwElse) (declaration inner) := by
  intro us rest short h follows
  have keyword {t : Token} {xs : List Token} {L : List Token → Prop} {q : Parse (Stmt Unit)}
      (hq : declarationFrom? inner t = some q) (read : Reads n L (fun _ => True) q) (hx : L xs)
      (short : (t :: xs).length ≤ n + 1) :
      ∃ s, declaration inner (t :: xs ++ rest) = ⟨some s, rest, []⟩ := by
    rw [List.length_cons] at short
    obtain ⟨s, reply⟩ := read xs rest (by omega) hx fun _ _ => trivial
    exact ⟨some s, recover_reply ((choose_reply hq).trans reply)⟩
  obtain ⟨a, m, h⟩ := derives_oneOf.mp (derives_rule.mp h)
  simp only [List.mem_cons, List.not_mem_nil, or_false] at m
  rcases m with rfl | rfl | rfl | rfl
  · obtain ⟨t, xs, ht, hx, rfl⟩ := derives_seq_token.mp (derives_rule.mp h)
    exact keyword (by simp [declarationFrom?, ht]) (classDeclaration_reads hi) (.of_all hx) short
  · obtain ⟨t, xs, ht, hx, rfl⟩ := derives_seq_token.mp (derives_rule.mp h)
    have begun : declarationFrom? inner t = some (.function <$> routine inner .function) := by
      simp [declarationFrom?, ht]
    exact keyword begun (routine_reads hi .function).map (derives_single.mp hx) short
  · obtain ⟨t, xs, ht, hx, rfl⟩ := derives_seq_token.mp (derives_rule.mp h)
    exact keyword (by simp [declarationFrom?, ht]) variableDeclaration_reads (.of_all hx) short
  · obtain ⟨s, reply⟩ : ∃ s, statement inner (us ++ rest) = ⟨some s, rest, []⟩ := by
      rcases statement_shape us.length us (Nat.le_refl _) h with shape | shape
      · exact closed_reads hi us rest short shape fun _ _ => trivial
      · exact open_reads hi us rest short shape follows
    obtain ⟨t, xs, rfl, ht⟩ := begins_statement us h
    have other : declarationFrom? inner t = none := by
      cases hk : t.kind <;>
        simp_all [declarationFrom?, Kind.beginsStatement, Kind.beginsExpression, Kind.beginsOperand]
    exact ⟨some s, recover_reply ((choose_otherwise other).trans reply)⟩

theorem innerWithin_nests : ∀ bound : List Token, (innerWithin bound).Nests bound.length
  | [] => by
    refine ⟨fun us rest short h => ?_, fun us rest short h => ?_, fun us rest short h => ?_⟩
    · exact absurd (List.eq_nil_of_length_eq_zero (Nat.le_zero.mp short)) h.ne_nil
    · exact absurd (List.eq_nil_of_length_eq_zero (Nat.le_zero.mp short)) h.ne_nil
    · obtain ⟨t, xs, rfl, -⟩ := begins_declaration us h
      simp at short
  | _ :: bound =>
    have hi := innerWithin_nests bound
    ⟨closed_reads hi, open_reads hi, declaration_reads hi⟩

theorem program_reads {us : List Token} (h : Derives (.many (.rule .declaration)) us) :
    ∃ items, program us = ⟨some items, [], []⟩ := by
  have declarations (n : Nat) : Reads n (Derives (.rule .declaration)) (· ≠ .kwElse) wholeDeclaration :=
    fun us rest _ h follows =>
      (innerWithin_nests (us ++ rest)).declaration us rest (by simp) h follows
  have all : Reads us.length (Derives (.many (.rule .declaration))) (· = .eof) program :=
    untilKind_reads (declarations us.length) begins_declaration (by decide)
      (fun k => by cases k <;> decide) (by decide)
  obtain ⟨items, reply⟩ := all us [] (Nat.le_refl _) h ahead_nil
  rw [List.append_nil] at reply
  exact ⟨items, reply⟩

end Statements

end Lox.Parse
