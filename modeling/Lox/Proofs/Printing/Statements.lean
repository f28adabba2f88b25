import Lox.Proofs.Grammar.Statements
import Lox.Proofs.Printing.Reading

/-! # Statements are read from their tokens

As for expressions the readers are given a bound on the tokens of what is nested in a
statement. An `else` that follows has to find the statement closed. -/

namespace Lox.Parse

variable {inner : Inner} {n : Nat}

/-- Whether an `else` follows. -/
def atElse (rest : List Token) : Bool := rest.head?.any (·.kind == .kwElse)

theorem atElse_eq_false {rest : List Token} : atElse rest = false ↔ Ahead (· ≠ .kwElse) rest := by
  cases rest with
  | nil => simp [atElse]
  | cons t rest => simp [atElse]

/-- The readers for what stands inside a statement of at most one token more. -/
structure Inner.Regains (n : Nat) (inner : Inner) : Prop where
  statement : ∀ {s : Stmt Unit} {us rest : List Token}, us.length ≤ n → s.Writes (!atElse rest) us →
    s.declared? = none → inner.statement (us ++ rest) = ⟨some s, rest, []⟩
  declaration : ∀ {s : Stmt Unit} {us rest : List Token}, us.length ≤ n → s.Writes (!atElse rest) us →
    inner.declaration (us ++ rest) = ⟨some (some s), rest, []⟩

/-- A declaration that has been read. -/
def Declares (d : Option (Stmt Unit)) (us : List Token) : Prop := ∃ s, d = some s ∧ s.Writes true us

theorem Declares.row {ss : List (Stmt Unit)} {us : List Token} (h : Row (Stmt.Writes true) ss us) :
    Row Declares (ss.map some) us := by
  induction h with
  | nil => exact .nil
  | cons h _ ih => exact .cons ⟨_, rfl, h⟩ ih

theorem Declares.starts {d : Option (Stmt Unit)} {us : List Token} (h : Declares d us) :
    Starts Kind.beginsDeclaration us := by
  obtain ⟨s, -, h⟩ := h
  exact h.starts

theorem Declares.restored {d : Parse (Option (Stmt Unit))}
    (h : ∀ {s : Stmt Unit} {us rest : List Token}, us.length ≤ n → s.Writes (!atElse rest) us →
      d (us ++ rest) = ⟨some (some s), rest, []⟩) : Restores n Declares (· ≠ .kwElse) d := by
  intro o us rest short hd follows
  obtain ⟨s, rfl, hs⟩ := hd
  refine h short ?_
  rw [atElse_eq_false.mpr follows]
  exact hs

theorem block_reply (hi : inner.Regains n) {ss : List (Stmt Unit)} {ts : List Token} {r : Token}
    (h : Row (Stmt.Writes true) ss ts) (short : ts.length ≤ n) (hr : r.kind = .rightBrace)
    (rest : List Token) : block inner (ts ++ r :: rest) = ⟨some ss, rest, []⟩ := by
  have items := untilKind_restores .rightBrace (Declares.restored hi.declaration)
    (fun _ _ h => h.starts) (fun k => by cases k <;> decide) (by decide) rfl (Declares.row h)
    (ts ++ r :: rest) (r :: rest) short (by simp) (ahead_cons.mpr hr)
  rw [block, bind_reply (p := bounded _) items, bind_reply (expect_reply _ hr)]
  simp [pure]

theorem names_restored (problem : SyntaxProblem) :
    Restores n Token.Names (fun _ => True) (expect .identifier problem) := by
  intro t us rest _ h _
  rw [h.2]
  exact expect_reply problem h.1

theorem routine_reply (hi : inner.Regains n) (kind : RoutineKind) {r : Routine (Stmt Unit)}
    {ts : List Token} (h : Routine.Writes (Stmt.Writes true) r ts) (short : ts.length ≤ n)
    (rest : List Token) : routine inner kind (ts ++ rest) = ⟨some r, rest, []⟩ := by
  cases h with
  | mk hn hl hp hr hb h he =>
    simp only [List.length_append, List.length_cons] at short
    have names := parenthesised_restores .parameters (names_restored (n := n) .noParameterName) trivial trivial
      (S := (· == .identifier)) (fun t us h => h.2 ▸ .kind h.1 rfl) rfl hp (by omega) hr
    simp only [List.cons_append, List.append_assoc, List.nil_append]
    rw [routine, bind_reply (expect_reply _ hn), bind_reply (expect_reply _ hl), bind_reply (names _),
      bind_reply (expect_reply _ hr), bind_reply (expect_reply _ hb),
      bind_reply (block_reply hi h (by omega) he rest)]
    rfl

theorem parentClause_reply {p : Option (Reference Unit)} {ts : List Token}
    (h : Reference.WritesParent p ts) {t : Token} (ht : t.kind = .leftBrace) (rest : List Token) :
    parentClause (ts ++ t :: rest) = ⟨some p, t :: rest, []⟩ := by
  cases h with
  | absent =>
    have none : take? (· == .less) (t :: rest) = ⟨some none, t :: rest, []⟩ :=
      take?_miss fun u hu => by cases hu; simp [ht]
    exact bind_reply none
  | present hl hn =>
    simp only [List.cons_append, List.nil_append]
    rw [parentClause, bind_reply (take?_hit (by simp [hl]))]
    exact bind_reply (expect_reply _ hn)

theorem methods_reply (hi : inner.Regains n) {rs : List (Routine (Stmt Unit))} {ts : List Token}
    (h : Row (Routine.Writes (Stmt.Writes true)) rs ts) (short : ts.length ≤ n) {r : Token}
    (hr : r.kind = .rightBrace) (rest : List Token) :
    bounded (untilKind .rightBrace (routine inner .method)) (ts ++ r :: rest) =
      ⟨some rs, r :: rest, []⟩ :=
  untilKind_restores (F := fun _ => True) .rightBrace
    (fun _ _ rest short h _ => routine_reply hi .method h short rest)
    (fun _ _ h => Routine.Writes.starts h) (fun _ _ => trivial) trivial rfl h _ _ short (by simp)
    (ahead_cons.mpr hr)

/-- An expression that may be missing in front of a token that begins none. -/
theorem clause_reply {e : Option (Expr Unit)} {ts : List Token} (h : Clause Expr.Writes e ts)
    {t : Token} {kind : Kind} (ht : t.kind = kind) (hk : 7 < kind.looseness)
    (hb : kind.beginsExpression = false) (rest : List Token) :
    unlessKind kind wholeExpression (ts ++ t :: rest) = ⟨some e, t :: rest, []⟩ := by
  cases h with
  | absent => exact unlessKind_absent ht
  | @present e ts h =>
    refine unlessKind_present ?_ (wholeExpression_reply h (by rw [ht]; exact hk) rest)
    obtain ⟨u, us, rfl, hu⟩ := h.starts
    intro v hv e
    cases hv
    rw [e, hb] at hu
    cases hu

theorem expressionStatement_reply {e : Expr Unit} {ts : List Token} {s : Token} (h : e.Writes ts)
    (hs : s.kind = .semicolon) (rest : List Token) :
    expressionStatement (ts ++ s :: rest) = ⟨some (.expression e), rest, []⟩ := by
  rw [expressionStatement, bind_reply (wholeExpression_reply h (by rw [hs]; decide) rest),
    bind_reply (expect_reply _ hs)]
  rfl

/-- Behind the keyword that begins it, a variable declaration is read to its end. -/
theorem variableDeclaration_reply {o : Bool} {name : Token} {e : Option (Expr Unit)} {ts : List Token}
    (h : Stmt.Writes o (.declare name e) ts) : ∃ t us, ts = t :: us ∧ t.kind = .kwVar ∧
      ∀ rest, variableDeclaration (us ++ rest) = ⟨some (.declare name e), rest, []⟩ := by
  cases h with
  | @declare _ k _ s hk hn hs =>
    refine ⟨k, _, rfl, hk, fun rest => ?_⟩
    have none : take? (· == .equal) (s :: rest) = ⟨some none, s :: rest, []⟩ :=
      take?_miss fun u hu => by cases hu; simp [hs]
    simp only [List.cons_append, List.nil_append]
    rw [variableDeclaration, bind_reply (expect_reply _ hn), bind_reply none]
    exact bind_reply (expect_reply _ hs)
  | @define _ k _ q s _ ts hk hn hq h hs =>
    refine ⟨k, _, rfl, hk, fun rest => ?_⟩
    have value := map_reply (f := some) (wholeExpression_reply h (t := s) (by rw [hs]; decide) rest)
    simp only [List.cons_append, List.append_assoc, List.nil_append]
    rw [variableDeclaration, bind_reply (expect_reply _ hn), bind_reply (take?_hit (by simp [hq]))]
    dsimp only
    rw [bind_reply value]
    exact bind_reply (expect_reply _ hs)
  | counting hw =>
    have nothing := congrArg Stmt.declared? hw
    rw [Stmt.counting_declared?] at nothing
    cases nothing

theorem printStatement_reply {e : Expr Unit} {ts : List Token} {s : Token} (h : e.Writes ts)
    (hs : s.kind = .semicolon) (rest : List Token) :
    printStatement (ts ++ s :: rest) = ⟨some (.print e), rest, []⟩ := by
  rw [printStatement, bind_reply (wholeExpression_reply h (by rw [hs]; decide) rest),
    bind_reply (expect_reply _ hs)]
  rfl

theorem returnStatement_reply {e : Option (Expr Unit)} {ts : List Token} {s : Token}
    (h : Clause Expr.Writes e ts) (hs : s.kind = .semicolon) (keyword : Token) (rest : List Token) :
    returnStatement keyword (ts ++ s :: rest) = ⟨some (.leave keyword e), rest, []⟩ := by
  rw [returnStatement, bind_reply (clause_reply h hs (by decide) (by decide) rest),
    bind_reply (expect_reply _ hs)]
  rfl

theorem firstClause_reply {i : Option (Stmt Unit)} {ts : List Token}
    (h : FirstClause (Stmt.Writes true) i ts) (rest : List Token) :
    firstClause (ts ++ rest) = ⟨some i, rest, []⟩ := by
  have other {t : Token} {us : List Token} {kind : Kind} (ht : t.kind ≠ kind) :
      take? (· == kind) (t :: us) = ⟨some none, t :: us, []⟩ :=
    take?_miss fun u hu => by cases hu; simp [ht]
  cases h with
  | @none s hs =>
    have here : take? (· == .semicolon) (s :: rest) = ⟨some (some s), rest, []⟩ := take?_hit (by simp [hs])
    exact bind_reply here
  | declare h =>
    obtain ⟨t, us, rfl, ht, reply⟩ := variableDeclaration_reply h
    rw [firstClause, List.cons_append, bind_reply (other (by simp [ht]))]
    dsimp only
    rw [bind_reply (take?_hit (by simp [ht]))]
    exact map_reply (reply rest)
  | expression h =>
    cases h with
    | @expression _ _ ts s h hs =>
      have reply := expressionStatement_reply h hs rest
      obtain ⟨t, us, rfl, ht⟩ := h.starts
      have elsewhere (kind : Kind) (hk : kind.beginsExpression = false) : t.kind ≠ kind := fun e => by
        rw [e, hk] at ht
        cases ht
      simp only [List.cons_append, List.append_assoc, List.nil_append] at reply ⊢
      rw [firstClause, bind_reply (other (elsewhere .semicolon rfl))]
      dsimp only
      rw [bind_reply (other (elsewhere .kwVar rfl))]
      exact map_reply reply
    | counting hw => exact absurd hw (Stmt.counting_ne_expression _ _ _ _ _)

section Nested

variable {c : Expr Unit} {s : Stmt Unit} {ts us : List Token} {l r : Token}

theorem whileStatement_reply (hi : inner.Regains n) (hl : l.kind = .leftParen) (hc : c.Writes ts)
    (hr : r.kind = .rightParen) {rest : List Token} (h : s.Writes (!atElse rest) us)
    (hd : s.declared? = none) (short : us.length ≤ n) :
    whileStatement inner (l :: (ts ++ r :: (us ++ rest))) = ⟨some (.loop c s), rest, []⟩ := by
  rw [whileStatement, bind_reply (expect_reply _ hl),
    bind_reply (wholeExpression_reply hc (by rw [hr]; decide) _), bind_reply (expect_reply _ hr),
    bind_reply (hi.statement short h hd)]
  rfl

theorem ifStatement_reply (hi : inner.Regains n) (hl : l.kind = .leftParen) (hc : c.Writes ts)
    (hr : r.kind = .rightParen) {rest : List Token} (follows : atElse rest = false)
    (h : s.Writes true us) (hd : s.declared? = none) (short : us.length ≤ n) :
    ifStatement inner (l :: (ts ++ r :: (us ++ rest))) = ⟨some (.branch c s none), rest, []⟩ := by
  have yes : inner.statement (us ++ rest) = ⟨some s, rest, []⟩ :=
    hi.statement short (by rw [follows]; exact h) hd
  have none : take? (· == .kwElse) rest = ⟨some none, rest, []⟩ :=
    take?_miss fun t ht => by simpa using atElse_eq_false.mp follows t ht
  rw [ifStatement, bind_reply (expect_reply _ hl),
    bind_reply (wholeExpression_reply hc (by rw [hr]; decide) _), bind_reply (expect_reply _ hr),
    bind_reply yes, bind_reply none]
  rfl

theorem ifElseStatement_reply (hi : inner.Regains n) (hl : l.kind = .leftParen) (hc : c.Writes ts)
    (hr : r.kind = .rightParen) (h : s.Writes false us) (hd : s.declared? = none)
    (short : us.length ≤ n) {e : Token} (he : e.kind = .kwElse) {no : Stmt Unit} {vs rest : List Token}
    (hn : no.Writes (!atElse rest) vs) (hdn : no.declared? = none) (short' : vs.length ≤ n) :
    ifStatement inner (l :: (ts ++ r :: (us ++ e :: (vs ++ rest)))) =
      ⟨some (.branch c s (some no)), rest, []⟩ := by
  have yes : inner.statement (us ++ e :: (vs ++ rest)) = ⟨some s, e :: (vs ++ rest), []⟩ :=
    hi.statement short (by simpa [atElse, he] using h) hd
  have other := map_reply (f := some) (hi.statement short' hn hdn)
  rw [ifStatement, bind_reply (expect_reply _ hl),
    bind_reply (wholeExpression_reply hc (by rw [hr]; decide) _), bind_reply (expect_reply _ hr),
    bind_reply yes, bind_reply (take?_hit (by simp [he]))]
  dsimp only
  rw [bind_reply other]
  rfl

theorem forStatement_reply (hi : inner.Regains n) (hl : l.kind = .leftParen) {i : Option (Stmt Unit)}
    {condition step : Option (Expr Unit)} {is cs ss : List Token} {m : Token}
    (hf : FirstClause (Stmt.Writes true) i is) (hc : Clause Expr.Writes condition cs)
    (hm : m.kind = .semicolon) (hs : Clause Expr.Writes step ss) (hr : r.kind = .rightParen)
    {rest : List Token} (h : s.Writes (!atElse rest) us) (hd : s.declared? = none)
    (short : us.length ≤ n) :
    forStatement inner (l :: (is ++ (cs ++ m :: (ss ++ r :: (us ++ rest))))) =
      ⟨some (.counting i condition step s), rest, []⟩ := by
  rw [forStatement, bind_reply (expect_reply _ hl), bind_reply (firstClause_reply hf _),
    bind_reply (clause_reply hc hm (by decide) (by decide) _), bind_reply (expect_reply _ hm),
    bind_reply (clause_reply hs hr (by decide) (by decide) _), bind_reply (expect_reply _ hr),
    bind_reply (hi.statement short h hd)]
  rfl

end Nested

theorem statement_reply (hi : inner.Regains n) {s : Stmt Unit} {us rest : List Token}
    (short : us.length ≤ n + 1) (h : s.Writes (!atElse rest) us) (hd : s.declared? = none) :
    statement inner (us ++ rest) = ⟨some s, rest, []⟩ := by
  generalize ho : (!atElse rest) = o at h
  cases h with
  | @expression _ e ts t h hs =>
    have reply := expressionStatement_reply h hs rest
    obtain ⟨u, us, rfl, hu⟩ := h.starts
    have other : statementFrom? inner u = none := by
      cases hk : u.kind <;> simp_all [statementFrom?, Kind.beginsExpression, Kind.beginsOperand]
    simp only [List.cons_append, List.append_assoc, List.nil_append] at reply ⊢
    exact (choose_otherwise other).trans reply
  | @print _ e ts k t hk h hs =>
    have begun : statementFrom? inner k = some printStatement := by simp [statementFrom?, hk]
    simp only [List.cons_append, List.append_assoc, List.nil_append]
    exact (choose_reply begun).trans (printStatement_reply h hs rest)
  | @leave _ e ts k t hk h hs =>
    have begun : statementFrom? inner k = some (returnStatement k) := by simp [statementFrom?, hk]
    simp only [List.cons_append, List.append_assoc, List.nil_append]
    exact (choose_reply begun).trans (returnStatement_reply h hs k rest)
  | @block _ ss ts l r hl h hr =>
    simp only [List.length_cons, List.length_append] at short
    have begun : statementFrom? inner l = some (.block <$> block inner) := by simp [statementFrom?, hl]
    simp only [List.cons_append, List.append_assoc, List.nil_append]
    exact (choose_reply begun).trans (map_reply (block_reply hi h (by omega) hr rest))
  | @branch c y ts us k l r hk hl hc hr hy hdy =>
    simp only [List.length_cons, List.length_append] at short
    have begun : statementFrom? inner k = some (ifStatement inner) := by simp [statementFrom?, hk]
    simp only [List.cons_append, List.append_assoc]
    exact (choose_reply begun).trans
      (ifStatement_reply hi hl hc hr (by simpa using ho) hy hdy (by omega))
  | @choice _ c y no ts us vs k l r e hk hl hc hr hy hdy he hn hdn =>
    simp only [List.length_cons, List.length_append] at short
    have begun : statementFrom? inner k = some (ifStatement inner) := by simp [statementFrom?, hk]
    simp only [List.cons_append, List.append_assoc]
    exact (choose_reply begun).trans (ifElseStatement_reply hi hl hc hr hy hdy (by omega) he
      (ho ▸ hn) hdn (by omega))
  | @loop _ c body ts us k l r hk hl hc hr h hdb =>
    simp only [List.length_cons, List.length_append] at short
    have begun : statementFrom? inner k = some (whileStatement inner) := by simp [statementFrom?, hk]
    simp only [List.cons_append, List.append_assoc]
    exact (choose_reply begun).trans (whileStatement_reply hi hl hc hr (ho ▸ h) hdb (by omega))
  | @counting _ _ i c st b is cs ss bs k l m r hw hk hl hf hc hm hs hr hb hdb =>
    simp only [List.length_cons, List.length_append] at short
    have begun : statementFrom? inner k = some (forStatement inner) := by simp [statementFrom?, hk]
    simp only [List.cons_append, List.append_assoc]
    rw [hw]
    exact (choose_reply begun).trans (forStatement_reply hi hl hf hc hm hs hr (ho ▸ hb) hdb (by omega))
  | declare => cases hd
  | define => cases hd
  | function => cases hd
  | klass => cases hd

theorem declaration_reply (hi : inner.Regains n) {s : Stmt Unit} {us rest : List Token}
    (short : us.length ≤ n + 1) (h : s.Writes (!atElse rest) us) :
    declaration inner (us ++ rest) = ⟨some (some s), rest, []⟩ := by
  cases hd : s.declared? with
  | none =>
    have reply := statement_reply hi short h hd
    obtain ⟨t, us, rfl, ht⟩ := h.startsStatement hd
    have other : declarationFrom? inner t = none := by
      cases hk : t.kind <;>
        simp_all [declarationFrom?, Kind.beginsStatement, Kind.beginsExpression, Kind.beginsOperand]
    exact recover_reply ((choose_otherwise other).trans reply)
  | some x =>
    have declared {name : Token} {e : Option (Expr Unit)} {us : List Token} {o : Bool}
        (h : Stmt.Writes o (.declare name e) us) :
        declaration inner (us ++ rest) = ⟨some (some (.declare name e)), rest, []⟩ := by
      obtain ⟨t, us, rfl, ht, reply⟩ := variableDeclaration_reply h
      have begun : declarationFrom? inner t = some variableDeclaration := by simp [declarationFrom?, ht]
      exact recover_reply ((choose_reply begun).trans (reply rest))
    generalize (!atElse rest) = o at h
    cases h with
    | declare hk hn hs => exact declared (Stmt.Writes.declare (o := o) hk hn hs)
    | define hk hn hq h hs => exact declared (Stmt.Writes.define (o := o) hk hn hq h hs)
    | @function _ r ts k hk h =>
      have begun : declarationFrom? inner k = some (.function <$> routine inner .function) := by
        simp [declarationFrom?, hk]
      exact recover_reply ((choose_reply begun).trans
        (map_reply (routine_reply hi .function h (Nat.le_of_succ_le_succ short) rest)))
    | @klass _ name p ms ps ts k l r hk hn hp hl hm hr =>
      simp only [List.length_cons, List.length_append] at short
      have begun : declarationFrom? inner k = some (classDeclaration inner) := by
        simp [declarationFrom?, hk]
      have methods := methods_reply hi hm (by omega) hr rest
      simp only [List.cons_append, List.append_assoc, List.nil_append]
      refine recover_reply ((choose_reply begun).trans ?_)
      rw [classDeclaration, bind_reply (expect_reply _ hn), bind_reply (parentClause_reply hp hl _),
        bind_reply (expect_reply _ hl), bind_reply methods, bind_reply (expect_reply _ hr)]
      rfl
    | counting hw =>
      rw [hw, Stmt.counting_declared?] at hd
      cases hd
    | expression => cases hd
    | print => cases hd
    | block => cases hd
    | branch => cases hd
    | choice => cases hd
    | loop => cases hd
    | leave => cases hd

theorem innerWithin_regains : ∀ bound : List Token, (innerWithin bound).Regains bound.length
  | [] => by
    refine ⟨fun short h _ => ?_, fun short h => ?_⟩
    · obtain ⟨t, us, rfl, -⟩ := h.starts
      simp at short
    · obtain ⟨t, us, rfl, -⟩ := h.starts
      simp at short
  | _ :: bound =>
    ⟨statement_reply (innerWithin_regains bound), declaration_reply (innerWithin_regains bound)⟩

/-- A program is read from any row of its tokens. -/
theorem program_reply {ss : List (Stmt Unit)} {us : List Token} (h : Row (Stmt.Writes true) ss us) :
    program us = ⟨some (ss.map some), [], []⟩ := by
  have declarations : Restores us.length Declares (· ≠ .kwElse) wholeDeclaration :=
    Declares.restored fun {s us rest} _ h =>
      (innerWithin_regains (us ++ rest)).declaration (by simp) h
  have all := untilKind_restores .eof declarations (fun _ _ h => Declares.starts h)
    (fun k => by cases k <;> decide) (by decide) rfl (Declares.row h) us [] (Nat.le_refl _)
    (Nat.le_refl _) ahead_nil
  rw [List.append_nil] at all
  exact all

end Lox.Parse
