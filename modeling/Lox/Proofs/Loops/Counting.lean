import Lox.Proofs.Loops.Places
import Lox.Proofs.Loops.Rounds

/-! # A counting loop is another way to write a loop

The parts of a counting loop can be put together as a loop in a block, and both are read as the
same tree, wherever a statement may stand. -/

namespace Lox

/-- The tokens by themselves are read as the value, to their end and without a problem. -/
def Parse.Alone {α : Type} (p : Parse α) (a : α) (ts : List Token) : Prop := p ts = ⟨some a, [], []⟩

open Parse (Alone wholeDeclaration wholeExpression)

/-- A statement may stand between the tokens: a print statement is read there without a problem. -/
def StatementPlace (front back : List Token) : Prop :=
  (parse (front ++ (.plain .kwPrint :: .plain .kwNil :: .plain .semicolon :: back) ++ [.plain .eof])).errors = []

/-- The parts of a counting loop, each with its own tokens. A first clause stands with its
semicolon, and an absent one is just a semicolon. -/
structure LoopParts (initial : Option (Stmt Unit)) (condition step : Option (Expr Unit)) (body : Stmt Unit)
    (is cs ss bs : List Token) : Prop where
  first : FirstClause (fun s => Alone wholeDeclaration (some s)) initial is
  test : Clause (Alone wholeExpression) condition cs
  last : Clause (Alone wholeExpression) step ss
  round : Alone wholeDeclaration (some body) bs
  statement : body.declared? = none
  inside : Inside (is ++ (cs ++ (ss ++ bs)))

section Forms

variable (is cs ss bs : List Token)

/-- The parts put together as a counting loop. -/
inductive ForForm : List Token → Prop
  | mk {k l s r : Token} (hk : k.kind = .kwFor) (hl : l.kind = .leftParen) (hs : s.kind = .semicolon)
      (hr : r.kind = .rightParen) : ForForm (k :: l :: (is ++ (cs ++ s :: (ss ++ r :: bs))))

/-- The condition, or one that always holds if there is none. -/
inductive TestForm : List Token → Prop
  | given (h : cs ≠ []) : TestForm cs
  | always {t : Token} (h : cs = []) (ht : t.kind = .kwTrue) : TestForm [t]

/-- The body, in a block with the last clause if there is one. -/
inductive RoundForm : List Token → Prop
  | body (h : ss = []) : RoundForm bs
  | block {l s r : Token} (h : ss ≠ []) (hl : l.kind = .leftBrace) (hs : s.kind = .semicolon)
      (hr : r.kind = .rightBrace) : RoundForm (l :: (bs ++ (ss ++ [s, r])))

/-- The loop itself. -/
inductive LoopForm : List Token → Prop
  | mk {k l r : Token} {ts us : List Token} (hk : k.kind = .kwWhile) (hl : l.kind = .leftParen)
      (hc : TestForm cs ts) (hr : r.kind = .rightParen) (hb : RoundForm ss bs us) :
      LoopForm (k :: l :: (ts ++ r :: us))

/-- The parts put together as a loop, in a block with the first clause if there is one. -/
inductive WhileForm : List Token → Prop
  | loop {s : Token} {ts : List Token} (h : is = [s]) (hs : s.kind = .semicolon) (hw : LoopForm cs ss bs ts) :
      WhileForm ts
  | block {l r : Token} {ts : List Token} (h : ∀ s, is = [s] → s.kind ≠ .semicolon) (hl : l.kind = .leftBrace)
      (hw : LoopForm cs ss bs ts) (hr : r.kind = .rightBrace) : WhileForm (l :: (is ++ (ts ++ [r])))

end Forms

/-! ## Both forms have the tokens of the tree -/

section Writes

variable {initial : Option (Stmt Unit)} {condition step : Option (Expr Unit)} {body : Stmt Unit}
  {is cs ss bs ts : List Token}

/-- An expression is read from its tokens, and from no others. -/
theorem Parse.alone_expression {e : Expr Unit} {ts : List Token} : Alone wholeExpression e ts ↔ e.Writes ts := by
  constructor
  · intro h
    obtain ⟨a, used, value, taken, writes⟩ := Parse.wholeExpression_writes ts (by rw [h])
    rw [h] at value taken
    cases value
    rwa [taken, List.append_nil]
  · intro h
    have reply := Parse.expressionWithin_restores ts e ts [] (Nat.le_refl _) h Parse.ahead_nil
    rwa [List.append_nil] at reply

theorem Parse.alone_declaration {s : Stmt Unit} {ts : List Token} :
    Alone wholeDeclaration (some s) ts ↔ s.Writes true ts := by
  constructor
  · intro h
    obtain ⟨a, used, value, taken, t, ha, writes⟩ := Parse.wholeDeclaration_writes ts (by rw [h])
    rw [h] at value taken
    cases value
    cases ha
    rwa [taken, List.append_nil]
  · intro h
    have ended : s.Writes (!Parse.atElse []) ts := h
    have reply := (Parse.innerWithin_regains ts).declaration (Nat.le_refl _) ended
    rwa [List.append_nil] at reply

theorem Clause.writes {e : Option (Expr Unit)} {ts : List Token} (h : Clause (Alone wholeExpression) e ts) :
    Clause Expr.Writes e ts := by
  cases h with
  | absent => exact .absent
  | present h => exact .present (Parse.alone_expression.mp h)

theorem FirstClause.writes (h : FirstClause (fun s => Alone wholeDeclaration (some s)) initial is) :
    FirstClause (Stmt.Writes true) initial is := by
  cases h with
  | none hs => exact .none hs
  | declare h => exact .declare (Parse.alone_declaration.mp h)
  | expression h => exact .expression (Parse.alone_declaration.mp h)

theorem ForForm.writes (h : ForForm is cs ss bs ts) (parts : LoopParts initial condition step body is cs ss bs) :
    (Stmt.counting initial condition step body).Writes true ts := by
  cases h with
  | mk hk hl hs hr =>
    exact .counting rfl hk hl parts.first.writes parts.test.writes hs parts.last.writes hr
      (Parse.alone_declaration.mp parts.round) parts.statement

theorem TestForm.writes (h : TestForm cs ts) (parts : LoopParts initial condition step body is cs ss bs) :
    (condition.getD (.literal (.bool true))).Writes ts := by
  have test := parts.test.writes
  cases h with
  | given h =>
    cases test with
    | absent => exact absurd rfl h
    | present e => exact e
  | always h ht =>
    cases test with
    | absent => exact .literal (by simp [Token.denotes?, ht])
    | present e =>
      obtain ⟨t, us, begun, -⟩ := e.starts
      rw [begun] at h
      cases h

/-- What a loop repeats, without its first clause. -/
def Stmt.round (step : Option (Expr Unit)) (body : Stmt Unit) : Stmt Unit :=
  match step with
  | some e => .block [body, .expression e]
  | none => body

theorem RoundForm.writes (h : RoundForm ss bs ts) (parts : LoopParts initial condition step body is cs ss bs) :
    (Stmt.round step body).Writes true ts ∧ (Stmt.round step body).declared? = none := by
  have last := parts.last.writes
  cases h with
  | body h =>
    cases last with
    | absent => exact ⟨Parse.alone_declaration.mp parts.round, parts.statement⟩
    | present e =>
      obtain ⟨t, us, begun, -⟩ := e.starts
      rw [begun] at h
      cases h
  | @block l s r h hl hs hr =>
    cases last with
    | absent => exact absurd rfl h
    | @present e _ he =>
      have clause : Row (Stmt.Writes true) [.expression e] (ss ++ [s] ++ []) := .cons (.expression he hs) .nil
      have row := Row.cons (Parse.alone_declaration.mp parts.round) clause
      have block : Stmt.Writes true (.block [body, .expression e]) (l :: (bs ++ (ss ++ [s, r]))) := by
        simpa using Stmt.Writes.block (o := true) hl row hr
      exact ⟨block, rfl⟩

theorem LoopForm.writes (h : LoopForm cs ss bs ts) (parts : LoopParts initial condition step body is cs ss bs) :
    (Stmt.counting none condition step body).Writes true ts := by
  cases h with
  | mk hk hl hc hr hb =>
    obtain ⟨round, single⟩ := hb.writes parts
    have loop := Stmt.Writes.loop hk hl (hc.writes parts) hr round single
    cases step with
    | none => exact loop
    | some e => exact loop

theorem WhileForm.writes (h : WhileForm is cs ss bs ts) (parts : LoopParts initial condition step body is cs ss bs) :
    (Stmt.counting initial condition step body).Writes true ts := by
  have first := parts.first.writes
  cases h with
  | @loop s us h hs hw =>
    -- no statement begins with a semicolon
    have nothing {i : Stmt Unit} (hi : i.Writes true is) : False := by
      obtain ⟨t, _, begun, ht⟩ := hi.starts
      rw [h] at begun
      obtain ⟨rfl, -⟩ := List.cons.inj begun
      rw [hs] at ht
      cases ht
    cases first with
    | none => exact hw.writes parts
    | declare i => exact (nothing i).elim
    | expression i => exact (nothing i).elim
  | @block l r us h hl hw hr =>
    have block {i : Stmt Unit} (hi : i.Writes true is) : (Stmt.counting (some i) condition step body).Writes true
        (l :: (is ++ (us ++ [r]))) := by
      have row := Row.cons hi (Row.cons (hw.writes parts) .nil)
      have whole : Stmt.Writes true (.block [i, .counting none condition step body]) (l :: (is ++ (us ++ [r]))) := by
        simpa using Stmt.Writes.block (o := true) hl row hr
      exact whole
    cases first with
    | none hs => exact absurd hs (h _ rfl)
    | declare i => exact block i
    | expression i => exact block i

/-! ## The tokens end where the parts do -/

theorem Inside.left {ts us : List Token} (h : Inside (ts ++ us)) : Inside ts :=
  fun t m => h t (List.mem_append_left us m)

theorem Inside.right {ts us : List Token} (h : Inside (ts ++ us)) : Inside us :=
  fun t m => h t (List.mem_append_right ts m)

theorem ForForm.inside (h : ForForm is cs ss bs ts) (hi : Inside (is ++ (cs ++ (ss ++ bs)))) : Inside ts := by
  cases h with
  | mk hk hl hs hr =>
    exact .cons hk (.cons hl (hi.left.append (hi.right.left.append (.cons hs
      (hi.right.right.left.append (.cons hr hi.right.right.right))))))

theorem LoopForm.inside (h : LoopForm cs ss bs ts) (hi : Inside (cs ++ (ss ++ bs))) : Inside ts := by
  cases h with
  | @mk k l r us vs hk hl hc hr hb =>
    have test : Inside us := by
      cases hc with
      | given => exact hi.left
      | always _ ht => exact .cons ht .nil
    have round : Inside vs := by
      cases hb with
      | body => exact hi.right.right
      | block _ hl hs hr =>
        exact .cons hl (hi.right.right.append (hi.right.left.append (.cons hs (.cons hr .nil))))
    exact .cons hk (.cons hl (test.append (.cons hr round)))

theorem WhileForm.inside (h : WhileForm is cs ss bs ts) (hi : Inside (is ++ (cs ++ (ss ++ bs)))) : Inside ts := by
  cases h with
  | loop _ _ hw => exact hw.inside hi.right
  | block _ hl hw hr => exact .cons hl (hi.left.append ((hw.inside hi.right).append (.cons hr .nil)))

end Writes

/-! ## Both forms are read alike -/

/-- What is written in a place for a statement is read there. -/
theorem parse_placed {front back : List Token} (hf : Inside front) (hb : Inside back)
    (place : StatementPlace front back) (follows : ∀ t ∈ back.head?, t.kind ≠ .kwElse) :
    ∃ make : Stmt Unit → List (Stmt Unit), ∀ (q : Stmt Unit) (ts : List Token) (last : Token),
      q.declared? = none → q.Writes true ts → Inside ts → last.kind = .eof →
        parse (front ++ (ts ++ back) ++ [last]) = ⟨make q, [], last.line⟩ := by
  have printed : Inside (.plain .kwPrint :: .plain .kwNil :: .plain .semicolon :: back) :=
    .cons rfl (.cons rfl (.cons rfl hb))
  have row := parse_quiet (hf.append printed) rfl place
  obtain ⟨e, us, s, rest, behind, he, hs, make, -, exchanged⟩ :=
    row.exchanges (fun s ts short h => (Stmt.Writes.exchanges _ short h).map id fun _ _ h => h.1)
      (Nat.le_refl _) front (.plain .kwPrint) _ rfl rfl
  -- the expression of the print statement ends in front of the first semicolon
  obtain rfl : rest = back := by
    have free := he.free
    rcases us with _ | ⟨t, _ | ⟨u, us⟩⟩
    · cases behind
      cases hs
    · cases behind
      rfl
    · cases behind
      have inner := free (.plain .semicolon) (by simp)
      cases inner
  exact ⟨make, fun q ts last hd hq hi hl => parse_row (exchanged q ts hd hq ⟨follows, fun _ => rfl⟩)
    (hf.append (hi.append hb)) hl⟩

/-- Both ways to put the parts together are read as one tree: by the readers of statements and of
declarations, whatever follows that is no `else`, and in a whole program wherever a statement
may stand. If the first clause declares a variable, it is one for all rounds. -/
theorem for_reads_as_while {initial : Option (Stmt Unit)} {condition step : Option (Expr Unit)} {body : Stmt Unit}
    {is cs ss bs fs ws : List Token} (parts : LoopParts initial condition step body is cs ss bs)
    (hf : ForForm is cs ss bs fs) (hw : WhileForm is cs ss bs ws) :
    let tree := Stmt.counting initial condition step body
    (∀ ts ∈ [fs, ws], ∀ bound rest : List Token, ts.length ≤ bound.length →
      (∀ t ∈ rest.head?, t.kind ≠ .kwElse) →
        (Parse.innerWithin bound).statement (ts ++ rest) = ⟨some tree, rest, []⟩ ∧
          (Parse.innerWithin bound).declaration (ts ++ rest) = ⟨some (some tree), rest, []⟩) ∧
    (∀ front back : List Token, Inside front → Inside back → StatementPlace front back →
      (∀ t ∈ back.head?, t.kind ≠ .kwElse) → ∃ make : Stmt Unit → List (Stmt Unit), ∀ last : Token,
        last.kind = .eof →
          parse (front ++ (fs ++ back) ++ [last]) = ⟨make tree, [], last.line⟩ ∧
          parse (front ++ (ws ++ back) ++ [last]) = ⟨make tree, [], last.line⟩ ∧
          parse (front ++ (.plain .kwPrint :: .plain .kwNil :: .plain .semicolon :: back) ++ [last]) =
            ⟨make (.print (.literal .nil)), [], last.line⟩) ∧
    ∀ x value, initial = some (.declare x value) → ∀ n, ∃ value' condition' body',
      (tree.number n).1 = .looped x value' condition' body' ∧ Stmt.OneVariable x value' condition' body' := by
  intro tree
  have single : tree.declared? = none := Stmt.counting_declared? ..
  have written : ∀ ts ∈ [fs, ws], tree.Writes true ts ∧ Inside ts :=
    List.forall_mem_cons.mpr ⟨⟨hf.writes parts, hf.inside parts.inside⟩,
      List.forall_mem_singleton.mpr ⟨hw.writes parts, hw.inside parts.inside⟩⟩
  refine ⟨fun ts m bound rest short follows => ?_, fun front back hfront hback place follows => ?_,
    fun x value first n => ?_⟩
  · have writes : tree.Writes (!Parse.atElse rest) ts := by
      rw [Parse.atElse_eq_false.mpr follows]
      exact (written ts m).1
    have regains := Parse.innerWithin_regains bound
    exact ⟨regains.statement short writes single, regains.declaration short writes⟩
  · obtain ⟨make, placed⟩ := parse_placed hfront hback place follows
    have printed : (Stmt.print (.literal .nil)).Writes true [.plain .kwPrint, .plain .kwNil, .plain .semicolon] :=
      .print rfl (.literal (t := .plain .kwNil) rfl) rfl
    obtain ⟨forWrites, forInside⟩ := written fs (by simp)
    obtain ⟨whileWrites, whileInside⟩ := written ws (by simp)
    exact ⟨make, fun last hl => ⟨placed _ _ _ single forWrites forInside hl,
      placed _ _ _ single whileWrites whileInside hl,
      placed _ _ _ rfl printed (.cons rfl (.cons rfl (.cons rfl .nil))) hl⟩⟩
  · subst first
    exact ⟨_, _, _, rfl, Stmt.oneVariable ..⟩

/-- In a branch of a function, with a body that could still be given an `else`. -/
theorem for_reads_as_while_branch :
    let name (x : String) : Token := ⟨.identifier, x, none, 1⟩
    let operand (x : String) : Expr Unit := .name ⟨(), name x⟩
    let is := [.plain .kwVar, name "i", .plain .equal, name "a", .plain .semicolon]
    let cs := [name "i"]
    let ss := [name "i", .plain .equal, name "b"]
    let bs := [.plain .kwIf, .plain .leftParen, name "i", .plain .rightParen, .plain .kwPrint, name "i",
      .plain .semicolon]
    let front := [.plain .kwFun, name "f", .plain .leftParen, .plain .rightParen, .plain .leftBrace, .plain .kwIf,
      .plain .leftParen, name "a", .plain .rightParen]
    let back : List Token := [.plain .rightBrace]
    let fs := .plain .kwFor :: .plain .leftParen ::
      (is ++ (cs ++ .plain .semicolon :: (ss ++ .plain .rightParen :: bs)))
    let ws := .plain .leftBrace :: (is ++ (.plain .kwWhile :: .plain .leftParen :: (cs ++ .plain .rightParen ::
      (.plain .leftBrace :: (bs ++ (ss ++ [.plain .semicolon, .plain .rightBrace])))) ++ [.plain .rightBrace]))
    LoopParts (some (.declare (name "i") (some (operand "a")))) (some (operand "i"))
        (some (.assign ⟨(), name "i"⟩ (operand "b")))
        (.branch (operand "i") (.print (operand "i")) none) is cs ss bs ∧
      ForForm is cs ss bs fs ∧ WhileForm is cs ss bs ws ∧ StatementPlace front back ∧
      parse (front ++ (fs ++ back) ++ [.eof 7]) = parse (front ++ (ws ++ back) ++ [.eof 7]) := by
  intro name operand is cs ss bs front back fs ws
  have print : Stmt.Writes true (.print (operand "i")) (.plain .kwPrint :: (cs ++ [.plain .semicolon])) :=
    .print rfl (.name rfl) rfl
  have branch : Stmt.Writes true (.branch (operand "i") (.print (operand "i")) none)
      (.plain .kwIf :: .plain .leftParen :: (cs ++ .plain .rightParen ::
        .plain .kwPrint :: (cs ++ [.plain .semicolon]))) :=
    .branch rfl rfl (.name rfl) rfl print rfl
  have parts : LoopParts (some (.declare (name "i") (some (operand "a")))) (some (operand "i"))
      (some (.assign ⟨(), name "i"⟩ (operand "b"))) (.branch (operand "i") (.print (operand "i")) none)
      is cs ss bs :=
    { first := .declare (Parse.alone_declaration.mpr (.define rfl rfl rfl (.name rfl) rfl))
      test := .present (Parse.alone_expression.mpr (.name rfl))
      last := .present (Parse.alone_expression.mpr (.assign rfl rfl (.name rfl)))
      round := Parse.alone_declaration.mpr branch
      statement := rfl
      inside := by unfold Inside; decide }
  have hf : ForForm is cs ss bs fs := .mk rfl rfl rfl rfl
  have round : RoundForm ss bs (.plain .leftBrace :: (bs ++ (ss ++ [.plain .semicolon, .plain .rightBrace]))) :=
    .block (List.cons_ne_nil _ _) rfl rfl rfl
  have loop : LoopForm cs ss bs (.plain .kwWhile :: .plain .leftParen :: (cs ++ .plain .rightParen ::
      (.plain .leftBrace :: (bs ++ (ss ++ [.plain .semicolon, .plain .rightBrace]))))) :=
    .mk rfl rfl (.given (List.cons_ne_nil _ _)) rfl round
  have hw : WhileForm is cs ss bs ws := .block (fun s e => by simp [is] at e) rfl loop rfl
  have place : StatementPlace front back := List.isEmpty_iff.mp (by decide +kernel)
  obtain ⟨make, reads⟩ := (for_reads_as_while parts hf hw).2.1 front back
    (by unfold Inside; decide) (by unfold Inside; decide) place
    (by decide)
  obtain ⟨forReads, whileReads, -⟩ := reads (.eof 7) rfl
  exact ⟨parts, hf, hw, place, forReads.trans whileReads.symm⟩

end Lox
