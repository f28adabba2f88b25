import Lox.Proofs.ParsedTrees
import Lox.Proofs.Recovery.Recursion

/-! # Reading goes on to the end

Every reader leaves a suffix of its tokens, and one that gives up has reported a problem. A
declaration takes at least a token, whether it is read or left out, so a list of declarations
comes to its end. -/

namespace Lox

namespace Parse

variable {α β : Type}

/-! ## Readers -/

/-- The readers that statements, declarations and expressions are read with. -/
inductive IsReader : {α : Type} → Parse α → Prop
  | program : IsReader program
  | declaration : IsReader wholeDeclaration
  | classDeclaration : IsReader (classDeclaration whole)
  | routine (kind : RoutineKind) : IsReader (routine whole kind)
  | variableDeclaration : IsReader variableDeclaration
  | statement : IsReader wholeStatement
  | forStatement : IsReader (forStatement whole)
  | ifStatement : IsReader (ifStatement whole)
  | printStatement : IsReader printStatement
  | returnStatement {keyword : Token} (h : keyword.kind = .kwReturn) : IsReader (returnStatement keyword)
  | whileStatement : IsReader (whileStatement whole)
  | block : IsReader (block whole)
  | expressionStatement : IsReader expressionStatement
  | expression : IsReader wholeExpression
  | disjunction : IsReader (disjunction wholeExpression)
  | conjunction : IsReader (conjunction wholeExpression)
  | equality : IsReader (equality wholeExpression)
  | comparison : IsReader (comparison wholeExpression)
  | term : IsReader (term wholeExpression)
  | factor : IsReader (factor wholeExpression)
  | unary : IsReader (unary wholeExpression)
  | call : IsReader (call wholeExpression)
  | primary : IsReader (primary wholeExpression)

/-- A reader leaves a suffix of its tokens, and does not give up without a problem. -/
def Keeps (p : Parse α) : Prop :=
  ∀ us, (p us).rest <:+ us ∧ ((p us).value = none → (p us).errors ≠ [])

section Keeping

variable {p : Parse α}

theorem Keeps.of_takes {P : α → Prop} {Q : α → List Token → Prop} (hy : Yields (fun _ => True) P p)
    (ht : Takes Q p) : Keeps p := by
  refine fun us => ⟨(hy us fun _ _ => trivial).1, fun lost quiet => ?_⟩
  obtain ⟨a, -, read, -⟩ := ht us quiet
  rw [lost] at read
  cases read

theorem Keeps.pure (a : α) : Keeps (Pure.pure a : Parse α) :=
  fun us => ⟨List.suffix_refl us, fun lost => by cases lost⟩

theorem Keeps.bind {f : α → Parse β} (hp : Keeps p) (hf : ∀ a, Keeps (f a)) : Keeps (p >>= f) := by
  intro us
  change (Parse.bind p f us).rest <:+ us ∧ ((Parse.bind p f us).value = none → (Parse.bind p f us).errors ≠ [])
  obtain ⟨suffix, tells⟩ := hp us
  unfold Parse.bind
  cases hr : p us with
  | mk value rest errors =>
    rw [hr] at suffix tells
    cases value with
    | none => exact ⟨suffix, fun _ => tells rfl⟩
    | some a =>
      obtain ⟨suffix', tells'⟩ := hf a rest
      exact ⟨suffix'.trans suffix, fun lost => List.append_ne_nil_of_right_ne_nil errors (tells' lost)⟩

theorem level_keeps {operand : Parse (Expr Unit)} (ho : Keeps operand) (operator : Kind → Bool)
    (join : Expr Unit → Token → Expr Unit → Expr Unit) : Keeps (level operator join operand) := by
  have rounds (bound : List Token) : ∀ left, Keeps (joined operator join operand left bound) := by
    induction bound with
    | nil => exact fun left => .pure left
    | cons _ bound ih =>
      intro left
      refine (Keeps.of_takes (take?_yields _) (take?_takes _)).bind fun o => ?_
      cases o with
      | some op => exact ho.bind fun right => ih _
      | none => exact .pure left
  exact ho.bind fun left us => rounds us left us

end Keeping

theorem whole_yields {T : Token → Prop} : whole.Yields T where
  statement := Yields.bounded (p := fun bound => (innerWithin bound).statement) fun bound =>
    (innerWithin_yields bound).statement
  declaration := Yields.bounded (p := fun bound => (innerWithin bound).declaration) fun bound =>
    (innerWithin_yields bound).declaration

theorem whole_obeys : whole.Obeys where
  statement := Takes.bounded (p := fun bound => (innerWithin bound).statement) fun bound =>
    (innerWithin_obeys bound).statement
  declaration := wholeDeclaration_obeys

theorem IsReader.keeps {p : Parse α} (h : IsReader p) : Keeps p := by
  have expression : Yields (fun _ => True) (Expr.WellFormed fun _ => True) wholeExpression := wholeExpression_yields
  have unary : Keeps (Parse.unary wholeExpression) := .of_takes (unary_yields expression) (unary_writes wholeExpression_writes)
  have factor : Keeps (Parse.factor wholeExpression) := level_keeps unary _ _
  have term : Keeps (Parse.term wholeExpression) := level_keeps factor _ _
  have comparison : Keeps (Parse.comparison wholeExpression) := level_keeps term _ _
  have equality : Keeps (Parse.equality wholeExpression) := level_keeps comparison _ _
  have conjunction : Keeps (Parse.conjunction wholeExpression) := level_keeps equality _ _
  cases h with
  | program =>
    exact .of_takes program_yields (Takes.bounded fun bound => untilKind_takes .eof wholeDeclaration_writes bound)
  | declaration => exact .of_takes whole_yields.declaration wholeDeclaration_obeys
  | classDeclaration => exact .of_takes (classDeclaration_yields whole_yields) (classDeclaration_obeys whole_obeys)
  | routine kind => exact .of_takes (routine_yields whole_yields kind) (routine_obeys whole_obeys kind)
  | variableDeclaration => exact .of_takes variableDeclaration_yields variableDeclaration_obeys
  | statement => exact .of_takes whole_yields.statement whole_obeys.statement
  | forStatement => exact .of_takes (forStatement_yields whole_yields) (forStatement_obeys whole_obeys)
  | ifStatement => exact .of_takes (ifStatement_yields whole_yields) (ifStatement_obeys whole_obeys)
  | printStatement => exact .of_takes printStatement_yields printStatement_obeys
  | returnStatement keyword => exact .of_takes (returnStatement_yields keyword) (returnStatement_obeys _)
  | whileStatement => exact .of_takes (whileStatement_yields whole_yields) (whileStatement_obeys whole_obeys)
  | block => exact .of_takes (block_yields whole_yields) (block_obeys whole_obeys)
  | expressionStatement => exact .of_takes expressionStatement_yields expressionStatement_obeys
  | expression => exact .of_takes expression wholeExpression_obeys
  | disjunction => exact level_keeps conjunction _ _
  | conjunction => exact conjunction
  | equality => exact equality
  | comparison => exact comparison
  | term => exact term
  | factor => exact factor
  | unary => exact unary
  | call => exact .of_takes (call_yields expression) (call_writes wholeExpression_writes)
  | primary =>
    exact .of_takes (choose_yields (fun _ _ ht hp => operandFrom?_yields expression ht hp) (reject_yields _ _))
      (choose_takes (fun _ _ hp => operandFrom?_writes wholeExpression_writes hp) (reject_takes _))

/-! ## Declarations -/

/-- A declaration takes a token, and is not left out without a problem. -/
theorem wholeDeclaration_progress {us : List Token} (some : us ≠ []) : ∃ o used rest errors,
    wholeDeclaration us = ⟨.some o, rest, errors⟩ ∧ us = used ++ rest ∧ used ≠ [] ∧ (o = none → errors ≠ []) := by
  obtain ⟨o, read⟩ := Option.isSome_iff_exists.mp (wholeDeclaration_isSome us)
  have fewer := (wholeDeclaration_advancing _ us some (Nat.le_refl _)).2 (by rw [read]; rfl)
  obtain ⟨used, parts⟩ := (IsReader.declaration.keeps us).1
  refine ⟨o, used, (wholeDeclaration us).rest, (wholeDeclaration us).errors, by rw [← read], parts.symm, ?_, ?_⟩
  · rintro rfl
    rw [List.nil_append] at parts
    rw [parts] at fewer
    exact Nat.lt_irrefl _ fewer
  · rintro rfl quiet
    obtain ⟨o, used, read', -, s, rfl, -⟩ := wholeDeclaration_writes us quiet
    rw [read] at read'
    cases read'

/-- Declarations one after the other, up to a token of the kind or to the end. -/
inductive Declarations (kind : Kind) : List Token → List (Option (Stmt Unit)) → List SyntaxError → List Token → Prop
  | done {us : List Token} (h : ∀ t ∈ us.head?, t.kind = kind) : Declarations kind us [] [] us
  | next {t : Token} {us middle rest : List Token} {o : Option (Stmt Unit)} {os : List (Option (Stmt Unit))}
      {errors more : List SyntaxError} (other : t.kind ≠ kind)
      (first : wholeDeclaration (t :: us) = ⟨some o, middle, errors⟩) (others : Declarations kind middle os more rest) :
      Declarations kind (t :: us) (o :: os) (errors ++ more) rest

/-- Every list of declarations comes to its end. -/
theorem declarations_end (kind : Kind) (us : List Token) : ∃ os errors rest,
    bounded (untilKind kind wholeDeclaration) us = ⟨some os, rest, errors⟩ ∧ Declarations kind us os errors rest := by
  have solution := (untilKind_unique kind wholeDeclaration_advancing).mpr rfl
  generalize bounded (untilKind kind wholeDeclaration) = list at solution
  induction hn : us.length using Nat.strongRecOn generalizing us with
  | ind n ih =>
    by_cases ended : ∀ t ∈ us.head?, t.kind = kind
    · rw [solution, listRound_end ended]
      exact ⟨[], [], us, rfl, .done ended⟩
    · cases us with
      | nil => exact absurd nofun ended
      | cons t us =>
        have other : t.kind ≠ kind := fun e => ended fun u m => Option.some.inj m ▸ e
        obtain ⟨o, used, middle, errors, first, parts, filled, -⟩ := wholeDeclaration_progress (List.cons_ne_nil t us)
        have fewer : middle.length < n := by
          have := congrArg List.length parts
          have := List.length_pos_iff.mpr filled
          simp only [List.length_append] at *
          omega
        obtain ⟨os, more, rest, others, row⟩ := ih middle.length fewer middle rfl
        refine ⟨o :: os, errors ++ more, rest, ?_, .next other first row⟩
        rw [solution, listRound_goes other, bind_reporting first]
        change (((fun os => o :: os) <$> list) middle).reporting errors = _
        rw [map_apply, others]
        rfl

/-- If no token is of the kind, the list comes to the end of the tokens. -/
theorem Declarations.rest_nil {kind : Kind} {us rest : List Token} {os : List (Option (Stmt Unit))}
    {errors : List SyntaxError} (h : Declarations kind us os errors rest) (inside : ∀ t ∈ us, t.kind ≠ kind) :
    rest = [] := by
  induction h with
  | @done us ended =>
    cases us with
    | nil => rfl
    | cons t us => exact absurd (ended t rfl) (inside t List.mem_cons_self)
  | @next t us middle rest o os errors more other first others ih =>
    obtain ⟨suffix, -⟩ := IsReader.declaration.keeps (t :: us)
    rw [first] at suffix
    exact ih fun u m => inside u (suffix.subset m)

/-! ## Looking back -/

/-- What a declaration is read with leaves a suffix, too. -/
theorem core_keeps : Keeps (core whole) := by
  intro us
  have unfolded : wholeStatement = statement whole := congrArg Inner.statement whole_eq
  have otherwise : Keeps (statement whole) := unfolded ▸ IsReader.statement.keeps
  cases us with
  | nil => exact otherwise []
  | cons t us =>
    have behind {p : Parse (Stmt Unit)} (hp : Keeps p) (chosen : declarationFrom? whole t = some p) :
        (core whole (t :: us)).rest <:+ t :: us ∧
          ((core whole (t :: us)).value = none → (core whole (t :: us)).errors ≠ []) := by
      rw [core, choose_reply chosen]
      exact ⟨(hp us).1.trans (List.suffix_cons t us), (hp us).2⟩
    cases chosen : declarationFrom? whole t with
    | none =>
      rw [core, choose_otherwise chosen]
      exact otherwise _
    | some p =>
      refine behind ?_ chosen
      unfold declarationFrom? at chosen
      split at chosen
      all_goals cases chosen
      case h_1 => exact IsReader.classDeclaration.keeps
      case h_2 => exact (IsReader.routine RoutineKind.function).keeps.bind fun r => .pure (Stmt.function r)
      case h_3 => exact IsReader.variableDeclaration.keeps

end Parse

/-- A place in a row of tokens: the tokens in front of it, the last one first, and those behind. -/
structure Cursor where
  passed : List Token
  left : List Token

namespace Cursor

def tokens (c : Cursor) : List Token := c.passed.reverse ++ c.left

/-- There is no token to look back at before one has been passed. -/
def previous? (c : Cursor) : Option Token := c.passed.head?

/-- Passes a token, if one is left, and looks back. -/
def advance? (c : Cursor) : Option Cursor :=
  let moved := match c.left with
    | [] => c
    | t :: left => ⟨t :: c.passed, left⟩
  moved.previous?.map fun _ => moved

/-- Passes a token whose kind passes the test, and looks back at it. -/
def take? (test : Kind → Bool) (c : Cursor) : Option (Option Token × Cursor) :=
  if c.left.head?.any (test ·.kind) then c.advance?.map fun moved => (moved.previous?, moved)
  else some (none, c)

/-- Passes tokens until a semicolon is in front or the next token starts a statement. -/
def search? (passed : List Token) : List Token → Option Cursor
  | [] => some ⟨passed, []⟩
  | t :: left => do
    let previous ← passed.head?
    if previous.kind == .semicolon || Parse.startsStatement t.kind then some ⟨passed, t :: left⟩
    else search? (t :: passed) left

/-- Goes on behind a problem. -/
def resume? (c : Cursor) : Option Cursor := do
  let moved ← c.advance?
  search? moved.passed moved.left

/-- The token that has been taken is the one to look back at. -/
theorem take?_eq (test : Kind → Bool) (c : Cursor) : ∃ o moved, c.take? test = some (o, moved) ∧
    Parse.take? test c.left = ⟨some o, moved.left, []⟩ ∧ moved.tokens = c.tokens := by
  obtain ⟨passed, left⟩ := c
  cases left with
  | nil => exact ⟨none, ⟨passed, []⟩, rfl, rfl, rfl⟩
  | cons t left =>
    cases ht : test t.kind with
    | true =>
      refine ⟨some t, ⟨t :: passed, left⟩, ?_, Parse.take?_hit ht, by simp [tokens]⟩
      simp [take?, ht, advance?, previous?]
    | false =>
      refine ⟨none, ⟨passed, t :: left⟩, by simp [take?, ht], Parse.take?_miss fun u m => ?_, rfl⟩
      exact Option.some.inj m ▸ ht

theorem search?_cons (t u : Token) (passed left : List Token) : search? (t :: passed) (u :: left) =
    if t.kind == .semicolon || Parse.startsStatement u.kind then some ⟨t :: passed, u :: left⟩
    else search? (u :: t :: passed) left := rfl

theorem search?_eq (t : Token) (passed left : List Token) : ∃ c, search? (t :: passed) left = some c ∧
    c.left = Parse.resumeAfter t left ∧ c.tokens = tokens ⟨t :: passed, left⟩ := by
  induction left generalizing t passed with
  | nil => exact ⟨⟨t :: passed, []⟩, rfl, rfl, rfl⟩
  | cons u left ih =>
    rw [search?_cons, Parse.resumeAfter]
    split
    · exact ⟨⟨t :: passed, u :: left⟩, rfl, rfl, rfl⟩
    · obtain ⟨c, searched, rest, same⟩ := ih u (t :: passed)
      refine ⟨c, searched, rest, ?_⟩
      rw [same]
      simp [tokens]

/-- Looking back fails only where there is no token at all. -/
theorem resume?_eq {c : Cursor} (some : c.tokens ≠ []) : ∃ moved, c.resume? = .some moved ∧
    moved.left = Parse.resume c.left ∧ moved.tokens = c.tokens := by
  obtain ⟨passed, left⟩ := c
  cases left with
  | nil =>
    cases passed with
    | nil => exact absurd rfl some
    | cons t passed => exact ⟨⟨t :: passed, []⟩, rfl, rfl, rfl⟩
  | cons t left =>
    obtain ⟨moved, searched, rest, same⟩ := search?_eq t passed left
    refine ⟨moved, searched, rest, ?_⟩
    rw [same]
    simp [tokens]

end Cursor

theorem Parse.wholeDeclaration_eq : wholeDeclaration = recover (core whole) := congrArg Inner.declaration whole_eq

/-- A declaration that is given up can look back at a token, and reading goes on where the cursor stops. -/
theorem Parse.wholeDeclaration_resumes (passed : List Token) {us : List Token} (some : us ≠ [])
    (lost : (core whole us).value = none) : ∃ used moved, us = used ++ (core whole us).rest ∧
      Cursor.resume? ⟨used.reverse ++ passed, (core whole us).rest⟩ = .some moved ∧
      moved.left = (wholeDeclaration us).rest ∧ moved.tokens = passed.reverse ++ us := by
  obtain ⟨used, parts⟩ := (core_keeps us).1
  have same : Cursor.tokens ⟨used.reverse ++ passed, (core whole us).rest⟩ = passed.reverse ++ us := by
    simp [Cursor.tokens, parts]
  obtain ⟨moved, resumed, rest, tokens⟩ := Cursor.resume?_eq (same ▸ List.append_ne_nil_of_right_ne_nil _ some)
  refine ⟨used, moved, parts.symm, resumed, ?_, tokens.trans same⟩
  rw [rest, wholeDeclaration_eq, recover]
  cases hr : core whole us with
  | mk value rest errors =>
    rw [hr] at lost
    cases lost
    rfl

/-- Tokens that end with their only end token are read to that token, one declaration after the
other. On the way every reader leaves a suffix of its tokens, every declaration takes at least
one token and is left out only behind a problem, and looking back does not fail. The readers
are the only ones that are made of each other in this way, so no bound is ever reached. -/
theorem parse_ends :
    (∀ (body : List Token) (last : Token), (∀ t ∈ body, t.kind ≠ .eof) → last.kind = .eof → ∃ os errors,
      Parse.Declarations .eof body os errors [] ∧ Parse.program body = ⟨some os, [], errors⟩ ∧
      parse (body ++ [last]) = ⟨os.filterMap id, errors, last.line⟩) ∧
    (∀ (α : Type) (p : Parse α), Parse.IsReader p → ∀ us, (p us).rest <:+ us ∧
      ((p us).value = none → (p us).errors ≠ [])) ∧
    (∀ us : List Token, us ≠ [] → ∃ o used rest errors, Parse.wholeDeclaration us = ⟨some o, rest, errors⟩ ∧
      us = used ++ rest ∧ used ≠ [] ∧ (o = none → errors ≠ [])) ∧
    (∀ us, ∃ os errors rest, Parse.bounded (Parse.untilKind .rightBrace Parse.wholeDeclaration) us =
      ⟨some os, rest, errors⟩ ∧ Parse.Declarations .rightBrace us os errors rest) ∧
    (∀ (test : Kind → Bool) (c : Cursor), ∃ o moved, c.take? test = some (o, moved) ∧
      Parse.take? test c.left = ⟨some o, moved.left, []⟩ ∧ moved.tokens = c.tokens) ∧
    (∀ passed us : List Token, us ≠ [] → (Parse.core Parse.whole us).value = none →
      ∃ used moved, us = used ++ (Parse.core Parse.whole us).rest ∧
        Cursor.resume? ⟨used.reverse ++ passed, (Parse.core Parse.whole us).rest⟩ = some moved ∧
        moved.left = (Parse.wholeDeclaration us).rest ∧ moved.tokens = passed.reverse ++ us) ∧
    Parse.Unbounded := by
  refine ⟨fun body last inside isEnd => ?_, fun _ _ h => h.keeps, fun _ some => Parse.wholeDeclaration_progress some,
    Parse.declarations_end .rightBrace, Cursor.take?_eq,
    fun passed _ some lost => Parse.wholeDeclaration_resumes passed some lost, Parse.unbounded⟩
  obtain ⟨os, errors, rest, read, row⟩ := Parse.declarations_end .eof body
  obtain rfl := row.rest_nil inside
  have whole : Parse.program body = ⟨some os, [], errors⟩ := read
  have found : (body ++ [last]).find? (·.kind == .eof) = some last := by
    rw [List.find?_append, List.find?_eq_none.mpr fun t m => by simpa using inside t m]
    simp [isEnd]
  refine ⟨os, errors, row, whole, ?_⟩
  rw [parse, takeWhile_body inside isEnd, whole, found]
  rfl

end Lox
