import Lox.Proofs.Recovery.Dropping

/-! # Reading without bounds

A reader asks itself only about fewer tokens than it has been given. So the equations that say
how readers are made of each other have one solution, whatever bounds are used to compute it. -/

namespace Lox.Parse

variable {α σ : Type}

/-! ## Equations with one solution -/

section Equations

/-- What a family of readers is made of asks the family only about fewer tokens. -/
structure Descends (body : (σ → Parse α) → σ → Parse α) : Prop where
  zero : ∀ f g s, Extending 0 (body f s) (body g s)
  succ : ∀ n f g, (∀ s, Extending n (f s) (g s)) → ∀ s, Extending (n + 1) (body f s) (body g s)

variable {body : (σ → Parse α) → σ → Parse α} {f g : σ → Parse α}

theorem Descends.extending (h : Descends body) (hf : f = body f) (hg : g = body g) :
    ∀ n s, Extending n (f s) (g s) := by
  intro n
  induction n with
  | zero =>
    rw [hf, hg]
    exact h.zero f g
  | succ n ih =>
    rw [hf, hg]
    exact h.succ n f g ih

theorem Descends.unique (h : Descends body) (hf : f = body f) (hg : g = body g) : g = f := by
  funext s us
  exact (h.extending hf hg us.length s us (Nat.le_refl _)).same_self

theorem bounded_steady {p q : List Token → Parse α} {n : Nat} {b : List Token}
    (same : ∀ (b b' : List Token) (m : Nat), m ≤ b.length → m ≤ b'.length → Extending m (p b) (q b'))
    (long : n ≤ b.length) : Extending n (p b) (bounded q) := by
  intro us short
  refine ⟨(same b us us.length (Nat.le_trans short long) (Nat.le_refl _) us (Nat.le_refl _)).shrinks,
    fun more apart => ?_⟩
  have within : us.length ≤ (us ++ more).length := by simp
  exact (same b (us ++ more) us.length (Nat.le_trans short long) within us (Nat.le_refl _)).same more apart

/-- Rounds that are counted by a bound solve the equation. -/
theorem Descends.bounded (h : Descends body) {p : σ → List Token → Parse α}
    (none : ∀ s, ∃ f, p s [] [] = body f s []) (round : ∀ s t b, p s (t :: b) = body (p · b) s)
    (same : ∀ s (b b' : List Token) (m : Nat), m ≤ b.length → m ≤ b'.length → Extending m (p s b) (p s b')) :
    (fun s => Parse.bounded (p s)) = body fun s => Parse.bounded (p s) := by
  funext s us
  cases us with
  | nil =>
    obtain ⟨f, hf⟩ := none s
    exact hf.trans (h.zero _ f s [] (Nat.le_refl _)).same_self
  | cons t us =>
    have inside : ∀ s, Extending us.length (p s us) (Parse.bounded (p s)) := fun s =>
      bounded_steady (same s) (Nat.le_refl _)
    have outside := h.succ us.length _ _ inside s (t :: us) (Nat.le_refl _)
    rw [outside.same_self, ← round s t us]
    rfl

/-- So they are the only solution. -/
theorem Descends.bounded_unique (h : Descends body) {p : σ → List Token → Parse α}
    (none : ∀ s, ∃ f, p s [] [] = body f s []) (round : ∀ s t b, p s (t :: b) = body (p · b) s)
    (same : ∀ s (b b' : List Token) (m : Nat), m ≤ b.length → m ≤ b'.length → Extending m (p s b) (p s b')) :
    f = body f ↔ f = fun s => Parse.bounded (p s) := by
  have solution := h.bounded none round same
  refine ⟨fun hf => h.unique solution hf, ?_⟩
  rintro rfl
  exact solution

end Equations

/-! ## Expressions -/

theorem wholeExpression_unique {e : Parse (Expr Unit)} : e = assignment e ↔ e = wholeExpression := by
  have descends : Descends fun (e : Unit → Parse (Expr Unit)) u => assignment (e u) := by
    refine ⟨fun f g u => ?_, fun n f g h u => assignment_extending (h u)⟩
    exact extending_zero rfl rfl
  have one := descends.bounded_unique (p := fun _ => expressionWithin) (f := fun _ => e)
    (fun _ => ⟨fun _ => reject .noExpression, rfl⟩) (fun _ _ _ => rfl)
    (fun _ b b' m long long' => expressionWithin_extending b b' m (by omega) (by omega))
  constructor
  · exact fun h => congrFun (one.mp (funext fun _ => h)) ()
  · exact fun h => congrFun (one.mpr (funext fun _ => h)) ()

/-- One round of operators of one level. -/
def joinedRound (operator : Kind → Bool) (join : Expr Unit → Token → Expr Unit → Expr Unit)
    (operand : Parse (Expr Unit)) (next : Expr Unit → Parse (Expr Unit)) (left : Expr Unit) : Parse (Expr Unit) := do
  match ← take? operator with
  | some op =>
    let right ← operand
    next (join left op right)
  | none => pure left

/-- One round of calls and property accesses behind an operand. -/
def suffixRound (expression : Parse (Expr Unit)) (next : Expr Unit → Parse (Expr Unit)) (operand : Expr Unit) :
    Parse (Expr Unit) := do
  match ← take? (· == .leftParen) with
  | some _ =>
    let arguments ← parenthesised .arguments expression
    let paren ← expect .rightParen .openArgumentList
    next (.call operand paren arguments)
  | none =>
    match ← take? (· == .dot) with
    | some _ =>
      let property ← expect .identifier .noPropertyName
      next (.get operand property)
    | none => pure operand

/-- One element of a list, and the others behind a comma. -/
def commaRound (what : Listed) (item : Parse α) (next : Nat → Parse (List α)) (seen : Nat) : Parse (List α) := do
  checkRoom what seen
  let x ← item
  match ← take? (· == .comma) with
  | some _ =>
    let xs ← next (seen + 1)
    pure (x :: xs)
  | none => pure [x]

/-- One item, and the others, unless the list is at its end. -/
def listRound (kind : Kind) (item : Parse α) (next : Parse (List α)) : Parse (List α) := do
  if ← endsAt kind then pure []
  else
    let x ← item
    let xs ← next
    pure (x :: xs)

section Rounds

theorem joined_unique {operator : Kind → Bool} {join : Expr Unit → Token → Expr Unit → Expr Unit}
    {operand : Parse (Expr Unit)} (ho : ∀ n, Extending n operand operand) {f : Expr Unit → Parse (Expr Unit)} :
    f = joinedRound operator join operand f ↔ f = fun left => bounded (joined operator join operand left) := by
  have descends : Descends (joinedRound operator join operand) := by
    refine ⟨fun f g left => extending_zero rfl rfl, fun n f g h left => ?_⟩
    exact take?_extending (fun _ => (ho n).bind fun right => h _) (pure_extending left)
  exact descends.bounded_unique (fun left => ⟨pure, rfl⟩) (fun _ _ _ => rfl) fun left b b' m long long' =>
    joined_extending operator (ho m) b b' m (Nat.le_refl _) long long' left

theorem suffixes_unique {expression : Parse (Expr Unit)} (he : ∀ n, Extending n expression expression)
    {f : Expr Unit → Parse (Expr Unit)} :
    f = suffixRound expression f ↔ f = fun operand => bounded (suffixes expression operand) := by
  have descends : Descends (suffixRound expression) := by
    refine ⟨fun f g operand => extending_zero rfl rfl, fun n f g h operand => ?_⟩
    refine take?_extending (fun _ => ?call) (take?_extending (fun _ => ?get) (pure_extending operand))
    case call =>
      exact (parenthesised_extending .arguments (he n)).bind fun _ => (expect_extending _ _).bind fun _ => h _
    case get => exact (expect_extending _ _).bind fun _ => h _
  exact descends.bounded_unique (fun operand => ⟨pure, rfl⟩) (fun _ _ _ => rfl) fun operand b b' m long long' =>
    suffixes_extending (he m) b b' m (Nat.le_succ m) long long' operand

theorem commaList_unique {what : Listed} {item : Parse α} (hi : ∀ n, Extending n item item)
    {f : Nat → Parse (List α)} :
    f = commaRound what item f ↔ f = fun seen => bounded (commaList what item seen) := by
  have descends : Descends (commaRound what item) := by
    refine ⟨fun f g seen => ?_, fun n f g h seen => ?_⟩
    · exact (checkRoom_extending what seen).bind fun _ => (hi 0).bind fun x => extending_zero rfl rfl
    · exact (checkRoom_extending what seen).bind fun _ => (hi (n + 1)).bind fun x =>
        take?_extending (fun _ => (h (seen + 1)).map) (pure_extending [x])
  have last (seen : Nat) : Extending 0 (commaRound what item (fun _ => pure []) seen) (commaList what item seen []) :=
    (checkRoom_extending what seen).bind fun _ => (hi 0).bind fun x => extending_zero rfl rfl
  exact descends.bounded_unique (fun seen => ⟨fun _ => pure [], (last seen [] (Nat.le_refl _)).same_self⟩)
    (fun _ _ _ => rfl) fun seen b b' m long long' =>
      commaList_extending what (hi m) b b' m (Nat.le_refl _) long long' seen

theorem listRound_end {kind : Kind} {us : List Token} (h : ∀ t ∈ us.head?, t.kind = kind) (item : Parse α)
    (next : Parse (List α)) : listRound kind item next us = ⟨some [], us, []⟩ := by
  have here : endsAt kind us = ⟨some true, us, []⟩ := by
    cases us with
    | nil => rfl
    | cons t us => simp [endsAt, h t rfl]
  rw [listRound, bind_reply here]
  rfl

theorem listRound_goes {kind : Kind} {t : Token} (h : t.kind ≠ kind) (item : Parse α) (next : Parse (List α))
    (us : List Token) : listRound kind item next (t :: us) =
      (item >>= fun x => next >>= fun xs => pure (x :: xs)) (t :: us) := by
  have elsewhere : endsAt kind (t :: us) = ⟨some false, t :: us, []⟩ := by simp [endsAt, h]
  rw [listRound, bind_reply elsewhere]
  rfl

/-- An item costs a token, so the others are asked for behind it. -/
theorem listRound_descends (kind : Kind) {item : Parse α} (hi : ∀ n, Advancing n item item) :
    Descends fun (f : Unit → Parse (List α)) u => listRound kind item (f u) := by
  refine ⟨fun f g u => extending_zero rfl rfl, fun n f g h u us short => ?_⟩
  by_cases ended : ∀ t ∈ us.head?, t.kind = kind
  · refine ⟨Nat.le_of_eq (by rw [listRound_end ended]), fun more apart => ?_⟩
    rw [listRound_end ended] at apart ⊢
    rw [listRound_end (by rwa [head?_before apart])]
    rfl
  · cases us with
    | nil => exact absurd nofun ended
    | cons t us =>
      have other : t.kind ≠ kind := fun e => ended fun u m => Option.some.inj m ▸ e
      obtain ⟨extends_, spends⟩ := hi (n + 1) (t :: us) (List.cons_ne_nil t us) short
      have item := extends_.bind (f := fun x => f u >>= fun xs => pure (x :: xs))
        (g := fun x => g u >>= fun xs => pure (x :: xs)) fun x some => by
          have fewer := spends (by rw [some]; rfl)
          exact (h u).bind (fun xs => pure_extending _) _ (by omega)
      refine ⟨by rw [listRound_goes other]; exact item.shrinks, fun more apart => ?_⟩
      rw [listRound_goes other] at apart ⊢
      rw [List.cons_append, listRound_goes other]
      exact item.same more apart

theorem untilKind_unique (kind : Kind) {item : Parse α} (hi : ∀ n, Advancing n item item) {f : Parse (List α)} :
    f = listRound kind item f ↔ f = bounded (untilKind kind item) := by
  have one := (listRound_descends kind hi).bounded_unique (p := fun _ => untilKind kind item) (f := fun _ => f)
    (fun _ => ⟨fun _ => pure [], rfl⟩) (fun _ _ _ => rfl)
    (fun _ b b' m long long' => untilKind_extending kind (hi m) b b' m (Nat.le_refl _) long long')
  exact ⟨fun h => congrFun (one.mp (funext fun _ => h)) (), fun h => congrFun (one.mpr (funext fun _ => h)) ()⟩

end Rounds

/-! ## Statements -/

def wholeStatement : Parse (Stmt Unit) := bounded fun bound => (innerWithin bound).statement

/-- The readers for what stands inside a statement, with no bound on the depth. -/
def whole : Inner := ⟨wholeStatement, wholeDeclaration⟩

theorem Inner.eq_of_replies {a b : Inner}
    (h : ∀ us, a.statement us = b.statement us ∧ a.declaration us = b.declaration us) : a = b := by
  obtain ⟨statement, declaration⟩ := a
  obtain rfl : statement = b.statement := funext fun us => (h us).1
  obtain rfl : declaration = b.declaration := funext fun us => (h us).2
  rfl

theorem innerWithin_whole {b : List Token} {n : Nat} (long : n ≤ b.length) : (innerWithin b).Extending n whole := by
  have same (b b' : List Token) (m : Nat) (long : m ≤ b.length) (long' : m ≤ b'.length) :=
    innerWithin_extending b b' m (Nat.le_succ_of_le long) (Nat.le_succ_of_le long')
  refine ⟨bounded_steady (fun b b' m long long' => (same b b' m long long').statement) long,
    fun us filled short => ?_⟩
  have within := (same b us us.length (Nat.le_trans short long) (Nat.le_refl _)).declaration us filled (Nat.le_refl _)
  refine ⟨⟨within.1.shrinks, fun more apart => ?_⟩, within.2⟩
  have longer := same b (us ++ more) us.length (Nat.le_trans short long) (by simp)
  exact (longer.declaration us filled (Nat.le_refl _)).1.same more apart

theorem statement_nil (inner : Inner) : statement inner [] = expressionStatement [] := rfl

/-- At the end nothing is left that could stand inside a declaration. -/
theorem declaration_nil (inner inner' : Inner) : declaration inner [] = declaration inner' [] := by
  have start (i : Inner) : choose (declarationFrom? i) (statement i) [] = expressionStatement [] := rfl
  rw [declaration, declaration, recover, recover, start inner, start inner']

theorem whole_eq : whole = ⟨statement whole, declaration whole⟩ := by
  refine Inner.eq_of_replies fun us => ?_
  cases us with
  | nil =>
    let innermost : Inner := ⟨reject .noExpression, reject .noExpression⟩
    exact ⟨(statement_nil innermost).trans (statement_nil whole).symm, declaration_nil innermost whole⟩
  | cons t us =>
    have inside : (innerWithin us).Extending us.length whole := innerWithin_whole (Nat.le_refl _)
    have statement := (statement_extending inside (t :: us) (Nat.le_refl _)).same_self
    have declaration := (declaration_advancing inside (t :: us) (List.cons_ne_nil t us) (Nat.le_refl _)).1.same_self
    exact ⟨statement.symm, declaration.symm⟩

theorem whole_extending {inner : Inner} (h : inner = ⟨statement inner, declaration inner⟩) (n : Nat) :
    Inner.Extending n whole inner := by
  induction n with
  | zero =>
    rw [whole_eq, h]
    have same := (statement_nil inner).trans (statement_nil whole).symm
    exact ⟨extending_zero (congrArg Reply.rest (statement_nil whole)) same, advancing_zero _ _⟩
  | succ n ih =>
    rw [whole_eq, h]
    exact ⟨statement_extending ih, declaration_advancing ih⟩

/-- A statement and a declaration are made of statements and declarations in one way only. -/
theorem whole_unique {inner : Inner} : inner = ⟨statement inner, declaration inner⟩ ↔ inner = whole := by
  refine ⟨fun h => ?_, ?_⟩
  · have descends := whole_extending h
    refine Inner.eq_of_replies fun us => ⟨((descends us.length).statement us (Nat.le_refl _)).same_self, ?_⟩
    cases us with
    | nil =>
      rw [h, whole_eq]
      exact declaration_nil inner whole
    | cons t us => exact ((descends _).declaration (t :: us) (List.cons_ne_nil t us) (Nat.le_refl _)).1.same_self
  · rintro rfl
    exact whole_eq

/-- The equations that the readers meet have no other solution, so no bound is ever reached. -/
structure Unbounded : Prop where
  expression (e : Parse (Expr Unit)) : e = assignment e ↔ e = wholeExpression
  operators (operand : Parse (Expr Unit))
    (h : operand ∈ [unary, factor, term, comparison, equality, conjunction].map (· wholeExpression))
    (operator : Kind → Bool) (join : Expr Unit → Token → Expr Unit → Expr Unit) (f : Expr Unit → Parse (Expr Unit)) :
    f = joinedRound operator join operand f ↔ f = fun left => bounded (joined operator join operand left)
  suffixes (f : Expr Unit → Parse (Expr Unit)) : f = suffixRound wholeExpression f ↔
    f = fun operand => bounded (Parse.suffixes wholeExpression operand)
  arguments (what : Listed) (f : Nat → Parse (List (Expr Unit))) : f = commaRound what wholeExpression f ↔
    f = fun seen => bounded (commaList what wholeExpression seen)
  parameters (what : Listed) (problem : SyntaxProblem) (f : Nat → Parse (List Token)) :
    f = commaRound what (expect .identifier problem) f ↔
      f = fun seen => bounded (commaList what (expect .identifier problem) seen)
  inner (i : Inner) : i = ⟨statement i, declaration i⟩ ↔ i = whole
  declarations (kind : Kind) (f : Parse (List (Option (Stmt Unit)))) : f = listRound kind wholeDeclaration f ↔
    f = bounded (untilKind kind wholeDeclaration)
  methods (f : Parse (List (Routine (Stmt Unit)))) : f = listRound .rightBrace (routine whole .method) f ↔
    f = bounded (untilKind .rightBrace (routine whole .method))

theorem unbounded : Unbounded := by
  have expression (n : Nat) : Extending n wholeExpression wholeExpression := wholeExpression_extending
  have levels (operand : Parse (Expr Unit))
      (h : operand ∈ [unary, factor, term, comparison, equality, conjunction].map (· wholeExpression)) (n : Nat) :
      Extending n operand operand := by
    have unary : Extending n (unary wholeExpression) (unary wholeExpression) :=
      (unary_extending (expression n)).mono (Nat.le_succ n)
    have factor : Extending n (factor wholeExpression) (factor wholeExpression) := level_extending _ unary
    have term : Extending n (term wholeExpression) (term wholeExpression) := level_extending _ factor
    have comparison : Extending n (comparison wholeExpression) (comparison wholeExpression) := level_extending _ term
    have equality : Extending n (equality wholeExpression) (equality wholeExpression) := level_extending _ comparison
    have conjunction : Extending n (conjunction wholeExpression) (conjunction wholeExpression) :=
      level_extending _ equality
    simp only [List.map_cons, List.map_nil, List.mem_cons, List.not_mem_nil, or_false] at h
    rcases h with rfl | rfl | rfl | rfl | rfl | rfl <;> assumption
  have methods (n : Nat) : Advancing n (routine whole .method) (routine whole .method) := fun us _ short =>
    ⟨routine_extending (whole_extending whole_eq n) .method us short,
      routine_spends (whole_extending whole_eq n) .method short⟩
  exact ⟨fun _ => wholeExpression_unique, fun operand h _ _ _ => joined_unique (levels operand h),
    fun _ => suffixes_unique expression, fun _ _ => commaList_unique expression,
    fun _ problem _ => commaList_unique fun _ => expect_extending _ problem, fun _ => whole_unique,
    fun _ _ => untilKind_unique _ wholeDeclaration_advancing, fun _ => untilKind_unique _ methods⟩

end Lox.Parse
