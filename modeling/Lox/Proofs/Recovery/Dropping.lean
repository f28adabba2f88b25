import Lox.Proofs.Printing.Inverse
import Lox.Proofs.Recovery.Malformed

/-! # Declarations that are left out of a list

Declarations that are read, and one that is dropped, stand in front of whatever follows. The
rest of the list is read as by itself. -/

namespace Lox

/-- A reply behind one that has reported some problems. -/
def Reply.reporting {α : Type} (r : Reply α) (errors : List SyntaxError) : Reply α :=
  { r with errors := errors ++ r.errors }

/-- A reply whose value has been changed. -/
def Reply.map {α β : Type} (f : α → β) (r : Reply α) : Reply β := ⟨r.value.map f, r.rest, r.errors⟩

namespace Parse

variable {α β : Type} {p q : Parse α} {a : α} {us vs rest : List Token} {errors : List SyntaxError}

theorem bind_reporting {f : α → Parse β} (h : p us = ⟨some a, rest, errors⟩) :
    (p >>= f) us = (f a rest).reporting errors := by
  change Parse.bind p f us = _
  simp only [Parse.bind, h]
  rfl

theorem map_apply (f : α → β) (p : Parse α) (us : List Token) : (f <$> p) us = (p us).map f := by
  change Parse.bind p _ us = _
  unfold Parse.bind
  cases p us with
  | mk value rest errors =>
    cases value with
    | none => rfl
    | some a =>
      change (⟨some (f a), rest, errors ++ []⟩ : Reply β) = ⟨some (f a), rest, errors⟩
      rw [List.append_nil]

/-- What is read behind the same problem goes on to report the same. -/
theorem recover_reporting (h : p us = (q vs).reporting errors) :
    recover p us = (recover q vs).reporting errors := by
  unfold recover
  rw [h]
  cases q vs with
  | mk value rest more => cases value <;> rfl

theorem Extends.same_self (h : Extends p q us) : q us = p us := by
  have same := h.same [] (.inl rfl)
  rwa [List.append_nil, Reply.before, List.append_nil] at same

/-! ## Lists -/

section Lists

variable {kind : Kind} {n : Nat} {item : Parse (Option (Stmt Unit))} {ss : List (Stmt Unit)}

theorem untilKind_isSome (hi : ∀ us, (item us).value.isSome) (bound : List Token) :
    ∀ us, (untilKind kind item bound us).value.isSome := by
  induction bound with
  | nil => exact fun _ => rfl
  | cons b bound ih =>
    intro us
    by_cases ended : ∀ t ∈ us.head?, t.kind = kind
    · rw [untilKind_end ended]
      rfl
    · cases us with
      | nil => exact absurd nofun ended
      | cons t us =>
        have other : t.kind ≠ kind := fun e => ended fun u m => Option.some.inj m ▸ e
        obtain ⟨o, ho⟩ := Option.isSome_iff_exists.mp (hi (t :: us))
        have read : item (t :: us) = ⟨some o, (item (t :: us)).rest, (item (t :: us)).errors⟩ := by rw [← ho]
        rw [untilKind_goes other, bind_reporting read]
        obtain ⟨os, hos⟩ := Option.isSome_iff_exists.mp (ih (item (t :: us)).rest)
        change ((fun xs => o :: xs) <$> untilKind kind item bound) _ |>.value.isSome
        rw [map_apply, Reply.map, hos]
        rfl

/-- One item, and then the others. -/
theorem untilKind_cons {t b : Token} (other : t.kind ≠ kind) {o : Option (Stmt Unit)}
    (h : item (t :: us) = ⟨some o, rest, errors⟩) (bound : List Token) :
    untilKind kind item (b :: bound) (t :: us) =
      ((untilKind kind item bound rest).map (o :: ·)).reporting errors := by
  rw [untilKind_goes other, bind_reporting h, ← map_apply]
  rfl

/-- Behind the tokens of statements the list goes on with what follows. -/
theorem untilKind_behind (kind : Kind) (hi : Restores n Declares (· ≠ .kwElse) item) (hk : kind.beginsDeclaration = false)
    (h : Row (Stmt.Writes true) ss us) : ∀ bound rest : List Token, us.length ≤ n →
      (us ++ rest).length ≤ bound.length → Ahead (· ≠ .kwElse) rest → ∃ bound', rest.length ≤ bound'.length ∧
        untilKind kind item bound (us ++ rest) = (untilKind kind item bound' rest).map (ss.map some ++ ·) := by
  induction h with
  | nil =>
    intro bound rest _ long _
    refine ⟨bound, long, ?_⟩
    rw [← map_apply, List.map_nil]
    simp [map_apply, Reply.map]
  | @cons s ss us vs hs row ih =>
    intro bound rest short long follows
    obtain ⟨t, us, rfl, ht⟩ := hs.starts
    have other : t.kind ≠ kind := fun e => by rw [e, hk] at ht; cases ht
    have ahead : Ahead (· ≠ .kwElse) (vs ++ rest) := by
      cases row with
      | nil => exact follows
      | cons h' =>
        obtain ⟨u, ws, rfl, hu⟩ := h'.starts
        exact ahead_cons.mpr fun e => by rw [e] at hu; cases hu
    simp only [List.length_append, List.length_cons] at short long
    cases bound with
    | nil => simp at long
    | cons b bound =>
      have first : item (t :: (us ++ (vs ++ rest))) = ⟨some (some s), vs ++ rest, []⟩ :=
        hi (some s) (t :: us) (vs ++ rest) (by simp only [List.length_cons]; omega) ⟨s, rfl, hs⟩ ahead
      obtain ⟨bound', long', others⟩ := ih bound rest (by omega)
        (by simp only [List.length_append, List.length_cons] at long ⊢; omega) follows
      refine ⟨bound', long', ?_⟩
      rw [List.append_assoc, List.cons_append, untilKind_cons other first, others]
      simp [Reply.map, Reply.reporting, Function.comp_def]

/-- Behind the tokens of statements, and tokens that are dropped, the list goes on where reading does. -/
theorem untilKind_drops (kind : Kind) (hi : Restores n Declares (· ≠ .kwElse) item)
    (hk : kind.beginsDeclaration = false) (row : Row (Stmt.Writes true) ss vs) (short : vs.length ≤ n)
    {next : List Token} (dropped : item (us ++ rest) = ⟨some none, next, errors⟩) (filled : us ≠ [])
    (apart : Ahead (fun k => k ≠ kind ∧ k ≠ .kwElse) us) (fewer : next.length ≤ rest.length) {bound : List Token}
    (long : (vs ++ (us ++ rest)).length ≤ bound.length) : ∃ bound', next.length ≤ bound'.length ∧
      untilKind kind item bound (vs ++ (us ++ rest)) =
        ((untilKind kind item bound' next).map (ss.map some ++ none :: ·)).reporting errors := by
  obtain ⟨t, us, rfl⟩ := List.exists_cons_of_ne_nil filled
  obtain ⟨other, noElse⟩ := ahead_cons.mp apart
  obtain ⟨bound', long', behind⟩ := untilKind_behind kind hi hk row bound _ short long
    (show Ahead (· ≠ .kwElse) (t :: us ++ rest) from ahead_cons.mpr noElse)
  cases bound' with
  | nil => simp at long'
  | cons b bound' =>
    refine ⟨bound', ?_, ?_⟩
    · simp only [List.cons_append, List.length_cons, List.length_append] at long'
      omega
    · rw [behind, List.cons_append, untilKind_cons other (show item (t :: (us ++ rest)) = _ from dropped)]
      simp [Reply.map, Reply.reporting, Function.comp_def]

end Lists

theorem Advancing.untilKind_same {d d' : Parse (Option (Stmt Unit))} {n : Nat} (h : Advancing n d d')
    (kind : Kind) {us bound bound' : List Token} (short : us.length ≤ n) (long : us.length ≤ bound.length)
    (long' : us.length ≤ bound'.length) : untilKind kind d' bound' us = untilKind kind d bound us :=
  (untilKind_extending kind h bound bound' us.length short long long' us (Nat.le_refl _)).same_self

theorem innerWithin_declaration {b : Token} (bound us : List Token) :
    (innerWithin (b :: bound)).declaration us = recover (core (innerWithin bound)) us := rfl

theorem innerWithin_restores (bound : List Token) :
    Restores bound.length Declares (· ≠ .kwElse) (innerWithin bound).declaration :=
  Declares.restored (innerWithin_regains bound).declaration

theorem wholeDeclaration_advancing (n : Nat) : Advancing n wholeDeclaration wholeDeclaration := by
  intro us filled _
  have within := innerWithin_extending us us us.length (by omega) (by omega)
  obtain ⟨⟨shrinks, -⟩, spends⟩ := within.declaration us filled (Nat.le_refl _)
  refine ⟨⟨shrinks, fun more apart => ?_⟩, spends⟩
  have longer := innerWithin_extending us (us ++ more) us.length (by omega) (by simp; omega)
  exact (longer.declaration us filled (Nat.le_refl _)).1.same more apart

theorem wholeDeclaration_restores (n : Nat) : Restores n Declares (· ≠ .kwElse) wholeDeclaration :=
  Declares.restored fun {s us rest} _ h => (innerWithin_regains (us ++ rest)).declaration (by simp) h

theorem wholeDeclaration_isSome (us : List Token) : (wholeDeclaration us).value.isSome := by
  have recovers (bound : List Token) : ∃ p : Parse (Stmt Unit), (innerWithin bound).declaration us = recover p us := by
    cases bound with
    | nil => exact ⟨_, rfl⟩
    | cons b bound => exact ⟨core (innerWithin bound), rfl⟩
  obtain ⟨p, same⟩ := recovers us
  change ((innerWithin us).declaration us).value.isSome
  rw [same]
  unfold recover
  split <;> rfl

theorem program_isSome (us : List Token) : (program us).value.isSome :=
  untilKind_isSome wholeDeclaration_isSome us us

/-- However long the bound is, a program is read in the same way. -/
theorem program_same {bound us : List Token} (long : us.length ≤ bound.length) :
    untilKind .eof wholeDeclaration bound us = program us :=
  (wholeDeclaration_advancing us.length).untilKind_same .eof (Nat.le_refl _) (Nat.le_refl _) long

theorem program_behind {ss : List (Stmt Unit)} (h : Row (Stmt.Writes true) ss us)
    (follows : Ahead (· ≠ .kwElse) rest) : program (us ++ rest) = (program rest).map (ss.map some ++ ·) := by
  obtain ⟨bound, long, same⟩ := untilKind_behind .eof (wholeDeclaration_restores us.length)
    rfl h (us ++ rest) rest (Nat.le_refl _) (Nat.le_refl _) follows
  rw [program_same long] at same
  exact same

theorem program_cons {t : Token} {o : Option (Stmt Unit)} (other : t.kind ≠ .eof)
    (h : wholeDeclaration (t :: us) = ⟨some o, rest, errors⟩) :
    program (t :: us) = ((program rest).map (o :: ·)).reporting errors := by
  have fewer := (wholeDeclaration_advancing _ (t :: us) (List.cons_ne_nil t us) (Nat.le_refl _)).2
  have long : rest.length ≤ us.length := by
    rw [Spends, h] at fewer
    exact Nat.le_of_lt_succ (fewer rfl)
  rw [← program_same long]
  exact untilKind_cons (b := t) other h us

/-! ## What is dropped -/

section Drops

variable {close : Token} {M : List Token}

/-- A statement that is not complete is given up in front of the closing token, with the same
problems wherever it stands. -/
structure Drops (close : Token) (us : List Token) (errors : List SyntaxError) : Prop where
  isClose : IsClose close.kind
  gives : ∃ left, Run close left ∧ ∀ bound more : List Token, us.length ≤ bound.length + 2 →
    core (innerWithin bound) (us ++ more) = ⟨none, left ++ more, errors⟩

theorem Drops.ne_nil (h : Drops close us errors) : us ≠ [] := by
  rintro rfl
  obtain ⟨left, run, gives⟩ := h.gives
  have nothing : core (innerWithin []) [] = reject .noExpression [] := rfl
  have left_nil := congrArg Reply.rest ((gives [] [] (Nat.zero_le 2)).symm.trans nothing)
  cases run with
  | last => cases left_nil
  | cons _ _ => cases left_nil

theorem Drops.declaration (h : Drops close us errors) (bound : List Token) (long : us.length ≤ bound.length)
    (more : List Token) :
    (innerWithin bound).declaration (us ++ more) = ⟨some none, resumeAfter close more, errors⟩ := by
  obtain ⟨left, run, gives⟩ := h.gives
  cases bound with
  | nil => exact absurd (List.eq_nil_of_length_eq_zero (Nat.le_zero.mp long)) h.ne_nil
  | cons b bound =>
    rw [innerWithin_declaration]
    simp only [recover, gives bound more (by simp only [List.length_cons] at long; omega),
      resume_run h.isClose run]

theorem Drops.program (h : Drops close us errors) (inside : Ahead (· ≠ .eof) us) (more : List Token) :
    program (us ++ more) = ((program (resumeAfter close more)).map (none :: ·)).reporting errors := by
  have dropped := h.declaration (us ++ more) (by simp) more
  obtain ⟨t, us, rfl⟩ := List.exists_cons_of_ne_nil h.ne_nil
  exact program_cons (ahead_cons.mp inside) dropped

theorem Drops.alone (h : Drops close us errors) (inside : Ahead (· ≠ .eof) us) :
    Parse.program us = ⟨some [none], [], errors⟩ := by
  have whole := h.program inside []
  rw [List.append_nil] at whole
  rw [whole]
  change (⟨some [none], [], errors ++ []⟩ : Reply _) = _
  rw [List.append_nil]

theorem Trial.ne_nil (trial : Trial close us) : us ≠ [] := by
  cases trial with
  | plain run => cases run <;> exact List.cons_ne_nil _ _
  | keyword => exact List.cons_ne_nil _ _

theorem Trial.drops (trial : Trial close us) (hc : IsClose close.kind)
    (nothing : close.kind = .semicolon → (core (innerWithin us.tail) us).value = none) :
    ∃ errors, Drops close us errors := by
  have stopped := (core_closes hc trial us.tail).resolve_right fun ⟨semicolon, read, _⟩ => by
    rw [nothing semicolon] at read
    cases read
  refine ⟨(core (innerWithin us.tail) us).errors, hc, (core (innerWithin us.tail) us).rest, stopped.2,
    fun bound more long => ?_⟩
  have extends_ := core_extending (innerWithin_extending us.tail bound (us.length - 1)
    (by rw [List.length_tail]; omega) (by omega)) us (by omega)
  have left : (core (innerWithin us.tail) us).rest ≠ [] := fun e => by
    have run := stopped.2
    rw [e] at run
    cases run
  rw [extends_.same more (.inr left), Reply.before]
  congr 1
  exact stopped.1

/-- If the tokens by themselves come to no statement, none is read from them. -/
theorem Trial.nothing (trial : Trial close us) (hc : IsClose close.kind) (inside : Ahead (· ≠ .eof) us)
    (none : ((program us).value.getD []).filterMap id = []) :
    (core (innerWithin us.tail) us).value = .none := by
  rcases core_closes hc trial us.tail with ⟨gone, -⟩ | ⟨-, read, ends⟩
  · exact gone
  · obtain ⟨s, hs⟩ := Option.isSome_iff_exists.mp read
    obtain ⟨t, us, rfl⟩ := List.exists_cons_of_ne_nil trial.ne_nil
    have whole : wholeDeclaration (t :: us) = ⟨some (some s), [], (core (innerWithin us) (t :: us)).errors⟩ := by
      change recover (core (innerWithin us)) (t :: us) = _
      rw [List.tail_cons] at hs ends
      unfold recover
      generalize core (innerWithin us) (t :: us) = r at hs ends ⊢
      obtain ⟨value, rest, errors⟩ := r
      obtain rfl : value = some s := hs
      obtain rfl : rest = [] := ends
      rfl
    rw [program_cons (ahead_cons.mp inside) whole] at none
    obtain ⟨os, hos⟩ := Option.isSome_iff_exists.mp (program_isSome [])
    simp [Reply.reporting, Reply.map, hos] at none

end Drops

/-! ## Bodies -/

/-- The tokens up to the brace of a body, and the statement that is made of it. -/
inductive Heading : (List (Stmt Unit) → Stmt Unit) → List Token → Prop
  | block {l : Token} (hl : l.kind = .leftBrace) : Heading .block [l]
  | function {k n l r b : Token} {ps us : List Token} (hk : k.kind = .kwFun) (hn : n.kind = .identifier)
      (hl : l.kind = .leftParen) (hp : Listing Token.Names ps us) (hr : r.kind = .rightParen)
      (hb : b.kind = .leftBrace) :
      Heading (fun body => .function ⟨n, ps, body⟩) (k :: n :: l :: (us ++ [r, b]))

section Bodies

variable {make : List (Stmt Unit) → Stmt Unit} {head : List Token}

theorem Heading.reads (h : Heading make head) (inner : Inner) (rest : List Token) :
    core inner (head ++ rest) = (Parse.block inner rest).map make := by
  cases h with
  | @block l hl =>
    have other : declarationFrom? inner l = none := by rw [declarationFrom?, hl]
    have begun : statementFrom? inner l = some (.block <$> Parse.block inner) := by rw [statementFrom?, hl]
    rw [List.singleton_append, core, choose_otherwise other, statement, choose_reply begun, map_apply]
  | @function k n l r b ps us hk hn hl hp hr hb =>
    have begun : declarationFrom? inner k = some (.function <$> routine inner .function) := by
      rw [declarationFrom?, hk]
    have names := parenthesised_restores .parameters (names_restored (n := us.length) .noParameterName) trivial
      trivial (S := (· == .identifier)) (fun t us h => h.2 ▸ .kind h.1 rfl) rfl hp (Nat.le_refl _) hr
    have signed : routine inner .function (n :: l :: (us ++ r :: b :: rest)) =
        (Parse.block inner rest).map fun body => ⟨n, ps, body⟩ := by
      rw [routine, bind_reply (expect_reply _ hn), bind_reply (expect_reply _ hl), bind_reply (names _),
        bind_reply (expect_reply _ hr), bind_reply (expect_reply _ hb), ← map_apply]
      rfl
    simp only [List.cons_append, List.append_assoc, List.nil_append]
    rw [core, choose_reply begun, map_apply, signed]
    simp [Reply.map, Function.comp_def]

theorem Heading.ne_nil (h : Heading make head) : head ≠ [] := by
  cases h <;> exact List.cons_ne_nil _ _

theorem Heading.inside (h : Heading make head) : Inside head := by
  have names {ps us : List Token} (h : Commas Token.Names ps us) : Inside us := by
    induction h with
    | last h => exact h.2 ▸ .cons h.1 .nil
    | cons h hc _ ih => exact h.2 ▸ .cons h.1 (.cons hc ih)
  cases h with
  | block hl => exact .cons hl .nil
  | @function k n l r b ps us hk hn hl hp hr hb =>
    have params : Inside us := by
      cases hp with
      | empty => exact .nil
      | full h _ => exact names h
    exact .cons hk (.cons hn (.cons hl (params.append (.cons hr (.cons hb .nil)))))

end Bodies

end Parse

end Lox
