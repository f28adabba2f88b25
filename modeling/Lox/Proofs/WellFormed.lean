import Lox.Parse.Expression

/-! # Well-formed trees and their marks

Which trees a program can be: names are identifiers, `this` and `super` stand where
their keywords stood, operators are of their level, and declarations stand only in a
program, a block or a body, never as a branch or as the body of a loop. A test on
tokens comes along for whatever else is known of the names and keywords. Numbering
keeps the form of a tree. -/

namespace Lox

variable {μ : Type} (T : Token → Prop)

/-- A token of the given kind that passes the test. -/
def Token.Is (k : Kind) (t : Token) : Prop := t.kind = k ∧ T t

/-- The operators that join two operands into a value. -/
def Kind.isBinary (k : Kind) : Bool :=
  k == .slash || k == .star || k == .minus || k == .plus || k == .greater ||
    k == .greaterEqual || k == .less || k == .lessEqual || k == .bangEqual || k == .equalEqual

def Kind.isLogical (k : Kind) : Bool := k == .kwAnd || k == .kwOr

/-- The name that a statement binds in the scope in which it stands. -/
def Stmt.declared? : Stmt μ → Option String
  | .declare name _ | .klass name _ _ => some name.lexeme
  | .function routine => some routine.name.lexeme
  | _ => none

mutual

def Expr.WellFormed : Expr μ → Prop
  | .literal _ => True
  | .grouping inner => inner.WellFormed
  | .unary operator right => Parse.isUnary operator.kind = true ∧ right.WellFormed
  | .binary left operator right =>
    operator.kind.isBinary = true ∧ left.WellFormed ∧ right.WellFormed
  | .logical left operator right =>
    operator.kind.isLogical = true ∧ left.WellFormed ∧ right.WellFormed
  | .name target => target.name.Is T .identifier
  | .assign target value => target.name.Is T .identifier ∧ value.WellFormed
  | .call callee paren arguments =>
    paren.kind = .rightParen ∧ callee.WellFormed ∧ Expr.AllWellFormed arguments
  | .get object property => property.Is T .identifier ∧ object.WellFormed
  | .set object property value => property.Is T .identifier ∧ object.WellFormed ∧ value.WellFormed
  | .this keyword => keyword.name.Is T .kwThis
  | .super keyword method => keyword.name.Is T .kwSuper ∧ method.Is T .identifier

def Expr.AllWellFormed : List (Expr μ) → Prop
  | [] => True
  | e :: rest => e.WellFormed ∧ Expr.AllWellFormed rest

end

def Expr.WellFormed? : Option (Expr μ) → Prop
  | none => True
  | some e => e.WellFormed T

def Reference.WellFormed? : Option (Reference μ) → Prop
  | none => True
  | some r => r.name.Is T .identifier

mutual

def Stmt.WellFormed : Stmt μ → Prop
  | .expression value | .print value => value.WellFormed T
  | .declare name initial => name.Is T .identifier ∧ Expr.WellFormed? T initial
  | .block body => Stmt.AllWellFormed body
  | .branch condition yes no =>
    condition.WellFormed T ∧ (yes.WellFormed ∧ yes.declared? = none) ∧ Stmt.WellFormed? no
  | .loop condition body => condition.WellFormed T ∧ body.WellFormed ∧ body.declared? = none
  | .function routine => Routine.WellFormed routine
  | .leave keyword value => keyword.kind = .kwReturn ∧ Expr.WellFormed? T value
  | .klass name parent methods =>
    name.Is T .identifier ∧ Reference.WellFormed? T parent ∧ Routine.AllWellFormed methods

/-- A branch that may be missing. -/
def Stmt.WellFormed? : Option (Stmt μ) → Prop
  | none => True
  | some s => s.WellFormed ∧ s.declared? = none

def Stmt.AllWellFormed : List (Stmt μ) → Prop
  | [] => True
  | s :: rest => s.WellFormed ∧ Stmt.AllWellFormed rest

def Routine.WellFormed : Routine (Stmt μ) → Prop
  | ⟨name, params, body⟩ => name.Is T .identifier ∧ (∀ p ∈ params, p.Is T .identifier) ∧ Stmt.AllWellFormed body

def Routine.AllWellFormed : List (Routine (Stmt μ)) → Prop
  | [] => True
  | r :: rest => Routine.WellFormed r ∧ Routine.AllWellFormed rest

end

variable {T}

theorem Expr.allWellFormed_iff (es : List (Expr μ)) :
    Expr.AllWellFormed T es ↔ ∀ e ∈ es, e.WellFormed T := by
  induction es with
  | nil => simp [Expr.AllWellFormed]
  | cons e rest ih => simp [Expr.AllWellFormed, ih]

theorem Stmt.allWellFormed_iff (ss : List (Stmt μ)) :
    Stmt.AllWellFormed T ss ↔ ∀ s ∈ ss, s.WellFormed T := by
  induction ss with
  | nil => simp [Stmt.AllWellFormed]
  | cons s rest ih => simp [Stmt.AllWellFormed, ih]

theorem Routine.allWellFormed_iff (rs : List (Routine (Stmt μ))) :
    Routine.AllWellFormed T rs ↔ ∀ r ∈ rs, Routine.WellFormed T r := by
  induction rs with
  | nil => simp [Routine.AllWellFormed]
  | cons r rest ih => simp [Routine.AllWellFormed, ih]

/-! ## Numbering keeps the form -/

mutual

theorem Expr.number_wellFormed : ∀ (e : Expr Unit) (n : Nat), e.WellFormed T →
    (e.number n).1.WellFormed T
  | .literal _, _, h => h
  | .grouping inner, n, h => inner.number_wellFormed n h
  | .unary _ right, n, ⟨ho, h⟩ => ⟨ho, right.number_wellFormed n h⟩
  | .binary left _ right, n, ⟨ho, hl, hr⟩ | .logical left _ right, n, ⟨ho, hl, hr⟩ =>
    ⟨ho, left.number_wellFormed n hl, right.number_wellFormed _ hr⟩
  | .name _, _, h => h
  | .assign _ value, _, ⟨hn, h⟩ => ⟨hn, value.number_wellFormed _ h⟩
  | .call callee _ arguments, n, ⟨hp, hc, ha⟩ =>
    ⟨hp, callee.number_wellFormed n hc, Expr.numberAll_wellFormed arguments _ ha⟩
  | .get object _, n, ⟨hn, h⟩ => ⟨hn, object.number_wellFormed n h⟩
  | .set object _ value, n, ⟨hn, ho, hv⟩ =>
    ⟨hn, object.number_wellFormed n ho, value.number_wellFormed _ hv⟩
  | .this _, _, h => h
  | .super _ _, _, h => h

theorem Expr.numberAll_wellFormed : ∀ (es : List (Expr Unit)) (n : Nat), Expr.AllWellFormed T es →
    Expr.AllWellFormed T (Expr.numberAll es n).1
  | [], _, _ => trivial
  | e :: rest, n, ⟨he, hr⟩ => ⟨e.number_wellFormed n he, Expr.numberAll_wellFormed rest _ hr⟩

end

theorem Expr.number?_wellFormed (e : Option (Expr Unit)) (n : Nat) (h : Expr.WellFormed? T e) :
    Expr.WellFormed? T (Expr.number? e n).1 := by
  cases e with
  | none => trivial
  | some e => exact e.number_wellFormed n h

theorem Reference.number?_wellFormed (r : Option (Reference Unit)) (n : Nat)
    (h : Reference.WellFormed? T r) : Reference.WellFormed? T (Reference.number? r n).1 := by
  cases r with
  | none => trivial
  | some r => exact h

theorem Stmt.number_declared? (s : Stmt Unit) (n : Nat) :
    (s.number n).1.declared? = s.declared? := by
  cases s with
  | function routine => cases routine; rfl
  | _ => rfl

mutual

theorem Stmt.number_wellFormed : ∀ (s : Stmt Unit) (n : Nat), s.WellFormed T →
    (s.number n).1.WellFormed T
  | .expression value, n, h | .print value, n, h => value.number_wellFormed n h
  | .declare _ initial, n, ⟨hn, h⟩ => ⟨hn, Expr.number?_wellFormed initial n h⟩
  | .block body, n, h => Stmt.numberAll_wellFormed body n h
  | .branch condition yes no, n, ⟨hc, ⟨hy, hd⟩, hn⟩ =>
    ⟨condition.number_wellFormed n hc, ⟨yes.number_wellFormed _ hy, (Stmt.number_declared? _ _).trans hd⟩,
      Stmt.number?_wellFormed no _ hn⟩
  | .loop condition body, n, ⟨hc, hb, hd⟩ =>
    ⟨condition.number_wellFormed n hc, body.number_wellFormed _ hb, (Stmt.number_declared? _ _).trans hd⟩
  | .function routine, n, h => Routine.number_wellFormed routine n h
  | .leave _ value, n, ⟨hk, h⟩ => ⟨hk, Expr.number?_wellFormed value n h⟩
  | .klass _ parent methods, n, ⟨hn, hp, hm⟩ =>
    ⟨hn, Reference.number?_wellFormed parent n hp, Routine.numberAll_wellFormed methods _ hm⟩

theorem Stmt.number?_wellFormed : ∀ (s : Option (Stmt Unit)) (n : Nat), Stmt.WellFormed? T s →
    Stmt.WellFormed? T (Stmt.number? s n).1
  | none, _, _ => trivial
  | some s, n, ⟨h, hd⟩ => ⟨s.number_wellFormed n h, (s.number_declared? n).trans hd⟩

theorem Stmt.numberAll_wellFormed : ∀ (ss : List (Stmt Unit)) (n : Nat), Stmt.AllWellFormed T ss →
    Stmt.AllWellFormed T (Stmt.numberAll ss n).1
  | [], _, _ => trivial
  | s :: rest, n, ⟨hs, hr⟩ => ⟨s.number_wellFormed n hs, Stmt.numberAll_wellFormed rest _ hr⟩

theorem Routine.number_wellFormed : ∀ (r : Routine (Stmt Unit)) (n : Nat), Routine.WellFormed T r →
    Routine.WellFormed T (Routine.number r n).1
  | ⟨_, _, body⟩, n, ⟨hn, hp, hb⟩ => ⟨hn, hp, Stmt.numberAll_wellFormed body n hb⟩

theorem Routine.numberAll_wellFormed : ∀ (rs : List (Routine (Stmt Unit))) (n : Nat),
    Routine.AllWellFormed T rs → Routine.AllWellFormed T (Routine.numberAll rs n).1
  | [], _, _ => trivial
  | r :: rest, n, ⟨hr, hs⟩ =>
    ⟨Routine.number_wellFormed r n hr, Routine.numberAll_wellFormed rest _ hs⟩

end

end Lox
