import Lox.Tree

/-! # The marks of a tree

Numbering a tree from `n` on uses up an interval of marks, in the order in which
the references stand. So no two references of one program, or of two programs that
are numbered one after the other, share a mark. -/

namespace Lox

mutual

/-- The marks of the references in an expression, from left to right. -/
def Expr.marks : Expr Nat → List Nat
  | .literal _ => []
  | .grouping inner => inner.marks
  | .unary _ right => right.marks
  | .binary left _ right | .logical left _ right => left.marks ++ right.marks
  | .name target => [target.mark]
  | .assign target value => target.mark :: value.marks
  | .call callee _ arguments => callee.marks ++ Expr.allMarks arguments
  | .get object _ => object.marks
  | .set object _ value => object.marks ++ value.marks
  | .this keyword => [keyword.mark]
  | .super keyword _ => [keyword.mark]

def Expr.allMarks : List (Expr Nat) → List Nat
  | [] => []
  | e :: rest => e.marks ++ Expr.allMarks rest

end

def Expr.marks? : Option (Expr Nat) → List Nat
  | none => []
  | some e => e.marks

def Reference.marks? : Option (Reference Nat) → List Nat
  | none => []
  | some r => [r.mark]

mutual

def Stmt.marks : Stmt Nat → List Nat
  | .expression value | .print value => value.marks
  | .declare _ initial => Expr.marks? initial
  | .block body => Stmt.allMarks body
  | .branch condition yes no => condition.marks ++ (yes.marks ++ Stmt.marks? no)
  | .loop condition body => condition.marks ++ body.marks
  | .function routine => Routine.marks routine
  | .leave _ value => Expr.marks? value
  | .klass _ parent methods => Reference.marks? parent ++ Routine.allMarks methods

def Stmt.marks? : Option (Stmt Nat) → List Nat
  | none => []
  | some s => s.marks

def Stmt.allMarks : List (Stmt Nat) → List Nat
  | [] => []
  | s :: rest => s.marks ++ Stmt.allMarks rest

def Routine.marks : Routine (Stmt Nat) → List Nat
  | ⟨_, _, body⟩ => Stmt.allMarks body

def Routine.allMarks : List (Routine (Stmt Nat)) → List Nat
  | [] => []
  | r :: rest => Routine.marks r ++ Routine.allMarks rest

end

/-- Marks that fill the interval from `n` up to `next`. -/
def Spans (marks : List Nat) (n next : Nat) : Prop :=
  n ≤ next ∧ marks = List.range' n (next - n)

namespace Spans

variable {a b : List Nat} {n m k : Nat}

theorem nil (n : Nat) : Spans [] n n := ⟨Nat.le_refl n, by simp⟩

theorem single (n : Nat) : Spans [n] n (n + 1) := ⟨Nat.le_succ n, by simp⟩

theorem append (ha : Spans a n m) (hb : Spans b m k) : Spans (a ++ b) n k := by
  obtain ⟨hnm, rfl⟩ := ha
  obtain ⟨hmk, rfl⟩ := hb
  refine ⟨Nat.le_trans hnm hmk, ?_⟩
  rw [show k - n = (m - n) + (k - m) by omega, ← List.range'_append_1,
    show n + (m - n) = m by omega]

theorem nodup (h : Spans a n m) : a.Nodup := by
  rw [h.2]
  exact List.nodup_range'

theorem mem (h : Spans a n m) {i : Nat} (hi : i ∈ a) : n ≤ i ∧ i < m := by
  obtain ⟨hle, rfl⟩ := h
  rw [List.mem_range'_1] at hi
  omega

end Spans

mutual

theorem Expr.number_spans : ∀ (e : Expr Unit) (n : Nat), Spans (e.number n).1.marks n (e.number n).2
  | .literal _, n => .nil n
  | .grouping inner, n => inner.number_spans n
  | .unary _ right, n => right.number_spans n
  | .binary left _ right, n | .logical left _ right, n =>
    (left.number_spans n).append (right.number_spans _)
  | .name _, n => .single n
  | .assign _ value, n => (Spans.single n).append (value.number_spans (n + 1))
  | .call callee _ arguments, n => (callee.number_spans n).append (Expr.numberAll_spans arguments _)
  | .get object _, n => object.number_spans n
  | .set object _ value, n => (object.number_spans n).append (value.number_spans _)
  | .this _, n => .single n
  | .super _ _, n => .single n

theorem Expr.numberAll_spans : ∀ (es : List (Expr Unit)) (n : Nat),
    Spans (Expr.allMarks (Expr.numberAll es n).1) n (Expr.numberAll es n).2
  | [], n => .nil n
  | e :: rest, n => (e.number_spans n).append (Expr.numberAll_spans rest _)

end

theorem Expr.number?_spans (e : Option (Expr Unit)) (n : Nat) :
    Spans (Expr.marks? (Expr.number? e n).1) n (Expr.number? e n).2 := by
  cases e with
  | none => exact .nil n
  | some e => exact e.number_spans n

theorem Reference.number?_spans (r : Option (Reference Unit)) (n : Nat) :
    Spans (Reference.marks? (Reference.number? r n).1) n (Reference.number? r n).2 := by
  cases r with
  | none => exact .nil n
  | some r => exact .single n

mutual

theorem Stmt.number_spans : ∀ (s : Stmt Unit) (n : Nat), Spans (s.number n).1.marks n (s.number n).2
  | .expression value, n | .print value, n => value.number_spans n
  | .declare _ initial, n => Expr.number?_spans initial n
  | .block body, n => Stmt.numberAll_spans body n
  | .branch condition yes no, n =>
    (condition.number_spans n).append ((yes.number_spans _).append (Stmt.number?_spans no _))
  | .loop condition body, n => (condition.number_spans n).append (body.number_spans _)
  | .function routine, n => Routine.number_spans routine n
  | .leave _ value, n => Expr.number?_spans value n
  | .klass _ parent methods, n =>
    (Reference.number?_spans parent n).append (Routine.numberAll_spans methods _)

theorem Stmt.number?_spans : ∀ (s : Option (Stmt Unit)) (n : Nat),
    Spans (Stmt.marks? (Stmt.number? s n).1) n (Stmt.number? s n).2
  | none, n => .nil n
  | some s, n => s.number_spans n

theorem Stmt.numberAll_spans : ∀ (ss : List (Stmt Unit)) (n : Nat),
    Spans (Stmt.allMarks (Stmt.numberAll ss n).1) n (Stmt.numberAll ss n).2
  | [], n => .nil n
  | s :: rest, n => (s.number_spans n).append (Stmt.numberAll_spans rest _)

theorem Routine.number_spans : ∀ (r : Routine (Stmt Unit)) (n : Nat),
    Spans (Routine.marks (Routine.number r n).1) n (Routine.number r n).2
  | ⟨_, _, body⟩, n => Stmt.numberAll_spans body n

theorem Routine.numberAll_spans : ∀ (rs : List (Routine (Stmt Unit))) (n : Nat),
    Spans (Routine.allMarks (Routine.numberAll rs n).1) n (Routine.numberAll rs n).2
  | [], n => .nil n
  | r :: rest, n => (Routine.number_spans r n).append (Routine.numberAll_spans rest _)

end

end Lox
