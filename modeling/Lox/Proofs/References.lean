import Lox.Proofs.Marks

/-! # The references of a tree

All names, assignments and uses of `this` and `super` in a tree, from left to right. Their
marks are the marks of the tree. -/

namespace Lox

variable {μ : Type}

mutual

def Expr.references : Expr μ → List (Reference μ)
  | .literal _ => []
  | .grouping inner => inner.references
  | .unary _ right => right.references
  | .binary left _ right | .logical left _ right => left.references ++ right.references
  | .name target => [target]
  | .assign target value => target :: value.references
  | .call callee _ arguments => callee.references ++ Expr.allReferences arguments
  | .get object _ => object.references
  | .set object _ value => object.references ++ value.references
  | .this keyword | .super keyword _ => [keyword]

def Expr.allReferences : List (Expr μ) → List (Reference μ)
  | [] => []
  | e :: rest => e.references ++ Expr.allReferences rest

end

def Expr.references? : Option (Expr μ) → List (Reference μ)
  | none => []
  | some e => e.references

mutual

def Stmt.references : Stmt μ → List (Reference μ)
  | .expression value | .print value => value.references
  | .declare _ initial => Expr.references? initial
  | .block body => Stmt.allReferences body
  | .branch condition yes no => condition.references ++ (yes.references ++ Stmt.references? no)
  | .loop condition body => condition.references ++ body.references
  | .function routine => Routine.references routine
  | .leave _ value => Expr.references? value
  | .klass _ parent methods => parent.toList ++ Routine.allReferences methods

def Stmt.references? : Option (Stmt μ) → List (Reference μ)
  | none => []
  | some s => s.references

def Stmt.allReferences : List (Stmt μ) → List (Reference μ)
  | [] => []
  | s :: rest => s.references ++ Stmt.allReferences rest

def Routine.references : Routine (Stmt μ) → List (Reference μ)
  | ⟨_, _, body⟩ => Stmt.allReferences body

def Routine.allReferences : List (Routine (Stmt μ)) → List (Reference μ)
  | [] => []
  | r :: rest => Routine.references r ++ Routine.allReferences rest

end

theorem Expr.mem_allReferences {r : Reference μ} {es : List (Expr μ)} :
    r ∈ Expr.allReferences es ↔ ∃ e ∈ es, r ∈ e.references := by
  induction es with
  | nil => simp [Expr.allReferences]
  | cons e rest ih => simp [Expr.allReferences, ih]

theorem Stmt.mem_allReferences {r : Reference μ} {ss : List (Stmt μ)} :
    r ∈ Stmt.allReferences ss ↔ ∃ s ∈ ss, r ∈ s.references := by
  induction ss with
  | nil => simp [Stmt.allReferences]
  | cons s rest ih => simp [Stmt.allReferences, ih]

theorem Routine.mem_allReferences {r : Reference μ} {rs : List (Routine (Stmt μ))} :
    r ∈ Routine.allReferences rs ↔ ∃ m ∈ rs, r ∈ Routine.references m := by
  induction rs with
  | nil => simp [Routine.allReferences]
  | cons m rest ih => simp [Routine.allReferences, ih]

/-! ## Marks -/

mutual

theorem Expr.marks_eq : ∀ e : Expr Nat, e.marks = e.references.map (·.mark)
  | .literal _ => rfl
  | .grouping inner => inner.marks_eq
  | .unary _ right => right.marks_eq
  | .binary left _ right | .logical left _ right => by
    simp only [Expr.marks, Expr.references, List.map_append, left.marks_eq, right.marks_eq]
  | .name _ => rfl
  | .assign _ value => by simp only [Expr.marks, Expr.references, List.map_cons, value.marks_eq]
  | .call callee _ arguments => by
    simp only [Expr.marks, Expr.references, List.map_append, callee.marks_eq, Expr.allMarks_eq arguments]
  | .get object _ => object.marks_eq
  | .set object _ value => by
    simp only [Expr.marks, Expr.references, List.map_append, object.marks_eq, value.marks_eq]
  | .this _ | .super _ _ => rfl

theorem Expr.allMarks_eq : ∀ es : List (Expr Nat), Expr.allMarks es = (Expr.allReferences es).map (·.mark)
  | [] => rfl
  | e :: rest => by
    simp only [Expr.allMarks, Expr.allReferences, List.map_append, e.marks_eq, Expr.allMarks_eq rest]

end

theorem Expr.marks?_eq (e : Option (Expr Nat)) : Expr.marks? e = (Expr.references? e).map (·.mark) := by
  cases e with
  | none => rfl
  | some e => exact e.marks_eq

mutual

theorem Stmt.marks_eq : ∀ s : Stmt Nat, s.marks = s.references.map (·.mark)
  | .expression value | .print value => value.marks_eq
  | .declare _ initial => Expr.marks?_eq initial
  | .block body => Stmt.allMarks_eq body
  | .branch condition yes no => by
    simp only [Stmt.marks, Stmt.references, List.map_append, condition.marks_eq, yes.marks_eq, Stmt.marks?_eq no]
  | .loop condition body => by
    simp only [Stmt.marks, Stmt.references, List.map_append, condition.marks_eq, body.marks_eq]
  | .function routine => Routine.marks_eq routine
  | .leave _ value => Expr.marks?_eq value
  | .klass _ parent methods => by
    have first : Reference.marks? parent = parent.toList.map (·.mark) := by cases parent <;> rfl
    simp only [Stmt.marks, Stmt.references, List.map_append, first, Routine.allMarks_eq methods]

theorem Stmt.marks?_eq : ∀ s : Option (Stmt Nat), Stmt.marks? s = (Stmt.references? s).map (·.mark)
  | none => rfl
  | some s => s.marks_eq

theorem Stmt.allMarks_eq : ∀ ss : List (Stmt Nat), Stmt.allMarks ss = (Stmt.allReferences ss).map (·.mark)
  | [] => rfl
  | s :: rest => by
    simp only [Stmt.allMarks, Stmt.allReferences, List.map_append, s.marks_eq, Stmt.allMarks_eq rest]

theorem Routine.marks_eq : ∀ r : Routine (Stmt Nat), Routine.marks r = (Routine.references r).map (·.mark)
  | ⟨_, _, body⟩ => Stmt.allMarks_eq body

theorem Routine.allMarks_eq : ∀ rs : List (Routine (Stmt Nat)),
    Routine.allMarks rs = (Routine.allReferences rs).map (·.mark)
  | [] => rfl
  | r :: rest => by
    simp only [Routine.allMarks, Routine.allReferences, List.map_append, Routine.marks_eq r,
      Routine.allMarks_eq rest]

end

end Lox
