import Lox.Proofs.Marks
import Lox.Proofs.WellFormed

/-! # Code that fits its place

A place is described by the names that the scopes around it declare. Code fits a
place, under given addresses for its references, if each reference has as its
address the distance to the innermost scope that declares its name, if no name is
declared twice in a scope, if nothing is read before it has a value, and if every
call ends with a parenthesis, where its errors are reported. Nothing here speaks of
a pass over the code or of a run of it: the pass is shown to produce
such addresses, and a run to need no more. -/

namespace Lox

/-- The names that the scopes around a place declare, the innermost scope first. -/
abbrev Surroundings := List (List String)

namespace Surroundings

/-- How many scopes outwards a name is declared. -/
def distance? (Γ : Surroundings) (x : String) : Option Nat := Γ.findIdx? (·.contains x)

/-- Declares a name in the innermost scope. Outside all scopes nothing is tracked. -/
def declare (x : String) : Surroundings → Surroundings
  | [] => []
  | names :: outer => (if names.contains x then names else names ++ [x]) :: outer

/-- The innermost scope does not declare the name yet. -/
def Fresh (x : String) (Γ : Surroundings) : Prop := ∀ names ∈ Γ.head?, x ∉ names

/-- The place behind a statement. -/
def after (Γ : Surroundings) (s : Stmt Nat) : Surroundings :=
  match s.declared? with
  | some x => Γ.declare x
  | none => Γ

/-- The place of the methods of a class: one scope binds `this`, and outside it
another one binds `super` if the class has a parent. -/
def ofMethods (hasParent : Bool) (Γ : Surroundings) : Surroundings :=
  ["this"] :: if hasParent then ["super"] :: Γ else Γ

variable {Γ : Surroundings} {x y : String} {names : List String}

theorem after_of_none {s : Stmt Nat} (h : s.declared? = none) : Γ.after s = Γ := by
  simp [after, h]

@[simp] theorem distance?_nil : distance? [] x = none := rfl

theorem distance?_cons :
    distance? (names :: Γ) x = if x ∈ names then some 0 else (distance? Γ x).map (· + 1) := by
  simp [distance?, List.findIdx?_cons]

theorem distance?_declare (h : y ≠ x) : (Γ.declare x).distance? y = Γ.distance? y := by
  cases Γ with
  | nil => rfl
  | cons names outer =>
    simp only [declare, distance?_cons]
    split
    · rfl
    · simp [h]

theorem declare_of_fresh (h : Fresh x (names :: Γ)) :
    declare x (names :: Γ) = (names ++ [x]) :: Γ := by
  have : x ∉ names := h names rfl
  simp [declare, this]

end Surroundings

/-- Names that a program can choose. -/
def Ordinary (x : String) : Prop := x ≠ "this" ∧ x ≠ "super"

/-- A reference that reads its name: its address is right, and the name is not the
one whose first value is being computed in the innermost scope. -/
def Reference.Reads (hops : Nat → Option Nat) (Γ : Surroundings) (pending : Option String)
    (r : Reference Nat) : Prop :=
  hops r.mark = Γ.distance? r.name.lexeme ∧
    (pending = some r.name.lexeme → Γ.distance? r.name.lexeme = none)

mutual

/-- Expressions that fit a place, where `pending` may be a name of the innermost
scope that has no value yet. -/
def Expr.Fits (hops : Nat → Option Nat) (Γ : Surroundings) (pending : Option String) :
    Expr Nat → Prop
  | .literal _ => True
  | .grouping inner => inner.Fits hops Γ pending
  | .unary _ right => right.Fits hops Γ pending
  | .binary left _ right | .logical left _ right =>
    left.Fits hops Γ pending ∧ right.Fits hops Γ pending
  | .name target => target.Reads hops Γ pending
  | .assign target value =>
    hops target.mark = Γ.distance? target.name.lexeme ∧ Ordinary target.name.lexeme ∧
      value.Fits hops Γ pending
  | .call callee paren arguments =>
    paren.kind = .rightParen ∧ callee.Fits hops Γ pending ∧ Expr.AllFit hops Γ pending arguments
  | .get object _ => object.Fits hops Γ pending
  | .set object _ value => object.Fits hops Γ pending ∧ value.Fits hops Γ pending
  | .this keyword =>
    keyword.name.lexeme = "this" ∧ ∃ d, hops keyword.mark = some d ∧ Γ.distance? "this" = some d
  | .super keyword _ =>
    ∃ d, hops keyword.mark = some (d + 1) ∧ Γ.distance? "super" = some (d + 1) ∧
      Γ.distance? "this" = some d

def Expr.AllFit (hops : Nat → Option Nat) (Γ : Surroundings) (pending : Option String) :
    List (Expr Nat) → Prop
  | [] => True
  | e :: rest => e.Fits hops Γ pending ∧ Expr.AllFit hops Γ pending rest

end

def Expr.Fits? (hops : Nat → Option Nat) (Γ : Surroundings) (pending : Option String) :
    Option (Expr Nat) → Prop
  | none => True
  | some e => e.Fits hops Γ pending

/-- The name of a class has no value yet when its parent is read. -/
def Reference.Reads? (hops : Nat → Option Nat) (Γ : Surroundings) (pending : Option String) :
    Option (Reference Nat) → Prop
  | none => True
  | some r => r.Reads hops Γ pending

mutual

def Stmt.Fits (hops : Nat → Option Nat) : Surroundings → Stmt Nat → Prop
  | Γ, .expression value | Γ, .print value => value.Fits hops Γ none
  | Γ, .declare name initial =>
    Γ.Fresh name.lexeme ∧ Ordinary name.lexeme ∧
      Expr.Fits? hops (Γ.declare name.lexeme) (some name.lexeme) initial
  | Γ, .block body => Stmt.AllFit hops ([] :: Γ) body
  | Γ, .branch condition yes no =>
    condition.Fits hops Γ none ∧ (yes.Fits hops Γ ∧ yes.declared? = none) ∧ Stmt.Fits? hops Γ no
  | Γ, .loop condition body =>
    condition.Fits hops Γ none ∧ body.Fits hops Γ ∧ body.declared? = none
  | Γ, .function routine =>
    Γ.Fresh routine.name.lexeme ∧ Ordinary routine.name.lexeme ∧
      Routine.Fits hops (Γ.declare routine.name.lexeme) routine
  | Γ, .leave _ value => Expr.Fits? hops Γ none value
  | Γ, .klass name parent methods =>
    Γ.Fresh name.lexeme ∧ Ordinary name.lexeme ∧
      Reference.Reads? hops (Γ.declare name.lexeme) (some name.lexeme) parent ∧
      Routine.AllFit hops (.ofMethods parent.isSome (Γ.declare name.lexeme)) methods

/-- A branch that may be missing. -/
def Stmt.Fits? (hops : Nat → Option Nat) : Surroundings → Option (Stmt Nat) → Prop
  | _, none => True
  | Γ, some s => s.Fits hops Γ ∧ s.declared? = none

def Stmt.AllFit (hops : Nat → Option Nat) : Surroundings → List (Stmt Nat) → Prop
  | _, [] => True
  | Γ, s :: rest => s.Fits hops Γ ∧ Stmt.AllFit hops (Γ.after s) rest

/-- A routine's parameters and its body share one scope. -/
def Routine.Fits (hops : Nat → Option Nat) : Surroundings → Routine (Stmt Nat) → Prop
  | Γ, ⟨_, params, body⟩ =>
    (params.map (·.lexeme)).Nodup ∧ (∀ p ∈ params, Ordinary p.lexeme) ∧
      Stmt.AllFit hops (params.map (·.lexeme) :: Γ) body

def Routine.AllFit (hops : Nat → Option Nat) : Surroundings → List (Routine (Stmt Nat)) → Prop
  | _, [] => True
  | Γ, r :: rest => Routine.Fits hops Γ r ∧ Routine.AllFit hops Γ rest

end

theorem Routine.fits_iff {hops : Nat → Option Nat} {Γ : Surroundings} {r : Routine (Stmt Nat)} :
    Routine.Fits hops Γ r ↔ (r.params.map (·.lexeme)).Nodup ∧ (∀ p ∈ r.params, Ordinary p.lexeme) ∧
      Stmt.AllFit hops (r.params.map (·.lexeme) :: Γ) r.body := by
  cases r
  rfl

theorem Stmt.Fits.ordinary {hops : Nat → Option Nat} {s : Stmt Nat} {Γ : Surroundings} {x : String}
    (h : s.Fits hops Γ) (hd : s.declared? = some x) : Ordinary x := by
  cases s with
  | declare name initial => obtain rfl := Option.some.inj hd; exact h.2.1
  | function routine => obtain rfl := Option.some.inj hd; exact h.2.1
  | klass name parent methods => obtain rfl := Option.some.inj hd; exact h.2.1
  | _ => cases hd

/-! ## Only the addresses of the code's own references matter -/

section Congruence

variable {hops other : Nat → Option Nat}

theorem Reference.Reads.congr {Γ : Surroundings} {pending : Option String} {r : Reference Nat}
    (h : hops r.mark = other r.mark) (hf : r.Reads hops Γ pending) : r.Reads other Γ pending :=
  ⟨h ▸ hf.1, hf.2⟩

mutual

theorem Expr.Fits.congr {Γ : Surroundings} {pending : Option String} :
    ∀ (e : Expr Nat), (∀ i ∈ e.marks, hops i = other i) → e.Fits hops Γ pending →
      e.Fits other Γ pending
  | .literal _, _, _ => trivial
  | .grouping inner, h, hf => Expr.Fits.congr inner h hf
  | .unary _ right, h, hf => Expr.Fits.congr right h hf
  | .binary left _ right, h, ⟨hl, hr⟩ | .logical left _ right, h, ⟨hl, hr⟩ =>
    ⟨Expr.Fits.congr left (fun i hi => h i (List.mem_append_left _ hi)) hl,
      Expr.Fits.congr right (fun i hi => h i (List.mem_append_right _ hi)) hr⟩
  | .name target, h, hf => Reference.Reads.congr (h target.mark List.mem_cons_self) hf
  | .assign target value, h, ⟨ht, ho, hv⟩ =>
    ⟨h target.mark List.mem_cons_self ▸ ht, ho,
      Expr.Fits.congr value (fun i hi => h i (List.mem_cons_of_mem _ hi)) hv⟩
  | .call callee _ arguments, h, ⟨hp, hc, ha⟩ =>
    ⟨hp, Expr.Fits.congr callee (fun i hi => h i (List.mem_append_left _ hi)) hc,
      Expr.AllFit.congr arguments (fun i hi => h i (List.mem_append_right _ hi)) ha⟩
  | .get object _, h, hf => Expr.Fits.congr object h hf
  | .set object _ value, h, ⟨ho, hv⟩ =>
    ⟨Expr.Fits.congr object (fun i hi => h i (List.mem_append_left _ hi)) ho,
      Expr.Fits.congr value (fun i hi => h i (List.mem_append_right _ hi)) hv⟩
  | .this keyword, h, ⟨hn, d, hd, ht⟩ => ⟨hn, d, h keyword.mark List.mem_cons_self ▸ hd, ht⟩
  | .super keyword _, h, ⟨d, hd, hs⟩ => ⟨d, h keyword.mark List.mem_cons_self ▸ hd, hs⟩

theorem Expr.AllFit.congr {Γ : Surroundings} {pending : Option String} :
    ∀ (es : List (Expr Nat)), (∀ i ∈ Expr.allMarks es, hops i = other i) →
      Expr.AllFit hops Γ pending es → Expr.AllFit other Γ pending es
  | [], _, _ => trivial
  | e :: rest, h, ⟨he, hr⟩ =>
    ⟨Expr.Fits.congr e (fun i hi => h i (List.mem_append_left _ hi)) he,
      Expr.AllFit.congr rest (fun i hi => h i (List.mem_append_right _ hi)) hr⟩

end

theorem Expr.Fits?.congr {Γ : Surroundings} {pending : Option String} (e : Option (Expr Nat))
    (h : ∀ i ∈ Expr.marks? e, hops i = other i) (hf : Expr.Fits? hops Γ pending e) :
    Expr.Fits? other Γ pending e := by
  cases e with
  | none => trivial
  | some e => exact Expr.Fits.congr e h hf

theorem Reference.Reads?.congr {Γ : Surroundings} {pending : Option String}
    (r : Option (Reference Nat)) (h : ∀ i ∈ Reference.marks? r, hops i = other i)
    (hf : Reference.Reads? hops Γ pending r) : Reference.Reads? other Γ pending r := by
  cases r with
  | none => trivial
  | some r => exact Reference.Reads.congr (h r.mark List.mem_cons_self) hf

mutual

theorem Stmt.Fits.congr : ∀ (s : Stmt Nat) (Γ : Surroundings), (∀ i ∈ s.marks, hops i = other i) →
    s.Fits hops Γ → s.Fits other Γ
  | .expression value, _, h, hf | .print value, _, h, hf => Expr.Fits.congr value h hf
  | .declare _ initial, _, h, ⟨hx, ho, hf⟩ => ⟨hx, ho, Expr.Fits?.congr initial h hf⟩
  | .block body, _, h, hf => Stmt.AllFit.congr body _ h hf
  | .branch condition yes no, _, h, ⟨hc, ⟨hy, hd⟩, hn⟩ =>
    ⟨Expr.Fits.congr condition (fun i hi => h i (List.mem_append_left _ hi)) hc,
      ⟨Stmt.Fits.congr yes _
        (fun i hi => h i (List.mem_append_right _ (List.mem_append_left _ hi))) hy, hd⟩,
      Stmt.Fits?.congr no _
        (fun i hi => h i (List.mem_append_right _ (List.mem_append_right _ hi))) hn⟩
  | .loop condition body, _, h, ⟨hc, hb, hd⟩ =>
    ⟨Expr.Fits.congr condition (fun i hi => h i (List.mem_append_left _ hi)) hc,
      Stmt.Fits.congr body _ (fun i hi => h i (List.mem_append_right _ hi)) hb, hd⟩
  | .function routine, _, h, ⟨hx, ho, hf⟩ => ⟨hx, ho, Routine.Fits.congr routine _ h hf⟩
  | .leave _ value, _, h, hf => Expr.Fits?.congr value h hf
  | .klass _ parent methods, _, h, ⟨hx, ho, hp, hm⟩ =>
    ⟨hx, ho, Reference.Reads?.congr parent (fun i hi => h i (List.mem_append_left _ hi)) hp,
      Routine.AllFit.congr methods _ (fun i hi => h i (List.mem_append_right _ hi)) hm⟩

theorem Stmt.Fits?.congr : ∀ (s : Option (Stmt Nat)) (Γ : Surroundings),
    (∀ i ∈ Stmt.marks? s, hops i = other i) → Stmt.Fits? hops Γ s → Stmt.Fits? other Γ s
  | none, _, _, _ => trivial
  | some s, Γ, h, ⟨hs, hd⟩ => ⟨Stmt.Fits.congr s Γ h hs, hd⟩

theorem Stmt.AllFit.congr : ∀ (ss : List (Stmt Nat)) (Γ : Surroundings),
    (∀ i ∈ Stmt.allMarks ss, hops i = other i) → Stmt.AllFit hops Γ ss → Stmt.AllFit other Γ ss
  | [], _, _, _ => trivial
  | s :: rest, Γ, h, ⟨hs, hr⟩ =>
    ⟨Stmt.Fits.congr s Γ (fun i hi => h i (List.mem_append_left _ hi)) hs,
      Stmt.AllFit.congr rest _ (fun i hi => h i (List.mem_append_right _ hi)) hr⟩

theorem Routine.Fits.congr : ∀ (r : Routine (Stmt Nat)) (Γ : Surroundings),
    (∀ i ∈ Routine.marks r, hops i = other i) → Routine.Fits hops Γ r → Routine.Fits other Γ r
  | ⟨_, _, body⟩, _, h, ⟨hn, ho, hb⟩ => ⟨hn, ho, Stmt.AllFit.congr body _ h hb⟩

theorem Routine.AllFit.congr : ∀ (rs : List (Routine (Stmt Nat))) (Γ : Surroundings),
    (∀ i ∈ Routine.allMarks rs, hops i = other i) → Routine.AllFit hops Γ rs →
      Routine.AllFit other Γ rs
  | [], _, _, _ => trivial
  | r :: rest, Γ, h, ⟨hr, hs⟩ =>
    ⟨Routine.Fits.congr r Γ (fun i hi => h i (List.mem_append_left _ hi)) hr,
      Routine.AllFit.congr rest Γ (fun i hi => h i (List.mem_append_right _ hi)) hs⟩

end

end Congruence

end Lox
