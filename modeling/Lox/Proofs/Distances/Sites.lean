import Lox.Proofs.Resolving

/-! # Where the references of a program stand

A site is a reference with its place: the local scopes around it, each with the names
that the program declares in it textually before the reference, and the innermost
class around it. The sites of a tree are told from the tree alone, by what stands
around a reference and in front of it. -/

namespace Lox

/-- A reference, the local scopes around it from the innermost outwards, and the kind
of the innermost class around it. -/
structure Site where
  kind : ReferenceKind
  reference : Reference Nat
  scopes : Surroundings
  klass : ClassContext

/-- What the methods of a class stand in. -/
def ClassContext.ofMethods (hasParent : Bool) : ClassContext :=
  if hasParent then .subclass else .klass

/-- The names that the statements of a row declare in the scope of the row. -/
def Stmt.declaredIn (row : List (Stmt Nat)) : List String := row.filterMap (·.declared?)

/-- More names in the innermost scope. Outside all scopes nothing is tracked. -/
def Surroundings.extend (names : List String) : Surroundings → Surroundings
  | [] => []
  | scope :: outer => (scope ++ names) :: outer

/-- The sites of an expression. No expression opens a scope or declares a name. -/
inductive Expr.HasSite (Γ : Surroundings) (κ : ClassContext) : Expr Nat → Site → Prop
  | name {r} : Expr.HasSite Γ κ (.name r) ⟨.variable, r, Γ, κ⟩
  | target {r value} : Expr.HasSite Γ κ (.assign r value) ⟨.assignment, r, Γ, κ⟩
  | this {r} : Expr.HasSite Γ κ (.this r) ⟨.this, r, Γ, κ⟩
  | super {r method} : Expr.HasSite Γ κ (.super r method) ⟨.super, r, Γ, κ⟩
  | grouping {inner site} : Expr.HasSite Γ κ inner site → Expr.HasSite Γ κ (.grouping inner) site
  | operand {operator right site} : Expr.HasSite Γ κ right site →
      Expr.HasSite Γ κ (.unary operator right) site
  | binaryLeft {left operator right site} : Expr.HasSite Γ κ left site →
      Expr.HasSite Γ κ (.binary left operator right) site
  | binaryRight {left operator right site} : Expr.HasSite Γ κ right site →
      Expr.HasSite Γ κ (.binary left operator right) site
  | logicalLeft {left operator right site} : Expr.HasSite Γ κ left site →
      Expr.HasSite Γ κ (.logical left operator right) site
  | logicalRight {left operator right site} : Expr.HasSite Γ κ right site →
      Expr.HasSite Γ κ (.logical left operator right) site
  | assigned {r value site} : Expr.HasSite Γ κ value site → Expr.HasSite Γ κ (.assign r value) site
  | callee {callee paren arguments site} : Expr.HasSite Γ κ callee site →
      Expr.HasSite Γ κ (.call callee paren arguments) site
  | argument {callee paren arguments e site} : e ∈ arguments → Expr.HasSite Γ κ e site →
      Expr.HasSite Γ κ (.call callee paren arguments) site
  | owner {object property site} : Expr.HasSite Γ κ object site →
      Expr.HasSite Γ κ (.get object property) site
  | object {object property value site} : Expr.HasSite Γ κ object site →
      Expr.HasSite Γ κ (.set object property value) site
  | value {object property value site} : Expr.HasSite Γ κ value site →
      Expr.HasSite Γ κ (.set object property value) site

/-- The sites of a statement. The name of a variable is declared from its own
initializer on, that of a function or a class from its own declaration on, and
parameters throughout the body. -/
inductive Stmt.HasSite : Surroundings → ClassContext → Stmt Nat → Site → Prop
  | expression {Γ κ value site} : Expr.HasSite Γ κ value site →
      Stmt.HasSite Γ κ (.expression value) site
  | print {Γ κ value site} : Expr.HasSite Γ κ value site → Stmt.HasSite Γ κ (.print value) site
  | initial {Γ κ name value site} : Expr.HasSite (Γ.extend [name.lexeme]) κ value site →
      Stmt.HasSite Γ κ (.declare name (some value)) site
  | block {Γ κ body before s rest site} : body = before ++ s :: rest →
      Stmt.HasSite (declaredIn before :: Γ) κ s site → Stmt.HasSite Γ κ (.block body) site
  | condition {Γ κ condition yes no site} : Expr.HasSite Γ κ condition site →
      Stmt.HasSite Γ κ (.branch condition yes no) site
  | yes {Γ κ condition yes no site} : Stmt.HasSite Γ κ yes site →
      Stmt.HasSite Γ κ (.branch condition yes no) site
  | no {Γ κ condition yes no site} : Stmt.HasSite Γ κ no site →
      Stmt.HasSite Γ κ (.branch condition yes (some no)) site
  | test {Γ κ condition body site} : Expr.HasSite Γ κ condition site →
      Stmt.HasSite Γ κ (.loop condition body) site
  | repeated {Γ κ condition body site} : Stmt.HasSite Γ κ body site →
      Stmt.HasSite Γ κ (.loop condition body) site
  | body {Γ κ routine before s rest site} : routine.body = before ++ s :: rest →
      Stmt.HasSite ((routine.params.map (·.lexeme) ++ declaredIn before) ::
        Γ.extend [routine.name.lexeme]) κ s site →
      Stmt.HasSite Γ κ (.function routine) site
  | result {Γ κ keyword value site} : Expr.HasSite Γ κ value site →
      Stmt.HasSite Γ κ (.leave keyword (some value)) site
  | parent {Γ κ name r methods} : Stmt.HasSite Γ κ (.klass name (some r) methods)
      ⟨.variable, r, Γ.extend [name.lexeme], κ⟩
  | method {Γ κ name parent methods m before s rest site} : m ∈ methods →
      m.body = before ++ s :: rest →
      Stmt.HasSite ((m.params.map (·.lexeme) ++ declaredIn before) ::
        Surroundings.ofMethods parent.isSome (Γ.extend [name.lexeme])) (.ofMethods parent.isSome) s site →
      Stmt.HasSite Γ κ (.klass name parent methods) site

/-- The sites of a row of statements. -/
def Stmt.RowHasSite (Γ : Surroundings) (κ : ClassContext) (row : List (Stmt Nat)) (site : Site) :
    Prop :=
  ∃ before s rest, row = before ++ s :: rest ∧ s.HasSite (Γ.extend (declaredIn before)) κ site

/-- The sites of a routine: its parameters and its body share one scope. -/
def Routine.HasSite (Γ : Surroundings) (κ : ClassContext) (r : Routine (Stmt Nat)) (site : Site) :
    Prop :=
  Stmt.RowHasSite (r.params.map (·.lexeme) :: Γ) κ r.body site

/-- The sites of a program, which stands outside all scopes and classes. -/
abbrev Stmt.ProgramHasSite (program : List (Stmt Nat)) (site : Site) : Prop :=
  Stmt.RowHasSite [] .none program site

namespace Site

variable (site : Site)

/-- The name that is looked up. -/
def name : String := site.reference.name.lexeme

/-- `this` is misused outside all classes, and `super` also in a class without a
parent. -/
def misuse? : Option Misuse :=
  match site.kind, site.klass with
  | .this, .none => some .thisOutsideClass
  | .super, .none => some .superOutsideClass
  | .super, .klass => some .superWithoutParent
  | _, _ => none

/-- What a site is reported for. -/
def report? : Option MisuseError := site.misuse?.map (⟨·, site.reference.name⟩)

/-- What a table has for a site. -/
def entry? : Option Entry :=
  match site.misuse? with
  | some _ => none
  | none => (site.scopes.distance? site.name).map (⟨site.kind, site.reference, ·⟩)

end Site

/-! ## The sites of each form -/

namespace Expr

variable {Γ : Surroundings} {κ : ClassContext} {site : Site}

theorem not_hasSite_literal {value : Literal} : ¬ (literal value).HasSite Γ κ site := nofun

theorem hasSite_grouping {inner : Expr Nat} :
    (grouping inner).HasSite Γ κ site ↔ inner.HasSite Γ κ site :=
  ⟨fun h => by cases h; assumption, .grouping⟩

theorem hasSite_unary {operator : Token} {right : Expr Nat} :
    (unary operator right).HasSite Γ κ site ↔ right.HasSite Γ κ site :=
  ⟨fun h => by cases h; assumption, .operand⟩

theorem hasSite_binary {left right : Expr Nat} {operator : Token} :
    (binary left operator right).HasSite Γ κ site ↔ left.HasSite Γ κ site ∨ right.HasSite Γ κ site := by
  constructor
  · intro h
    cases h with
    | binaryLeft h => exact .inl h
    | binaryRight h => exact .inr h
  · exact (·.elim .binaryLeft .binaryRight)

theorem hasSite_logical {left right : Expr Nat} {operator : Token} :
    (logical left operator right).HasSite Γ κ site ↔
      left.HasSite Γ κ site ∨ right.HasSite Γ κ site := by
  constructor
  · intro h
    cases h with
    | logicalLeft h => exact .inl h
    | logicalRight h => exact .inr h
  · exact (·.elim .logicalLeft .logicalRight)

theorem hasSite_name {r : Reference Nat} :
    (name r).HasSite Γ κ site ↔ site = ⟨.variable, r, Γ, κ⟩ :=
  ⟨fun h => by cases h; rfl, fun h => h ▸ .name⟩

theorem hasSite_assign {r : Reference Nat} {value : Expr Nat} :
    (assign r value).HasSite Γ κ site ↔
      value.HasSite Γ κ site ∨ site = ⟨.assignment, r, Γ, κ⟩ := by
  constructor
  · intro h
    cases h with
    | assigned h => exact .inl h
    | target => exact .inr rfl
  · exact (·.elim .assigned fun h => h ▸ .target)

theorem hasSite_call {callee : Expr Nat} {paren : Token} {arguments : List (Expr Nat)} :
    (call callee paren arguments).HasSite Γ κ site ↔
      callee.HasSite Γ κ site ∨ ∃ e ∈ arguments, e.HasSite Γ κ site := by
  constructor
  · intro h
    cases h with
    | callee h => exact .inl h
    | argument hm h => exact .inr ⟨_, hm, h⟩
  · exact (·.elim .callee fun ⟨_, hm, h⟩ => .argument hm h)

theorem hasSite_get {object : Expr Nat} {property : Token} :
    (get object property).HasSite Γ κ site ↔ object.HasSite Γ κ site :=
  ⟨fun h => by cases h; assumption, .owner⟩

theorem hasSite_set {object value : Expr Nat} {property : Token} :
    (set object property value).HasSite Γ κ site ↔
      value.HasSite Γ κ site ∨ object.HasSite Γ κ site := by
  constructor
  · intro h
    cases h with
    | value h => exact .inl h
    | object h => exact .inr h
  · exact (·.elim .value .object)

theorem hasSite_this {r : Reference Nat} :
    (this r).HasSite Γ κ site ↔ site = ⟨.this, r, Γ, κ⟩ :=
  ⟨fun h => by cases h; rfl, fun h => h ▸ .this⟩

theorem hasSite_super {r : Reference Nat} {method : Token} :
    (super r method).HasSite Γ κ site ↔ site = ⟨.super, r, Γ, κ⟩ :=
  ⟨fun h => by cases h; rfl, fun h => h ▸ .super⟩

end Expr

namespace Surroundings

@[simp] theorem extend_nil (Γ : Surroundings) : Γ.extend [] = Γ := by
  cases Γ <;> simp [extend]

@[simp] theorem extend_extend (Γ : Surroundings) (a b : List String) :
    (Γ.extend a).extend b = Γ.extend (a ++ b) := by
  cases Γ <;> simp [extend]

end Surroundings

namespace Stmt

variable {Γ : Surroundings} {κ : ClassContext} {site : Site}

theorem declaredIn_cons (s : Stmt Nat) (rest : List (Stmt Nat)) :
    declaredIn (s :: rest) = s.declared?.toList ++ declaredIn rest := by
  cases h : s.declared? <;> simp [declaredIn, h]

theorem not_rowHasSite_nil : ¬ RowHasSite Γ κ [] site :=
  fun ⟨_, _, _, h, _⟩ => by simp at h

theorem rowHasSite_cons {s : Stmt Nat} {rest : List (Stmt Nat)} :
    RowHasSite Γ κ (s :: rest) site ↔
      s.HasSite Γ κ site ∨ RowHasSite (Γ.extend s.declared?.toList) κ rest site := by
  constructor
  · rintro ⟨before, s', rest', heq, h⟩
    cases before with
    | nil =>
      obtain ⟨rfl, rfl⟩ := List.cons.inj heq
      exact .inl (by simpa [declaredIn] using h)
    | cons first before =>
      obtain ⟨rfl, rfl⟩ := List.cons.inj heq
      exact .inr ⟨before, s', rest', rfl, by rwa [Surroundings.extend_extend, ← declaredIn_cons]⟩
  · rintro (h | ⟨before, s', rest', rfl, h⟩)
    · exact ⟨[], s, rest, rfl, by simpa [declaredIn] using h⟩
    · exact ⟨s :: before, s', rest', rfl, by rwa [declaredIn_cons, ← Surroundings.extend_extend]⟩

theorem hasSite_expression {value : Expr Nat} :
    (expression value).HasSite Γ κ site ↔ value.HasSite Γ κ site :=
  ⟨fun h => by cases h; assumption, .expression⟩

theorem hasSite_print {value : Expr Nat} :
    (print value).HasSite Γ κ site ↔ value.HasSite Γ κ site :=
  ⟨fun h => by cases h; assumption, .print⟩

theorem hasSite_declare {name : Token} {initial : Option (Expr Nat)} :
    (declare name initial).HasSite Γ κ site ↔
      ∃ e ∈ initial, e.HasSite (Γ.extend [name.lexeme]) κ site := by
  constructor
  · intro h
    cases h with
    | initial h => exact ⟨_, rfl, h⟩
  · rintro ⟨e, rfl, h⟩
    exact .initial h

theorem hasSite_block {body : List (Stmt Nat)} :
    (block body).HasSite Γ κ site ↔ RowHasSite ([] :: Γ) κ body site := by
  constructor
  · intro h
    cases h with
    | block hb h => exact ⟨_, _, _, hb, h⟩
  · exact fun ⟨_, _, _, hb, h⟩ => .block hb h

theorem hasSite_branch {condition : Expr Nat} {yes : Stmt Nat} {no : Option (Stmt Nat)} :
    (branch condition yes no).HasSite Γ κ site ↔
      condition.HasSite Γ κ site ∨ yes.HasSite Γ κ site ∨ ∃ s ∈ no, s.HasSite Γ κ site := by
  constructor
  · intro h
    cases h with
    | condition h => exact .inl h
    | yes h => exact .inr (.inl h)
    | no h => exact .inr (.inr ⟨_, rfl, h⟩)
  · rintro (h | h | ⟨s, rfl, h⟩)
    · exact .condition h
    · exact .yes h
    · exact .no h

theorem hasSite_loop {condition : Expr Nat} {body : Stmt Nat} :
    (loop condition body).HasSite Γ κ site ↔
      condition.HasSite Γ κ site ∨ body.HasSite Γ κ site := by
  constructor
  · intro h
    cases h with
    | test h => exact .inl h
    | repeated h => exact .inr h
  · exact (·.elim .test .repeated)

theorem hasSite_function {routine : Routine (Stmt Nat)} :
    (function routine).HasSite Γ κ site ↔
      routine.HasSite (Γ.extend [routine.name.lexeme]) κ site := by
  constructor
  · intro h
    cases h with
    | body hb h => exact ⟨_, _, _, hb, h⟩
  · exact fun ⟨_, _, _, hb, h⟩ => .body hb h

theorem hasSite_leave {keyword : Token} {value : Option (Expr Nat)} :
    (leave keyword value).HasSite Γ κ site ↔ ∃ e ∈ value, e.HasSite Γ κ site := by
  constructor
  · intro h
    cases h with
    | result h => exact ⟨_, rfl, h⟩
  · rintro ⟨e, rfl, h⟩
    exact .result h

theorem hasSite_klass {name : Token} {parent : Option (Reference Nat)}
    {methods : List (Routine (Stmt Nat))} :
    (klass name parent methods).HasSite Γ κ site ↔
      (∃ r ∈ parent, site = ⟨.variable, r, Γ.extend [name.lexeme], κ⟩) ∨
        ∃ m ∈ methods, m.HasSite (.ofMethods parent.isSome (Γ.extend [name.lexeme]))
          (.ofMethods parent.isSome) site := by
  constructor
  · intro h
    cases h with
    | parent => exact .inl ⟨_, rfl, rfl⟩
    | method hm hb h => exact .inr ⟨_, hm, _, _, _, hb, h⟩
  · rintro (⟨r, rfl, rfl⟩ | ⟨m, hm, _, _, _, hb, h⟩)
    · exact .parent
    · exact .method hm hb h

end Stmt

end Lox
