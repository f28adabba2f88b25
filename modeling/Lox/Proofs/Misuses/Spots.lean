import Lox.Proofs.Distances.Entries

/-! # What can be misused, and where it stands

A spot is a piece of code that the language restricts to some places: a return, `this`,
`super`, the parent of a class, a declaration and the use of a variable. A program has
its spots in the order in which they are looked at, each with its place: the routines
and classes around it, the names declared in front of it, and the variable in whose
initializer it stands. Whether a spot is misused is told from the spot and its place
alone. -/

namespace Lox

/-- Code that surrounds other code, and is more to it than a scope. -/
inductive Enclosure where
  | function
  | method (name : String)
  | klass (hasParent : Bool)
deriving DecidableEq, Repr

namespace Enclosure

def isRoutine : Enclosure → Bool
  | .function | .method _ => true
  | .klass _ => false

def isClass : Enclosure → Bool
  | .klass _ => true
  | .function | .method _ => false

end Enclosure

structure Place where
  /-- what there is around the place, from the innermost outwards -/
  inside : List Enclosure
  /-- the local scopes around it, with the names declared in them so far -/
  scopes : Surroundings
  /-- the local variable in whose initializer the place is -/
  initializing : Option String

namespace Place

/-- Where programs begin. -/
def outermost : Place := ⟨[], [], none⟩

variable (p : Place)

/-- The nearest function or method around a place. -/
def routine? : Option Enclosure := p.inside.find? (·.isRoutine)

/-- The innermost class around a place. -/
def class? : Option Enclosure := p.inside.find? (·.isClass)

/-- The place behind the declaration of some names. -/
def behind (names : List String) : Place := { p with scopes := p.scopes.extend names }

/-- The initializer of a variable. A variable outside all scopes is global. -/
def initializer (name : Token) : Place :=
  ⟨p.inside, p.scopes.extend [name.lexeme], if p.scopes.isEmpty then none else some name.lexeme⟩

def block : Place := { p with scopes := [] :: p.scopes }

/-- A routine, in front of its parameters. -/
def routine (kind : Enclosure) : Place := { p.block with inside := kind :: p.inside }

/-- The class body in which methods stand. -/
def classBody (hasParent : Bool) : Place :=
  { p with inside := .klass hasParent :: p.inside, scopes := .ofMethods hasParent p.scopes }

end Place

inductive Spot where
  | result (keyword : Token) (hasValue : Bool)
  | this (keyword : Token)
  | super (keyword : Token)
  | parent (name above : Token)
  | declaration (name : Token)
  | use (name : Token)

namespace Spot

/-- The token that a report points to. -/
def token : Spot → Token
  | .result keyword _ | .this keyword | .super keyword => keyword
  | .parent _ above => above
  | .declaration name | .use name => name

/-- What is wrong with a spot at a place, in words. -/
def complaint? (p : Place) : Spot → Option String
  | .result _ hasValue =>
    match p.routine? with
    | none => some "Can't return from top-level code."
    | some kind =>
      if hasValue ∧ kind = .method "init" then some "Can't return a value from an initializer."
      else none
  | .this _ => if p.class? = none then some "Can't use 'this' outside of a class." else none
  | .super _ =>
    match p.class? with
    | none => some "Can't use 'super' outside of a class."
    | some (.klass false) => some "Can't use 'super' in a class with no superclass."
    | some _ => none
  | .parent name above =>
    if above.lexeme = name.lexeme then some "A class can't inherit from itself." else none
  | .declaration name =>
    if ∃ names ∈ p.scopes.head?, name.lexeme ∈ names then
      some "Already a variable with this name in this scope."
    else none
  | .use name =>
    if p.initializing = some name.lexeme then
      some "Can't read local variable in its own initializer."
    else none

/-- The report of a spot at a place. -/
def report? (p : Place) (spot : Spot) : Option Diagnostic :=
  (spot.complaint? p).map (⟨spot.token.line, spot.token.place, ·⟩)

end Spot

section Trees

variable {μ : Type}

/-! ## The spots of code -/

mutual

/-- The spots of an expression. They all stand where the expression stands. -/
def Expr.spots : Expr μ → List Spot
  | .literal _ => []
  | .grouping inner => inner.spots
  | .unary _ right => right.spots
  | .binary left _ right | .logical left _ right => left.spots ++ right.spots
  | .name target => [.use target.name]
  | .assign _ value => value.spots
  | .call callee _ arguments => callee.spots ++ Expr.rowSpots arguments
  | .get object _ => object.spots
  | .set object _ value => value.spots ++ object.spots
  | .this keyword => [.this keyword.name]
  | .super keyword _ => [.super keyword.name]

def Expr.rowSpots : List (Expr μ) → List Spot
  | [] => []
  | e :: rest => e.spots ++ Expr.rowSpots rest

end

def Expr.spots? : Option (Expr μ) → List Spot
  | none => []
  | some e => e.spots

/-- The names after the keyword `class`. -/
def Reference.parentSpots? (name : Token) : Option (Reference μ) → List Spot
  | none => []
  | some r => [.parent name r.name, .use r.name]

/-- Parameters are declared one after the other. -/
def Place.params : Place → List Token → List (Place × Spot)
  | _, [] => []
  | p, name :: rest => (p, .declaration name) :: (p.behind [name.lexeme]).params rest

/-- Several spots at one place. -/
def Place.all (p : Place) (spots : List Spot) : List (Place × Spot) := spots.map (p, ·)

mutual

def Stmt.spots : Stmt μ → Place → List (Place × Spot)
  | .expression value, p | .print value, p => p.all value.spots
  | .declare name initial, p =>
    (p, .declaration name) :: (p.initializer name).all (Expr.spots? initial)
  | .block body, p => Stmt.rowSpots body p.block
  | .branch condition yes no, p => p.all condition.spots ++ (yes.spots p ++ Stmt.spots? no p)
  | .loop condition body, p => p.all condition.spots ++ body.spots p
  | .function routine, p =>
    (p, .declaration routine.name) :: Routine.spots .function routine (p.behind [routine.name.lexeme])
  | .leave keyword value, p => (p, .result keyword value.isSome) :: p.all (Expr.spots? value)
  | .klass name parent methods, p =>
    let behind := p.behind [name.lexeme]
    (p, .declaration name) :: (behind.all (Reference.parentSpots? name parent) ++
      Routine.rowSpots methods (behind.classBody parent.isSome))

def Stmt.spots? : Option (Stmt μ) → Place → List (Place × Spot)
  | none, _ => []
  | some s, p => s.spots p

/-- What a statement declares, it declares for the statements behind it. -/
def Stmt.rowSpots : List (Stmt μ) → Place → List (Place × Spot)
  | [], _ => []
  | s :: rest, p => s.spots p ++ Stmt.rowSpots rest (p.behind s.declared?.toList)

/-- Parameters and body share one scope. -/
def Routine.spots (kind : Enclosure) : Routine (Stmt μ) → Place → List (Place × Spot)
  | ⟨_, params, body⟩, p =>
    let inside := p.routine kind
    inside.params params ++ Stmt.rowSpots body (inside.behind (params.map (·.lexeme)))

def Routine.rowSpots : List (Routine (Stmt μ)) → Place → List (Place × Spot)
  | [], _ => []
  | r :: rest, p => Routine.spots (.method r.name.lexeme) r p ++ Routine.rowSpots rest p

end

/-- The reports that a program deserves, in the order of its spots. -/
def Stmt.reports (program : List (Stmt μ)) : List Diagnostic :=
  (Stmt.rowSpots program .outermost).filterMap fun s => s.2.report? s.1

end Trees

/-! ## Numbering changes no spots -/

mutual

theorem Expr.number_spots : ∀ (e : Expr Unit) (n : Nat), (e.number n).1.spots = e.spots
  | .literal _, _ | .name _, _ | .this _, _ | .super _ _, _ => rfl
  | .grouping inner, n => inner.number_spots n
  | .unary _ right, n => right.number_spots n
  | .binary left _ right, n | .logical left _ right, n =>
    congrArg₂ (· ++ ·) (left.number_spots n) (right.number_spots _)
  | .assign _ value, _ => value.number_spots _
  | .call callee _ arguments, n =>
    congrArg₂ (· ++ ·) (callee.number_spots n) (Expr.numberAll_spots arguments _)
  | .get object _, n => object.number_spots n
  | .set object _ value, n => congrArg₂ (· ++ ·) (value.number_spots _) (object.number_spots n)

theorem Expr.numberAll_spots : ∀ (es : List (Expr Unit)) (n : Nat),
    Expr.rowSpots (Expr.numberAll es n).1 = Expr.rowSpots es
  | [], _ => rfl
  | e :: rest, n => congrArg₂ (· ++ ·) (e.number_spots n) (Expr.numberAll_spots rest _)

end

theorem Expr.number?_spots (e : Option (Expr Unit)) (n : Nat) :
    Expr.spots? (Expr.number? e n).1 = Expr.spots? e := by
  cases e with
  | none => rfl
  | some e => exact e.number_spots n

theorem Expr.isSome_number? (e : Option (Expr Unit)) (n : Nat) :
    (Expr.number? e n).1.isSome = e.isSome := by
  cases e <;> rfl

theorem Reference.number?_spots (name : Token) (r : Option (Reference Unit)) (n : Nat) :
    Reference.parentSpots? name (Reference.number? r n).1 = Reference.parentSpots? name r := by
  cases r <;> rfl

theorem Reference.isSome_number? (r : Option (Reference Unit)) (n : Nat) :
    (Reference.number? r n).1.isSome = r.isSome := by
  cases r <;> rfl

theorem Routine.number_name (r : Routine (Stmt Unit)) (n : Nat) : (Routine.number r n).1.name = r.name := by
  cases r
  rfl

mutual

theorem Stmt.number_spots : ∀ (s : Stmt Unit) (n : Nat) (p : Place), (s.number n).1.spots p = s.spots p
  | .expression value, n, p | .print value, n, p => congrArg p.all (value.number_spots n)
  | .declare name initial, n, p =>
    congrArg (fun inner => (p, Spot.declaration name) :: (p.initializer name).all inner)
      (Expr.number?_spots initial n)
  | .block body, n, p => Stmt.numberAll_spots body n p.block
  | .branch condition yes no, n, p =>
    congrArg₂ (· ++ ·) (congrArg p.all (condition.number_spots n))
      (congrArg₂ (· ++ ·) (yes.number_spots _ p) (Stmt.number?_spots no _ p))
  | .loop condition body, n, p =>
    congrArg₂ (· ++ ·) (congrArg p.all (condition.number_spots n)) (body.number_spots _ p)
  | .function routine, n, p => by
    have same := Routine.number_spots .function routine n
    simp only [Stmt.number, Stmt.spots, Routine.number_name, same]
  | .leave keyword value, n, p => by
    simp only [Stmt.number, Stmt.spots, Expr.isSome_number?, Expr.number?_spots]
  | .klass name parent methods, n, p => by
    have same := Routine.numberAll_spots methods
    simp only [Stmt.number, Stmt.spots, Reference.isSome_number?, Reference.number?_spots, same]

theorem Stmt.number?_spots : ∀ (s : Option (Stmt Unit)) (n : Nat) (p : Place),
    Stmt.spots? (Stmt.number? s n).1 p = Stmt.spots? s p
  | none, _, _ => rfl
  | some s, n, p => s.number_spots n p

theorem Stmt.numberAll_spots : ∀ (ss : List (Stmt Unit)) (n : Nat) (p : Place),
    Stmt.rowSpots (Stmt.numberAll ss n).1 p = Stmt.rowSpots ss p
  | [], _, _ => rfl
  | s :: rest, n, p => by
    have first := s.number_spots n p
    have others := Stmt.numberAll_spots rest
    simp only [Stmt.numberAll, Stmt.rowSpots, Stmt.number_declared?, first, others]

theorem Routine.number_spots : ∀ (kind : Enclosure) (r : Routine (Stmt Unit)) (n : Nat) (p : Place),
    Routine.spots kind (Routine.number r n).1 p = Routine.spots kind r p
  | kind, ⟨_, params, body⟩, n, p =>
    congrArg ((p.routine kind).params params ++ ·) (Stmt.numberAll_spots body n _)

theorem Routine.numberAll_spots : ∀ (rs : List (Routine (Stmt Unit))) (n : Nat) (p : Place),
    Routine.rowSpots (Routine.numberAll rs n).1 p = Routine.rowSpots rs p
  | [], _, _ => rfl
  | r :: rest, n, p => by
    have first := Routine.number_spots (.method r.name.lexeme) r n p
    have others := Routine.numberAll_spots rest
    simp only [Routine.numberAll, Routine.rowSpots, Routine.number_name, first, others]

end

end Lox
