import Lox.Proofs.Misuses.Spots

/-! # The pass reports the misused spots

While it walks over code, the pass knows of the place what the rules ask for: its scopes
declare the names that the place has, its two contexts are the nearest routine and the
innermost class around it, and a name of its innermost scope is incomplete in an
initializer of that name only. By induction over the code it then reports each spot as
the rules say, and comes to the next statement with the same knowledge. -/

namespace Lox

namespace Enclosure

/-- What a routine is to the pass. -/
def routineContext : Enclosure → RoutineContext
  | .function => .function
  | .method name => if name == initializerName then .initializer else .method
  | .klass _ => .none

/-- What a class is to the pass. -/
def classContext : Enclosure → ClassContext
  | .klass hasParent => .ofMethods hasParent
  | .function | .method _ => .none

end Enclosure

/-- The reports of spots at their places. -/
def Spot.reports (spots : List (Place × Spot)) : List Diagnostic :=
  spots.filterMap fun s => s.2.report? s.1

namespace Spot

@[simp] theorem reports_nil : reports [] = [] := rfl

theorem reports_append (a b : List (Place × Spot)) : reports (a ++ b) = reports a ++ reports b :=
  List.filterMap_append

theorem reports_cons (s : Place × Spot) (rest : List (Place × Spot)) :
    reports (s :: rest) = reports [s] ++ reports rest :=
  reports_append [s] rest

end Spot

namespace Place

theorem all_append (p : Place) (a b : List Spot) : p.all (a ++ b) = p.all a ++ p.all b :=
  List.map_append

end Place

namespace Walk

variable {p : Place} {w w₁ w₂ w₃ : Walk} {x : String}

/-- The innermost scope declares a name that has no value yet. -/
def Incomplete (w : Walk) (x : String) : Prop := ∃ scope ∈ w.scopes.head?, scope.get? x = some false

/-- What the pass knows of the place that it has come to. -/
structure Stands (w : Walk) (p : Place) : Prop where
  scopes : w.surroundings.Same p.scopes
  incomplete : ∀ x, w.Incomplete x ↔ p.initializing = some x
  routine : w.routine = (p.routine?.map (·.routineContext)).getD .none
  klass : w.klass = (p.class?.map (·.classContext)).getD .none

/-- The pass has come to a place where a statement can stand. -/
structure Ready (w : Walk) (p : Place) : Prop extends Walk.Stands w p where
  idle : p.initializing = none

theorem incomplete_congr (h : w₁.scopes = w.scopes) : w₁.Incomplete x ↔ w.Incomplete x := by
  rw [Incomplete, Incomplete, h]

theorem incomplete_mark (name : Token) (complete : Bool) :
    (w.mark name complete).Incomplete x ↔
      if x = name.lexeme then w.scopes ≠ [] ∧ complete = false else w.Incomplete x := by
  unfold mark Incomplete
  cases hs : w.scopes with
  | nil => simp [hs]
  | cons scope outer =>
    by_cases hx : x = name.lexeme
    · simp [Bindings.get?_set, hx]
    · simp [Bindings.get?_set, hx]

theorem incomplete_define (name : Token) :
    (w.define name).Incomplete x ↔ x ≠ name.lexeme ∧ w.Incomplete x := by
  rw [define, incomplete_mark]
  by_cases hx : x = name.lexeme <;> simp [hx]

theorem incomplete_declare (name : Token) :
    (w.declare name).Incomplete x ↔
      if x = name.lexeme then w.scopes ≠ [] else w.Incomplete x := by
  unfold declare
  split
  · rw [incomplete_mark, report_scopes]
    simp only [and_true]
    exact Iff.rfl
  · rw [incomplete_mark]
    simp only [and_true]

theorem incomplete_define_declare (name : Token) :
    ((w.declare name).define name).Incomplete x ↔ x ≠ name.lexeme ∧ w.Incomplete x := by
  rw [incomplete_define, incomplete_declare]
  by_cases hx : x = name.lexeme <;> simp [hx]

/-! ## Going from place to place -/

namespace Stands

theorem congr (h : w.Stands p) (hs : w₁.scopes = w.scopes) (hr : w₁.routine = w.routine)
    (hk : w₁.klass = w.klass) : w₁.Stands p where
  scopes := by rw [surroundings_congr hs]; exact h.scopes
  incomplete x := (incomplete_congr hs).trans (h.incomplete x)
  routine := hr.trans h.routine
  klass := hk.trans h.klass

theorem expr (h : w.Stands p) (e : Expr Nat) : (e.resolve w).Stands p :=
  h.congr (e.resolve_scopes w) (e.resolve_adds w).routine (e.resolve_adds w).klass

end Stands

namespace Ready

theorem congr (h : w.Ready p) (hs : w₁.scopes = w.scopes) (hr : w₁.routine = w.routine)
    (hk : w₁.klass = w.klass) : w₁.Ready p :=
  ⟨h.toStands.congr hs hr hk, h.idle⟩

theorem expr (h : w.Ready p) (e : Expr Nat) : (e.resolve w).Ready p := ⟨h.toStands.expr e, h.idle⟩

theorem complete (h : w.Ready p) (x : String) : ¬ w.Incomplete x := by
  rw [h.incomplete, h.idle]
  exact nofun

/-- A place is described by its scopes and contexts if no name is incomplete. -/
theorem of_complete (scopes : w.surroundings.Same p.scopes) (complete : ∀ x, ¬ w.Incomplete x)
    (routine : w.routine = (p.routine?.map (·.routineContext)).getD .none)
    (klass : w.klass = (p.class?.map (·.classContext)).getD .none) (idle : p.initializing = none) :
    w.Ready p :=
  ⟨⟨scopes, fun x => iff_of_false (complete x) (by rw [idle]; exact nofun), routine, klass⟩, idle⟩

theorem define_declare (h : w.Ready p) (name : Token) :
    ((w.declare name).define name).Ready (p.behind [name.lexeme]) := by
  have adds := w.define_declare_adds name
  refine of_complete ?_ ?_ (adds.routine.trans h.routine) (adds.klass.trans h.klass) h.idle
  · rw [define_declare_surroundings]
    exact h.scopes.declare _
  · intro x hx
    exact h.complete x ((incomplete_define_declare name).mp hx).2

theorem initializer (h : w.Ready p) (name : Token) :
    (w.declare name).Stands (p.initializer name) := by
  have adds := w.declare_adds name
  refine ⟨?_, fun x => ?_, adds.routine.trans h.routine, adds.klass.trans h.klass⟩
  · rw [declare_surroundings]
    exact h.scopes.declare _
  · have outside : w.scopes = [] ↔ p.scopes = [] := by
      have same := h.scopes.length_eq
      rw [surroundings, List.length_map] at same
      rw [← List.length_eq_zero_iff, same, List.length_eq_zero_iff]
    rw [incomplete_declare, Place.initializer]
    by_cases hx : x = name.lexeme
    · by_cases hp : p.scopes = [] <;> simp [hx, hp, outside]
    · simp [hx, h.complete x, Ne.symm hx]

theorem block (h : w.Ready p) : w.enter.Ready p.block :=
  of_complete (.cons (fun _ => Iff.rfl) h.scopes) (by simp [Incomplete, enter]) h.routine h.klass h.idle

theorem routineBody (h : w.Ready p) {kind : Enclosure} (hk : kind.isRoutine = true) :
    { w with routine := kind.routineContext }.enter.Ready (p.routine kind) := by
  refine of_complete (.cons (fun _ => Iff.rfl) h.scopes) (by simp [Incomplete, enter]) ?_ ?_ h.idle
  · simp [Place.routine, Place.routine?, hk, enter]
  · cases kind with
    | klass => cases hk
    | _ => exact h.klass

theorem params (h : w.Ready p) (params : List Token) :
    (params.foldl (fun w p => (w.declare p).define p) w).Ready (p.behind (params.map (·.lexeme))) := by
  induction params generalizing w p with
  | nil => simpa [Place.behind] using h
  | cons t rest ih => simpa [Place.behind] using ih (h.define_declare t)

/-- The names that the scopes of a class body declare have their values. -/
theorem complete_enterWith (name : String) : ¬ (w.enterWith name).Incomplete x := by
  rintro ⟨scope, hs, hx⟩
  simp only [enterWith, List.head?_cons, Option.mem_def, Option.some.injEq] at hs
  rw [← hs, Bindings.get?_set] at hx
  by_cases e : x = name <;> simp [e] at hx

/-- The body of a class without a parent. -/
theorem classBody (h : w.Ready p) {inside : Walk} (hs : inside.scopes = w.scopes)
    (hr : inside.routine = w.routine) (hk : inside.klass = .klass) :
    (inside.enterWith "this").Ready (p.classBody false) := by
  refine of_complete (.cons (fun _ => Iff.rfl) ?_) (fun x => complete_enterWith _)
    (hr.trans h.routine) hk h.idle
  change Surroundings.Same inside.surroundings p.scopes
  rw [surroundings_congr hs]
  exact h.scopes

/-- The body of a class with a parent. -/
theorem subclassBody (h : w.Ready p) {inside : Walk} (hs : inside.scopes = w.scopes)
    (hr : inside.routine = w.routine) (hk : inside.klass = .subclass) :
    ((inside.enterWith "super").enterWith "this").Ready (p.classBody true) := by
  refine of_complete (.cons (fun _ => Iff.rfl) (.cons (fun _ => Iff.rfl) ?_))
    (fun x => complete_enterWith _) (hr.trans h.routine) hk h.idle
  change Surroundings.Same inside.surroundings p.scopes
  rw [surroundings_congr hs]
  exact h.scopes

end Ready

end Walk

/-- A statement leaves no name incomplete. -/
theorem Stmt.resolve_complete : ∀ (s : Stmt Nat) (w : Walk), (∀ x, ¬ w.Incomplete x) →
    ∀ x, ¬ (s.resolve w).Incomplete x
  | .expression value, w, h, x | .print value, w, h, x =>
    (Walk.incomplete_congr (value.resolve_scopes w)).not.mpr (h x)
  | .declare name initial, w, h, x => fun hx => by
    obtain ⟨other, inner⟩ := (Walk.incomplete_define name).mp hx
    rw [Walk.incomplete_congr (Expr.resolve?_scopes initial _), Walk.incomplete_declare,
      if_neg other] at inner
    exact h x inner
  | .block body, w, h, x => fun hx =>
    h x ((Walk.incomplete_congr (Stmt.resolveAll_tail body w.enter)).mp hx)
  | .branch condition yes no, w, h, x => by
    have behind : ∀ x, ¬ (yes.resolve (condition.resolve w)).Incomplete x :=
      yes.resolve_complete _ fun x => (Walk.incomplete_congr (condition.resolve_scopes w)).not.mpr (h x)
    cases no with
    | none => exact behind x
    | some no => exact no.resolve_complete _ behind x
  | .loop condition body, w, h, x =>
    body.resolve_complete _ (fun x => (Walk.incomplete_congr (condition.resolve_scopes w)).not.mpr (h x)) x
  | .function routine, w, h, x => fun hx => by
    have inner := (Walk.incomplete_congr (Routine.resolve_scopes .function routine _)).mp hx
    exact h x ((Walk.incomplete_define_declare _).mp inner).2
  | .leave keyword value, w, h, x =>
    (Walk.incomplete_congr ((Expr.resolve?_scopes value _).trans
      (w.leave_scopes keyword value.isSome))).not.mpr (h x)
  | .klass name parent methods, w, h, x => fun hx => by
    have opened := (Walk.incomplete_congr (Stmt.resolve_klass_scopes name parent methods w)).mp hx
    exact h x ((Walk.incomplete_define_declare _).mp opened).2

end Lox
