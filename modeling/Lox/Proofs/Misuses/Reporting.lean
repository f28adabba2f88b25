import Lox.Proofs.Misuses.Walking
import Lox.Proofs.ParsedTrees

/-! # A program is reported for its misused spots, and for nothing else

One spot and then, by induction over the code, a whole program: what the pass adds to its
reports are those of the spots that it has come to, in their order. -/

namespace Lox

namespace Walk

variable {p : Place} {w w₁ w₂ w₃ : Walk} {a b : List Diagnostic}

def diagnostics (w : Walk) : List Diagnostic := w.errors.toList.map (·.diagnostic)

/-- From one state of the pass to another just the given reports have been made. -/
def Tells (reports : List Diagnostic) (w w' : Walk) : Prop :=
  w'.diagnostics = w.diagnostics ++ reports

theorem Tells.still (h : w₁.errors = w.errors) : w.Tells [] w₁ := by
  rw [Tells, diagnostics, diagnostics, h, List.append_nil]

/-- Scopes, entries and contexts may change in between. -/
theorem Tells.trans (h₁ : w.Tells a w₁) (h₂ : w₂.Tells b w₃) (he : w₂.errors = w₁.errors) :
    w.Tells (a ++ b) w₃ := by
  have same : w₂.diagnostics = w₁.diagnostics := by rw [diagnostics, diagnostics, he]
  rw [Tells, show w₃.diagnostics = _ from h₂, same, show w₁.diagnostics = _ from h₁,
    List.append_assoc]

/-- What happens before or after without a report. -/
theorem Tells.between (h : w₁.Tells a w₂) (h₁ : w₁.errors = w.errors) (h₂ : w₃.errors = w₂.errors) :
    w.Tells a w₃ := by
  unfold Tells diagnostics at *
  rw [h₂, ← h₁]
  exact h

theorem report_tells (misuse : Misuse) (token : Token) (w : Walk) :
    w.Tells [⟨token.line, token.place, misuse.message⟩] (w.report misuse token) := by
  simp [Tells, diagnostics, report, MisuseError.diagnostic]

@[simp] theorem mark_errors (name : Token) (complete : Bool) (w : Walk) :
    (w.mark name complete).errors = w.errors := by
  unfold mark
  split <;> rfl

theorem mark_congr (h : w₁.scopes = w.scopes) (name : Token) (complete : Bool) :
    (w₁.mark name complete).scopes = (w.mark name complete).scopes := by
  unfold mark
  rw [h]
  cases hs : w.scopes with
  | nil => exact h
  | cons scope outer => rfl

/-- What a declaration does to the scopes depends on the scopes alone. -/
theorem define_declare_congr (h : w₁.scopes = w.scopes) (name : Token) :
    ((w₁.declare name).define name).scopes = ((w.declare name).define name).scopes := by
  refine mark_congr ?_ name true
  unfold declare
  split <;> split <;> exact mark_congr (by simpa using h) name false

/-- That a class is around the declaration already makes no difference to the scopes. -/
theorem openClass_scopes (name : Token) (w : Walk) :
    (w.openClass name).scopes = ((w.declare name).define name).scopes :=
  define_declare_congr (show { w with klass := .klass }.scopes = w.scopes from rfl) name

theorem openClass_routine (name : Token) (w : Walk) :
    (w.openClass name).routine = ((w.declare name).define name).routine :=
  (w.openClass_adds name).routine.trans (w.define_declare_adds name).routine.symm

@[simp] theorem refer_errors (kind : ReferenceKind) (r : Reference Nat) (w : Walk) :
    (w.refer kind r).errors = w.errors := by
  unfold refer
  split <;> rfl

/-! ## Spots -/

/-- A spot that is misused is reported. -/
theorem misused_tells {spot : Spot} {misuse : Misuse}
    (h : spot.complaint? p = some misuse.message) :
    w.Tells (Spot.reports [(p, spot)]) (w.report misuse spot.token) := by
  have told := report_tells misuse spot.token w
  have reports : Spot.reports [(p, spot)] = [⟨spot.token.line, spot.token.place, misuse.message⟩] := by
    simp [Spot.reports, Spot.report?, h]
  rwa [← reports] at told

/-- Any other spot is not. -/
theorem used_tells {spot : Spot} (h : spot.complaint? p = none) (he : w₁.errors = w.errors) :
    w.Tells (Spot.reports [(p, spot)]) w₁ := by
  have reports : Spot.reports [(p, spot)] = [] := by
    simp [Spot.reports, Spot.report?, h]
  rw [reports]
  exact .still he

theorem declaresHere_iff (h : w.surroundings.Same p.scopes) (name : Token) :
    w.declaresHere name = true ↔ ∃ names ∈ p.scopes.head?, name.lexeme ∈ names := by
  unfold declaresHere
  unfold surroundings at h
  generalize p.scopes = Γ at h ⊢
  cases hs : w.scopes with
  | nil =>
    rw [hs] at h
    cases h
    simp
  | cons scope outer =>
    rw [hs] at h
    cases h with
    | cons names _ => simp [Bindings.contains_eq, names]

theorem declare_tells (h : w.surroundings.Same p.scopes) (name : Token) :
    w.Tells (Spot.reports [(p, .declaration name)]) (w.declare name) := by
  have known := declaresHere_iff h name
  unfold declare
  by_cases hd : w.declaresHere name = true
  · rw [if_pos hd]
    have misused : (Spot.declaration name).complaint? p = some Misuse.redeclaration.message :=
      if_pos (known.mp hd)
    exact (misused_tells misused).between rfl (mark_errors ..)
  · rw [if_neg hd]
    exact used_tells (if_neg (known.not.mp hd)) (mark_errors ..)

theorem define_declare_tells (h : w.surroundings.Same p.scopes) (name : Token) :
    w.Tells (Spot.reports [(p, .declaration name)]) ((w.declare name).define name) :=
  (declare_tells h name).between rfl (mark_errors ..)

theorem openClass_tells (h : w.surroundings.Same p.scopes) (name : Token) :
    w.Tells (Spot.reports [(p, .declaration name)]) (w.openClass name) :=
  (define_declare_tells (w := { w with klass := .klass }) h name).between rfl rfl

theorem params_tells (h : w.Ready p) (params : List Token) :
    w.Tells (Spot.reports (p.params params))
      (params.foldl (fun w p => (w.declare p).define p) w) := by
  induction params generalizing w p with
  | nil => exact .still rfl
  | cons t rest ih =>
    rw [Place.params, Spot.reports_cons]
    exact (define_declare_tells h.scopes t).trans (ih (h.define_declare t)) rfl

theorem read_tells (h : ∀ x, w.Incomplete x ↔ p.initializing = some x) (r : Reference Nat) :
    w.Tells (Spot.reports [(p, .use r.name)]) (w.read r) := by
  have known : (w.scopes.head?.any fun scope => scope.get? r.name.lexeme == some false) = true ↔
      p.initializing = some r.name.lexeme := by
    rw [← h, Incomplete, Option.any_eq_true]
    simp
  unfold read
  dsimp only
  by_cases hi : p.initializing = some r.name.lexeme
  · rw [if_pos (known.mpr hi)]
    have misused : (Spot.use r.name).complaint? p = some Misuse.ownInitializer.message := if_pos hi
    exact (misused_tells misused).between rfl (refer_errors ..)
  · rw [if_neg (known.not.mpr hi)]
    exact used_tells (if_neg hi) (refer_errors ..)

theorem class?_isClass {kind : Enclosure} (h : p.class? = some kind) :
    ∃ hasParent, kind = .klass hasParent := by
  have found := List.find?_some h
  cases kind with
  | klass hasParent => exact ⟨hasParent, rfl⟩
  | _ => cases found

theorem this_tells (h : w.Stands p) (r : Reference Nat) :
    w.Tells (Spot.reports [(p, .this r.name)]) (w.this r) := by
  have known := h.klass
  unfold this
  cases hc : p.class? with
  | none =>
    have outside : w.klass = .none := by rw [known, hc]; rfl
    have misused : (Spot.this r.name).complaint? p = some Misuse.thisOutsideClass.message := if_pos hc
    rw [if_pos outside]
    exact misused_tells misused
  | some kind =>
    obtain ⟨hasParent, rfl⟩ := class?_isClass hc
    have inside : w.klass ≠ .none := by
      rw [known, hc]
      cases hasParent <;> simp [Enclosure.classContext, ClassContext.ofMethods]
    rw [if_neg inside]
    exact used_tells (if_neg (by rw [hc]; exact nofun)) (refer_errors ..)

theorem super_tells (h : w.Stands p) (r : Reference Nat) :
    w.Tells (Spot.reports [(p, .super r.name)]) (w.super r) := by
  have known := h.klass
  unfold super
  cases hc : p.class? with
  | none =>
    have outside : w.klass = .none := by rw [known, hc]; rfl
    rw [outside]
    have misused : (Spot.super r.name).complaint? p = some Misuse.superOutsideClass.message := by
      rw [Spot.complaint?, hc]
      rfl
    exact misused_tells misused
  | some kind =>
    obtain ⟨hasParent, rfl⟩ := class?_isClass hc
    have inside : w.klass = .ofMethods hasParent := by rw [known, hc]; rfl
    rw [inside]
    cases hasParent with
    | false =>
      have misused : (Spot.super r.name).complaint? p = some Misuse.superWithoutParent.message := by
        rw [Spot.complaint?, hc]
        rfl
      exact misused_tells misused
    | true => exact used_tells (by rw [Spot.complaint?, hc]) (refer_errors ..)

theorem leave_tells (h : w.Stands p) (keyword : Token) (hasValue : Bool) :
    w.Tells (Spot.reports [(p, .result keyword hasValue)]) (w.leave keyword hasValue) := by
  have known := h.routine
  unfold leave
  dsimp only
  cases hr : p.routine? with
  | none =>
    have outside : w.routine = .none := by rw [known, hr]; rfl
    have misused : (Spot.result keyword hasValue).complaint? p = some Misuse.topLevelReturn.message := by
      rw [Spot.complaint?, hr]
      rfl
    have rest :
        ¬ (hasValue && decide ((w.report .topLevelReturn keyword).routine = .initializer)) = true := by
      simp [report, outside]
    rw [if_pos outside, if_neg rest]
    exact misused_tells misused
  | some kind =>
    have context : w.routine = kind.routineContext := by rw [known, hr]; rfl
    have isRoutine : kind.isRoutine = true := List.find?_some hr
    have inside : w.routine ≠ .none := by
      rw [context]
      cases kind with
      | function => simp [Enclosure.routineContext]
      | method name => by_cases e : name = initializerName <;> simp [Enclosure.routineContext, e]
      | klass hasParent => cases isRoutine
    have initializer : w.routine = .initializer ↔ kind = .method "init" := by
      rw [context]
      cases kind <;> simp [Enclosure.routineContext, initializerName]
    rw [if_neg inside]
    by_cases bad : hasValue = true ∧ kind = .method "init"
    · have misused : (Spot.result keyword hasValue).complaint? p =
          some Misuse.initializerValue.message := by
        rw [Spot.complaint?, hr]
        exact if_pos bad
      rw [if_pos (by simp [bad.1, initializer.mpr bad.2])]
      exact misused_tells misused
    · rw [if_neg (by simpa [initializer] using bad)]
      exact used_tells (by rw [Spot.complaint?, hr]; exact if_neg bad) rfl

/-- The parent of a class is looked at where the class is declared. -/
theorem readParent_tells (h : ∀ x, w.Incomplete x ↔ p.initializing = some x) (name : Token)
    (r : Reference Nat) :
    w.Tells (Spot.reports (p.all (Reference.parentSpots? name (some r)))) (w.readParent name r) := by
  rw [Reference.parentSpots?, Place.all, List.map_cons, Spot.reports_cons]
  unfold readParent
  by_cases own : r.name.lexeme = name.lexeme
  · have misused : (Spot.parent name r.name).complaint? p = some Misuse.selfInheritance.message :=
      if_pos own
    rw [if_pos (beq_iff_eq.mpr own)]
    refine (misused_tells misused).trans (read_tells ?_ r) rfl
    exact h
  · have used : (Spot.parent name r.name).complaint? p = none := if_neg own
    rw [if_neg (by simpa using own)]
    refine (used_tells used rfl).trans (read_tells ?_ r) rfl
    exact h

end Walk

/-! ## Code -/

mutual

theorem Expr.resolve_tells : ∀ (e : Expr Nat) {p : Place} (w : Walk), w.Stands p →
    w.Tells (Spot.reports (p.all e.spots)) (e.resolve w)
  | .literal _, _, _, _ => .still rfl
  | .grouping inner, _, w, h => inner.resolve_tells w h
  | .unary _ right, _, w, h => right.resolve_tells w h
  | .binary left _ right, p, w, h | .logical left _ right, p, w, h => by
    rw [Expr.spots, Place.all_append, Spot.reports_append]
    exact (left.resolve_tells w h).trans (right.resolve_tells _ (h.expr left)) rfl
  | .name target, _, w, h => Walk.read_tells h.incomplete target
  | .assign target value, _, w, h => (value.resolve_tells w h).between rfl (Walk.refer_errors ..)
  | .call callee _ arguments, p, w, h => by
    rw [Expr.spots, Place.all_append, Spot.reports_append]
    exact (callee.resolve_tells w h).trans (Expr.resolveAll_tells arguments _ (h.expr callee)) rfl
  | .get object _, _, w, h => object.resolve_tells w h
  | .set object _ value, p, w, h => by
    rw [Expr.spots, Place.all_append, Spot.reports_append]
    exact (value.resolve_tells w h).trans (object.resolve_tells _ (h.expr value)) rfl
  | .this keyword, _, w, h => Walk.this_tells h keyword
  | .super keyword _, _, w, h => Walk.super_tells h keyword

theorem Expr.resolveAll_tells : ∀ (es : List (Expr Nat)) {p : Place} (w : Walk), w.Stands p →
    w.Tells (Spot.reports (p.all (Expr.rowSpots es))) (Expr.resolveAll es w)
  | [], _, _, _ => .still rfl
  | e :: rest, p, w, h => by
    rw [Expr.rowSpots, Place.all_append, Spot.reports_append]
    exact (e.resolve_tells w h).trans (Expr.resolveAll_tells rest _ (h.expr e)) rfl

end

theorem Expr.resolve?_tells (e : Option (Expr Nat)) {p : Place} (w : Walk) (h : w.Stands p) :
    w.Tells (Spot.reports (p.all (Expr.spots? e))) (Expr.resolve? e w) := by
  cases e with
  | none => exact .still rfl
  | some e => exact e.resolve_tells w h

section Statements

variable {T : Token → Prop}

/-- Behind a statement its own name is declared, and the pass knows of it. -/
theorem Walk.Ready.stmt {p : Place} {w : Walk} (h : w.Ready p) {s : Stmt Nat} (hs : s.WellFormed T) :
    (s.resolve w).Ready (p.behind s.declared?.toList) := by
  have adds := s.resolve_adds w
  have place : w.At p.scopes w.klass := ⟨h.scopes, rfl⟩
  exact .of_complete (place.stmt hs).scopes (s.resolve_complete w h.complete)
    (adds.routine.trans h.routine) (adds.klass.trans h.klass) h.idle

/-- Behind an arm of a statement the place is what it was. -/
theorem Walk.Ready.arm {p : Place} {w : Walk} (h : w.Ready p) {s : Stmt Nat} (hs : s.WellFormed T)
    (hd : s.declared? = none) : (s.resolve w).Ready p := by
  have behind := h.stmt hs
  simpa [hd, Place.behind] using behind

mutual

theorem Stmt.resolve_tells : ∀ (s : Stmt Nat) {p : Place} (w : Walk), s.WellFormed T → w.Ready p →
    w.Tells (Spot.reports (s.spots p)) (s.resolve w)
  | .expression value, _, w, _, h | .print value, _, w, _, h => value.resolve_tells w h.toStands
  | .declare name initial, p, w, _, h => by
    rw [Stmt.spots, Spot.reports_cons]
    exact ((Walk.declare_tells h.scopes name).trans
      (Expr.resolve?_tells initial _ (h.initializer name)) rfl).between rfl (Walk.mark_errors ..)
  | .block body, _, w, hs, h => (Stmt.resolveAll_tells body _ hs h.block).between rfl rfl
  | .branch condition yes no, p, w, ⟨_, ⟨hy, hd⟩, hn⟩, h => by
    rw [Stmt.spots, Spot.reports_append, Spot.reports_append]
    have behind := h.expr condition
    exact (condition.resolve_tells w h.toStands).trans ((yes.resolve_tells _ hy behind).trans
      (Stmt.resolve?_tells no _ hn (behind.arm hy hd)) rfl) rfl
  | .loop condition body, p, w, ⟨_, hb, _⟩, h => by
    rw [Stmt.spots, Spot.reports_append]
    exact (condition.resolve_tells w h.toStands).trans
      (body.resolve_tells _ hb (h.expr condition)) rfl
  | .function routine, p, w, hs, h => by
    rw [Stmt.spots, Spot.reports_cons]
    exact (Walk.define_declare_tells h.scopes routine.name).trans
      (Routine.resolve_tells .function routine _ rfl hs (h.define_declare routine.name)) rfl
  | .leave keyword value, p, w, _, h => by
    rw [Stmt.spots, Spot.reports_cons]
    have inside : (w.leave keyword value.isSome).Stands p := h.toStands.congr (w.leave_scopes ..)
      (w.leave_adds keyword value.isSome).routine (w.leave_adds keyword value.isSome).klass
    exact (Walk.leave_tells h.toStands keyword value.isSome).trans
      (Expr.resolve?_tells value _ inside) rfl
  | .klass name none methods, p, w, ⟨_, _, hm⟩, h => by
    have behind := (h.define_declare name).classBody (w.openClass_scopes name)
      (w.openClass_routine name) (w.openClass_adds name).klass
    rw [Stmt.spots, Spot.reports_cons]
    exact ((Walk.openClass_tells h.scopes name).trans
      (Routine.resolveAll_tells methods _ hm behind) rfl).between rfl rfl
  | .klass name (some parent) methods, p, w, ⟨_, _, hm⟩, h => by
    have ready := h.define_declare name
    have incomplete : ∀ x, (w.openClass name).Incomplete x ↔ _ := fun x =>
      (Walk.incomplete_congr (w.openClass_scopes name)).trans (ready.incomplete x)
    have read := Walk.readParent_tells incomplete name parent
    have adds := (w.openClass name).readParent_adds name parent
    have behind := ready.subclassBody
      (((w.openClass name).readParent_scopes name parent).trans (w.openClass_scopes name))
      (adds.routine.trans (w.openClass_routine name)) adds.klass
    rw [Stmt.spots, Spot.reports_cons, Spot.reports_append]
    exact ((Walk.openClass_tells h.scopes name).trans
      (read.trans (Routine.resolveAll_tells methods _ hm behind) rfl) rfl).between rfl rfl

theorem Stmt.resolve?_tells : ∀ (s : Option (Stmt Nat)) {p : Place} (w : Walk),
    Stmt.WellFormed? T s → w.Ready p →
    w.Tells (Spot.reports (Stmt.spots? s p)) (Stmt.resolve? s w)
  | none, _, _, _, _ => .still rfl
  | some s, _, w, ⟨hs, _⟩, h => s.resolve_tells w hs h

theorem Stmt.resolveAll_tells : ∀ (ss : List (Stmt Nat)) {p : Place} (w : Walk),
    Stmt.AllWellFormed T ss → w.Ready p →
    w.Tells (Spot.reports (Stmt.rowSpots ss p)) (Stmt.resolveAll ss w)
  | [], _, _, _, _ => .still rfl
  | s :: rest, p, w, ⟨hs, hr⟩, h => by
    rw [Stmt.rowSpots, Spot.reports_append]
    exact (s.resolve_tells w hs h).trans (Stmt.resolveAll_tells rest _ hr (h.stmt hs)) rfl

theorem Routine.resolve_tells : ∀ (kind : Enclosure) (r : Routine (Stmt Nat)) {p : Place} (w : Walk),
    kind.isRoutine = true → Routine.WellFormed T r → w.Ready p →
    w.Tells (Spot.reports (Routine.spots kind r p)) (Routine.resolve kind.routineContext r w)
  | kind, ⟨_, params, body⟩, p, w, hk, ⟨_, _, hb⟩, h => by
    rw [Routine.spots, Spot.reports_append]
    have inside := h.routineBody hk
    exact ((Walk.params_tells inside params).trans
      (Stmt.resolveAll_tells body _ hb (inside.params params)) rfl).between rfl rfl

theorem Routine.resolveAll_tells : ∀ (rs : List (Routine (Stmt Nat))) {p : Place} (w : Walk),
    Routine.AllWellFormed T rs → w.Ready p →
    w.Tells (Spot.reports (Routine.rowSpots rs p)) (Routine.resolveAll rs w)
  | [], _, _, _, _ => .still rfl
  | r :: rest, p, w, ⟨hr, hs⟩, h => by
    rw [Routine.rowSpots, Spot.reports_append]
    have adds := Routine.resolve_adds (.ofMethod r.name) r w
    have behind := h.congr (Routine.resolve_scopes (.ofMethod r.name) r w) adds.routine adds.klass
    exact (Routine.resolve_tells (.method r.name.lexeme) r w rfl hr h).trans
      (Routine.resolveAll_tells rest _ hs behind) rfl

end

end Statements

/-- What the pass reports of a well-formed program is told by the spots of the program,
whatever numbers its references have. -/
theorem resolve_reports {T : Token → Prop} {program : List (Stmt Unit)}
    (formed : Stmt.AllWellFormed T program) (n : Nat) :
    (resolve (Stmt.numberAll program n).1).errors.map (·.diagnostic) = Stmt.reports program := by
  have start : Walk.start.Ready .outermost :=
    .of_complete .nil (by simp [Walk.Incomplete, Walk.start]) rfl rfl rfl
  have told := Stmt.resolveAll_tells (Stmt.numberAll program n).1 .start
    (Stmt.numberAll_wellFormed program n formed) start
  rw [Stmt.numberAll_spots] at told
  exact Eq.trans told (List.nil_append _)

/-- The pass reports the misused spots of a program that has been read, in the order in
which it comes to them, each with the token and the words for what is wrong with it. It
reports nothing else, whatever else is wrong with the program. -/
theorem misuses_reported (tokens : List Token) (n : Nat) :
    let program := (parse tokens).statements
    (resolve (Stmt.numberAll program n).1).errors.map (·.diagnostic) = Stmt.reports program := by
  intro program
  have formed : Stmt.AllWellFormed (fun _ => True) program := parse_wellFormed fun _ _ => trivial
  exact resolve_reports formed n

/-- One misuse does not hide another, nor does it make one of what follows. -/
example :
    let source := "class A < A { init(a, a) { return super.b; } } { var b = this; var b = b; } return;"
    (Stmt.reports (parse (scan source).tokens).statements).map (·.message) =
      ["A class can't inherit from itself.", "Already a variable with this name in this scope.",
        "Can't return a value from an initializer.", "Can't use 'this' outside of a class.",
        "Already a variable with this name in this scope.",
        "Can't read local variable in its own initializer.", "Can't return from top-level code."] := by
  decide +kernel

end Lox
