import Mathlib.Data.List.Forall2
import Lox.Proofs.Distances.Sites

/-! # The pass enters the sites of what it walks over

Whatever the pass walks over, it goes from site to site: it adds the entry of each
one, and reports those that misuse `this` or `super`, and adds no other entry and no
other such report. By induction over the code, where each piece is walked over in the
scopes that stand around it. -/

namespace Lox

/-! ## Scopes by the names that they declare -/

namespace Surroundings

variable {Γ Δ : Surroundings} {x : String}

/-- Scopes that declare the same names, in whatever order and however often. -/
def Same (Γ Δ : Surroundings) : Prop := List.Forall₂ (fun a b => ∀ x, x ∈ a ↔ x ∈ b) Γ Δ

theorem Same.distance? (h : Γ.Same Δ) (x : String) : Γ.distance? x = Δ.distance? x := by
  induction h with
  | nil => rfl
  | cons names _ ih => simp only [distance?_cons, names x, ih]

theorem Same.declare (h : Γ.Same Δ) (x : String) : (Γ.declare x).Same (Δ.extend [x]) := by
  cases h with
  | nil => exact .nil
  | @cons a b _ _ names outer =>
    refine .cons (fun y => ?_) outer
    by_cases hx : x ∈ a
    · have hb : x ∈ b := (names x).mp hx
      simp only [List.contains_iff_mem, hx, if_true, names y, List.mem_append, List.mem_singleton]
      exact ⟨.inl, fun h => h.elim id fun e => e ▸ hb⟩
    · simp [hx, names y]

end Surroundings

namespace Walk

variable {Γ : Surroundings} {κ : ClassContext} {w w₁ w₂ w₃ : Walk}

/-- The pass has come to a place. -/
structure At (Γ : Surroundings) (κ : ClassContext) (w : Walk) : Prop where
  scopes : w.surroundings.Same Γ
  klass : w.klass = κ

theorem At.congr (h : w.At Γ κ) (hs : w₁.scopes = w.scopes) (hk : w₁.klass = w.klass) :
    w₁.At Γ κ :=
  ⟨by rw [surroundings_congr hs]; exact h.scopes, hk.trans h.klass⟩

theorem At.declare (h : w.At Γ κ) (name : Token) :
    (w.declare name).At (Γ.extend [name.lexeme]) κ :=
  ⟨by rw [declare_surroundings]; exact h.scopes.declare _, (declare_adds name w).klass.trans h.klass⟩

theorem At.define_declare (h : w.At Γ κ) (name : Token) :
    ((w.declare name).define name).At (Γ.extend [name.lexeme]) κ :=
  ⟨by rw [define_declare_surroundings]; exact h.scopes.declare _,
    (define_declare_adds name w).klass.trans h.klass⟩

theorem At.openClass (h : w.At Γ κ) (name : Token) :
    (w.openClass name).At (Γ.extend [name.lexeme]) .klass :=
  At.define_declare (w := { w with klass := .klass }) ⟨h.scopes, rfl⟩ name

theorem At.enter (h : w.At Γ κ) : w.enter.At ([] :: Γ) κ :=
  ⟨.cons (fun _ => Iff.rfl) h.scopes, h.klass⟩

theorem At.enterWith (h : w.At Γ κ) (name : String) : (w.enterWith name).At ([name] :: Γ) κ :=
  ⟨.cons (fun _ => Iff.rfl) h.scopes, h.klass⟩

theorem At.params (h : w.At Γ κ) (params : List Token) :
    (params.foldl (fun w p => (w.declare p).define p) w).At (Γ.extend (params.map (·.lexeme))) κ := by
  induction params generalizing w Γ with
  | nil => simpa using h
  | cons p rest ih => simpa using ih (h.define_declare p)

/-- Behind a well-formed statement its own name is declared. -/
theorem At.stmt {T : Token → Prop} (h : w.At Γ κ) {s : Stmt Nat} (hs : s.WellFormed T) :
    (s.resolve w).At (Γ.extend s.declared?.toList) κ := by
  refine ⟨?_, (s.resolve_adds w).klass.trans h.klass⟩
  rw [s.resolve_surroundings w hs, Surroundings.after]
  cases s.declared? with
  | none => simpa using h.scopes
  | some x => exact h.scopes.declare x

/-- Behind a branch or the body of a loop the place is what it was. -/
theorem At.branch {T : Token → Prop} (h : w.At Γ κ) {s : Stmt Nat} (hs : s.WellFormed T)
    (hd : s.declared? = none) : (s.resolve w).At Γ κ := by
  simpa [hd] using h.stmt hs

theorem At.expr (h : w.At Γ κ) (e : Expr Nat) : (e.resolve w).At Γ κ :=
  h.congr (e.resolve_scopes w) (e.resolve_adds w).klass

end Walk

/-! ## Entries and reports for a row of sites -/

/-- Misuses of `this` and of `super`. -/
def Misuse.ofReceiver : Misuse → Bool
  | .thisOutsideClass | .superOutsideClass | .superWithoutParent => true
  | _ => false

namespace Walk

variable {Γ : Surroundings} {κ : ClassContext} {w w₁ w₂ w₃ : Walk} {a b : List Site}

def receiverReports (w : Walk) : List MisuseError := w.errors.toList.filter (·.misuse.ofReceiver)

/-- From one state of the pass to another it has met the given sites, one after the
other. -/
structure Meets (sites : List Site) (w w' : Walk) : Prop where
  entries : w'.entries.toList = w.entries.toList ++ sites.filterMap Site.entry?
  reports : w'.receiverReports = w.receiverReports ++ sites.filterMap Site.report?

/-- Only entries and reports count. -/
theorem Meets.still (hn : w₁.entries = w.entries) (he : w₁.errors = w.errors) : w.Meets [] w₁ :=
  ⟨by simp [hn], by simp [receiverReports, he]⟩

theorem Meets.refl (w : Walk) : w.Meets [] w := .still rfl rfl

/-- Scopes and contexts may change in between. -/
theorem Meets.trans (h₁ : w.Meets a w₁) (h₂ : w₂.Meets b w₃) (hn : w₂.entries = w₁.entries)
    (he : w₂.errors = w₁.errors) : w.Meets (a ++ b) w₃ := by
  constructor
  · rw [h₂.entries, hn, h₁.entries, List.filterMap_append, List.append_assoc]
  · have : w₂.receiverReports = w₁.receiverReports := by simp only [receiverReports, he]
    rw [h₂.reports, this, h₁.reports, List.filterMap_append, List.append_assoc]

theorem report_meets (misuse : Misuse) (token : Token) (w : Walk) (h : misuse.ofReceiver = false) :
    w.Meets [] (w.report misuse token) :=
  ⟨by simp [report], by simp [report, receiverReports, h]⟩

theorem mark_meets (name : Token) (complete : Bool) (w : Walk) :
    w.Meets [] (w.mark name complete) := by
  unfold mark
  split
  · exact .refl w
  · exact .still rfl rfl

theorem declare_meets (name : Token) (w : Walk) : w.Meets [] (w.declare name) := by
  unfold declare
  split
  · exact (report_meets .redeclaration name w rfl).trans (mark_meets ..) rfl rfl
  · exact mark_meets ..

theorem define_declare_meets (name : Token) (w : Walk) :
    w.Meets [] ((w.declare name).define name) :=
  (declare_meets name w).trans (mark_meets ..) rfl rfl

theorem openClass_meets (name : Token) (w : Walk) : w.Meets [] (w.openClass name) :=
  have declared := define_declare_meets name { w with klass := .klass }
  ⟨declared.entries, declared.reports⟩

theorem params_meets (params : List Token) (w : Walk) :
    w.Meets [] (params.foldl (fun w p => (w.declare p).define p) w) := by
  induction params generalizing w with
  | nil => exact .refl w
  | cons p rest ih => exact (define_declare_meets p w).trans (ih _) rfl rfl

theorem leave_meets (keyword : Token) (hasValue : Bool) (w : Walk) :
    w.Meets [] (w.leave keyword hasValue) := by
  unfold leave
  dsimp only
  split <;> split
  · exact (report_meets _ keyword w rfl).trans (report_meets _ keyword _ rfl) rfl rfl
  · exact report_meets _ keyword w rfl
  · exact report_meets _ keyword w rfl
  · exact .refl w

/-- A reference that is no misuse is entered by its distance. -/
theorem refer_meets (w : Walk) (h : w.surroundings.Same Γ) (kind : ReferenceKind) (r : Reference Nat)
    (hm : Site.misuse? ⟨kind, r, Γ, κ⟩ = none) : w.Meets [⟨kind, r, Γ, κ⟩] (w.refer kind r) := by
  have hd : w.distance? r.name.lexeme = Γ.distance? r.name.lexeme :=
    (distance?_eq w _).trans (h.distance? _)
  have hr : Site.report? ⟨kind, r, Γ, κ⟩ = none := by simp [Site.report?, hm]
  have he : Site.entry? ⟨kind, r, Γ, κ⟩ = (Γ.distance? r.name.lexeme).map (⟨kind, r, ·⟩) := by
    simp [Site.entry?, hm, Site.name]
  unfold refer
  rw [hd]
  cases hΓ : Γ.distance? r.name.lexeme with
  | none => exact ⟨by simp [he, hΓ], by simp [hr]⟩
  | some hops => exact ⟨by simp [he, hΓ], by simp [hr, receiverReports]⟩

theorem read_meets (w : Walk) (h : w.surroundings.Same Γ) (r : Reference Nat) :
    w.Meets [⟨.variable, r, Γ, κ⟩] (w.read r) := by
  unfold read
  dsimp only
  split
  · have reported := report_meets .ownInitializer r.name w rfl
    exact reported.trans (refer_meets (w.report .ownInitializer r.name) h .variable r rfl) rfl rfl
  · exact refer_meets w h .variable r rfl

/-- A misused reference is reported and has no entry. -/
theorem misuse_meets (w : Walk) (site : Site) {misuse : Misuse} (h : site.misuse? = some misuse)
    (hr : misuse.ofReceiver = true) : w.Meets [site] (w.report misuse site.reference.name) :=
  ⟨by simp [report, Site.entry?, h], by simp [report, receiverReports, Site.report?, h, hr]⟩

theorem this_meets (h : w.At Γ κ) (r : Reference Nat) : w.Meets [⟨.this, r, Γ, κ⟩] (w.this r) := by
  obtain ⟨hs, rfl⟩ := h
  unfold this
  cases hk : w.klass with
  | none => exact misuse_meets w ⟨.this, r, Γ, .none⟩ rfl rfl
  | klass => exact refer_meets w hs .this r rfl
  | subclass => exact refer_meets w hs .this r rfl

theorem super_meets (h : w.At Γ κ) (r : Reference Nat) : w.Meets [⟨.super, r, Γ, κ⟩] (w.super r) := by
  obtain ⟨hs, rfl⟩ := h
  unfold super
  cases hk : w.klass with
  | none => exact misuse_meets w ⟨.super, r, Γ, .none⟩ rfl rfl
  | klass => exact misuse_meets w ⟨.super, r, Γ, .klass⟩ rfl rfl
  | subclass => exact refer_meets w hs .super r rfl

theorem readParent_meets (κ : ClassContext) (h : w.surroundings.Same Γ) (name : Token)
    (r : Reference Nat) :
    w.Meets [⟨.variable, r, Γ, κ⟩] (w.readParent name r) := by
  unfold readParent
  split
  · have reported := report_meets .selfInheritance r.name w rfl
    exact reported.trans
      (read_meets { w.report .selfInheritance r.name with klass := .subclass } h r) rfl rfl
  · exact (Meets.refl w).trans (read_meets { w with klass := .subclass } h r) rfl rfl

end Walk

/-! ## The sites of code, and a walk over them -/

/-- A row of just the sites with the given property, with the given marks. -/
structure Site.Lists (P : Site → Prop) (marks : List Nat) (sites : List Site) : Prop where
  mem : ∀ site, site ∈ sites ↔ P site
  marks : (sites.map (·.reference.mark)).Perm marks

/-- From one state of the pass to another it has met just the sites with the given
property. -/
def Walk.Finds (P : Site → Prop) (marks : List Nat) (w w' : Walk) : Prop :=
  ∃ sites, Site.Lists P marks sites ∧ w.Meets sites w'

namespace Walk.Finds

variable {P Q : Site → Prop} {a b : List Nat} {w w₁ w₂ w₃ : Walk}

theorem congr (hPQ : ∀ site, Q site ↔ P site) (h : w.Finds P a w₁) : w.Finds Q a w₁ := by
  obtain ⟨sites, ⟨mem, marks⟩, meets⟩ := h
  exact ⟨sites, ⟨fun site => (mem site).trans (hPQ site).symm, marks⟩, meets⟩

theorem none (h : w.Meets [] w₁) (hP : ∀ site, ¬ P site) : w.Finds P [] w₁ :=
  ⟨[], ⟨fun site => by simp [hP site], .nil⟩, h⟩

theorem one {site : Site} (h : w.Meets [site] w₁) :
    w.Finds (· = site) [site.reference.mark] w₁ :=
  ⟨[site], ⟨fun _ => List.mem_singleton, .refl _⟩, h⟩

/-- Scopes and contexts may change in between. -/
theorem trans (h₁ : w.Finds P a w₁) (h₂ : w₂.Finds Q b w₃) (hn : w₂.entries = w₁.entries)
    (he : w₂.errors = w₁.errors) : w.Finds (fun site => P site ∨ Q site) (a ++ b) w₃ := by
  obtain ⟨sites, ⟨mem, marks⟩, meets⟩ := h₁
  obtain ⟨sites', ⟨mem', marks'⟩, meets'⟩ := h₂
  refine ⟨sites ++ sites', ⟨fun site => ?_, ?_⟩, meets.trans meets' hn he⟩
  · rw [List.mem_append, mem, mem']
  · rw [List.map_append]
    exact marks.append marks'

/-- The same, for a walk that goes over the second piece of some code first. -/
theorem swap (h : w.Finds P (a ++ b) w₁) : w.Finds P (b ++ a) w₁ := by
  obtain ⟨sites, ⟨mem, marks⟩, meets⟩ := h
  exact ⟨sites, ⟨mem, marks.trans List.perm_append_comm⟩, meets⟩

/-- Before and after the sites nothing need be found. -/
theorem between (h : w₁.Finds P a w₂) (h₁ : w.Meets [] w₁) (h₂ : w₂.Meets [] w₃) :
    w.Finds P a w₃ := by
  obtain ⟨sites, lists, meets⟩ := h
  refine ⟨sites, lists, ?_⟩
  simpa using (h₁.trans meets rfl rfl).trans h₂ rfl rfl

end Walk.Finds

section Code

variable {Γ : Surroundings} {κ : ClassContext} {T : Token → Prop}

-- An assignment and a set are walked over from the right, so the sites come in another order
-- than the marks.
mutual

theorem Expr.resolve_finds : ∀ (e : Expr Nat) (w : Walk), w.At Γ κ →
    w.Finds (e.HasSite Γ κ) e.marks (e.resolve w)
  | .literal _, w, _ => .none (.refl w) fun _ => Expr.not_hasSite_literal
  | .grouping inner, w, h => (inner.resolve_finds w h).congr fun _ => Expr.hasSite_grouping
  | .unary _ right, w, h => (right.resolve_finds w h).congr fun _ => Expr.hasSite_unary
  | .binary left _ right, w, h =>
    ((left.resolve_finds w h).trans (right.resolve_finds _ (h.expr left)) rfl rfl).congr
      fun _ => Expr.hasSite_binary
  | .logical left _ right, w, h =>
    ((left.resolve_finds w h).trans (right.resolve_finds _ (h.expr left)) rfl rfl).congr
      fun _ => Expr.hasSite_logical
  | .name target, _, h =>
    (Walk.Finds.one (Walk.read_meets _ h.scopes target)).congr fun _ => Expr.hasSite_name
  | .assign target value, w, h =>
    have target := Walk.Finds.one (Walk.refer_meets _ (h.expr value).scopes .assignment target rfl)
    ((value.resolve_finds w h).trans target rfl rfl).swap.congr fun _ => Expr.hasSite_assign
  | .call callee _ arguments, w, h =>
    ((callee.resolve_finds w h).trans (Expr.resolveAll_finds arguments _ (h.expr callee)) rfl
      rfl).congr fun _ => Expr.hasSite_call
  | .get object _, w, h => (object.resolve_finds w h).congr fun _ => Expr.hasSite_get
  | .set object _ value, w, h =>
    ((value.resolve_finds w h).trans (object.resolve_finds _ (h.expr value)) rfl rfl).swap.congr
      fun _ => Expr.hasSite_set
  | .this keyword, _, h =>
    (Walk.Finds.one (Walk.this_meets h keyword)).congr fun _ => Expr.hasSite_this
  | .super keyword _, _, h =>
    (Walk.Finds.one (Walk.super_meets h keyword)).congr fun _ => Expr.hasSite_super

theorem Expr.resolveAll_finds : ∀ (es : List (Expr Nat)) (w : Walk), w.At Γ κ →
    w.Finds (fun site => ∃ e ∈ es, e.HasSite Γ κ site) (Expr.allMarks es) (Expr.resolveAll es w)
  | [], w, _ => .none (.refl w) fun _ => by simp
  | e :: rest, w, h =>
    ((e.resolve_finds w h).trans (Expr.resolveAll_finds rest _ (h.expr e)) rfl rfl).congr
      fun _ => by simp

end

theorem Expr.resolve?_finds (e : Option (Expr Nat)) (w : Walk) (h : w.At Γ κ) :
    w.Finds (fun site => ∃ e' ∈ e, e'.HasSite Γ κ site) (Expr.marks? e) (Expr.resolve? e w) := by
  cases e with
  | none => exact .none (.refl w) fun _ => by simp
  | some e => exact (e.resolve_finds w h).congr fun _ => by simp

mutual

theorem Stmt.resolve_finds : ∀ (s : Stmt Nat) {Γ : Surroundings} {κ : ClassContext} (w : Walk),
    s.WellFormed T → w.At Γ κ → w.Finds (s.HasSite Γ κ) s.marks (s.resolve w)
  | .expression value, _, _, w, _, h => (value.resolve_finds w h).congr fun _ => Stmt.hasSite_expression
  | .print value, _, _, w, _, h => (value.resolve_finds w h).congr fun _ => Stmt.hasSite_print
  | .declare name initial, _, _, w, _, h =>
    ((Expr.resolve?_finds initial _ (h.declare name)).between (w.declare_meets name)
      (Walk.mark_meets ..)).congr fun _ => Stmt.hasSite_declare
  | .block body, _, _, w, hs, h =>
    .congr (fun _ => Stmt.hasSite_block)
      ((Stmt.resolveAll_finds body w.enter hs h.enter).between (.still rfl rfl) (.still rfl rfl))
  | .branch condition yes no, _, _, w, ⟨_, ⟨hy, hd⟩, hn⟩, h =>
    have behind := h.expr condition
    ((condition.resolve_finds w h).trans ((yes.resolve_finds _ hy behind).trans
      (Stmt.resolve?_finds no _ hn (behind.branch hy hd)) rfl rfl) rfl rfl).congr
      fun _ => Stmt.hasSite_branch
  | .loop condition body, _, _, w, ⟨_, hb, _⟩, h =>
    ((condition.resolve_finds w h).trans (body.resolve_finds _ hb (h.expr condition)) rfl
      rfl).congr fun _ => Stmt.hasSite_loop
  | .function routine, _, _, w, hs, h =>
    ((Routine.resolve_finds .function routine _ hs (h.define_declare routine.name)).between
      (w.define_declare_meets routine.name) (.refl _)).congr fun _ => Stmt.hasSite_function
  | .leave keyword value, _, _, w, _, h =>
    ((Expr.resolve?_finds value _ (h.congr (w.leave_scopes keyword value.isSome)
      (w.leave_adds keyword value.isSome).klass)).between (w.leave_meets keyword value.isSome)
      (.refl _)).congr fun _ => Stmt.hasSite_leave
  | .klass name none methods, Γ, _, w, ⟨_, _, hm⟩, h => by
    have found := Routine.resolveAll_finds methods _ hm ((h.openClass name).enterWith "this")
    have before := w.openClass_meets name
    refine .congr (fun site => ?_) (found.between ⟨before.entries, before.reports⟩ (.still rfl rfl))
    simp [Stmt.hasSite_klass, Surroundings.ofMethods, ClassContext.ofMethods]
  | .klass name (some parent) methods, Γ, κ, w, ⟨_, _, hm⟩, h => by
    have declared := h.openClass name
    -- The parent is read where the class is declared, outside the scopes of `super` and `this`.
    have read : Walk.At (Γ.extend [name.lexeme]) .subclass (Walk.readParent name parent _) :=
      ⟨by rw [Walk.surroundings_congr (Walk.readParent_scopes ..)]; exact declared.scopes,
        (Walk.readParent_adds ..).klass⟩
    have found := Routine.resolveAll_finds methods _ hm ((read.enterWith "super").enterWith "this")
    have before := w.openClass_meets name
    have both := (Walk.Finds.one (Walk.readParent_meets κ declared.scopes name parent)).trans found
      rfl rfl
    refine .congr (fun site => ?_) (both.between ⟨before.entries, before.reports⟩ (.still rfl rfl))
    simp [Stmt.hasSite_klass, Surroundings.ofMethods, ClassContext.ofMethods]

theorem Stmt.resolve?_finds : ∀ (s : Option (Stmt Nat)) {Γ : Surroundings} {κ : ClassContext}
    (w : Walk), Stmt.WellFormed? T s → w.At Γ κ →
    w.Finds (fun site => ∃ s' ∈ s, s'.HasSite Γ κ site) (Stmt.marks? s) (Stmt.resolve? s w)
  | none, _, _, w, _, _ => .none (.refl w) fun _ => by simp
  | some s, _, _, w, ⟨hs, _⟩, h => (s.resolve_finds w hs h).congr fun _ => by simp

theorem Stmt.resolveAll_finds : ∀ (ss : List (Stmt Nat)) {Γ : Surroundings} {κ : ClassContext}
    (w : Walk), Stmt.AllWellFormed T ss → w.At Γ κ →
    w.Finds (Stmt.RowHasSite Γ κ ss) (Stmt.allMarks ss) (Stmt.resolveAll ss w)
  | [], _, _, w, _, _ => .none (.refl w) fun _ => Stmt.not_rowHasSite_nil
  | s :: rest, _, _, w, ⟨hs, hr⟩, h =>
    ((s.resolve_finds w hs h).trans (Stmt.resolveAll_finds rest _ hr (h.stmt hs)) rfl rfl).congr
      fun _ => Stmt.rowHasSite_cons

theorem Routine.resolve_finds : ∀ (context : RoutineContext) (r : Routine (Stmt Nat))
    {Γ : Surroundings} {κ : ClassContext} (w : Walk), Routine.WellFormed T r → w.At Γ κ →
    w.Finds (r.HasSite Γ κ) (Routine.marks r) (Routine.resolve context r w)
  | context, ⟨_, params, body⟩, Γ, κ, w, ⟨_, _, hb⟩, h => by
    have inside : Walk.At ([] :: Γ) κ { w with routine := context }.enter := ⟨h.enter.scopes, h.klass⟩
    have found := Stmt.resolveAll_finds body _ hb (inside.params params)
    have before := Walk.params_meets params { w with routine := context }.enter
    exact found.between ⟨before.entries, before.reports⟩ (.still rfl rfl)

theorem Routine.resolveAll_finds : ∀ (rs : List (Routine (Stmt Nat))) {Γ : Surroundings}
    {κ : ClassContext} (w : Walk), Routine.AllWellFormed T rs → w.At Γ κ →
    w.Finds (fun site => ∃ r ∈ rs, r.HasSite Γ κ site) (Routine.allMarks rs)
      (Routine.resolveAll rs w)
  | [], _, _, w, _, _ => .none (.refl w) fun _ => by simp
  | r :: rest, _, _, w, ⟨hr, hs⟩, h =>
    have behind := h.congr (Routine.resolve_scopes (.ofMethod r.name) r w)
      (Routine.resolve_adds (.ofMethod r.name) r w).klass
    ((Routine.resolve_finds (.ofMethod r.name) r w hr h).trans
      (Routine.resolveAll_finds rest _ hs behind) rfl rfl).congr fun _ => by simp

end

end Code

end Lox
