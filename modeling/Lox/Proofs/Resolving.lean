import Lox.Resolution.Walk
import Lox.Proofs.Fits
import Lox.Proofs.Spelling

/-! # The pass gives code the addresses that fit it

First what the pass leaves alone: it only adds entries, for references of the code
it walks over, and it leaves the scopes as they were but for the names declared in
the innermost one. Then, by induction over the code, that a walk without reports
makes the code fit its place under the addresses that the walk has recorded. -/

namespace Lox

namespace Walk

variable {t : Table} {w w₁ w₂ w₃ : Walk} {a b : List Nat}

def surroundings (w : Walk) : Surroundings := w.scopes.map Bindings.names

theorem distance?_eq (w : Walk) (name : String) :
    w.distance? name = w.surroundings.distance? name := by
  simp only [distance?, Surroundings.distance?, surroundings, List.findIdx?_map]
  congr 1
  funext b
  exact b.contains_eq name

/-! ## What a walk adds -/

/-- From one state of the walk to another only entries for the given marks have been
added, and reports. -/
structure Logs (marks : List Nat) (w w' : Walk) : Prop where
  errors : w.errors.toList <+: w'.errors.toList
  entries : ∃ new, w'.entries.toList = w.entries.toList ++ new ∧ ∀ e ∈ new, e.reference.mark ∈ marks

/-- The same, with the contexts as they were before. -/
structure Adds (marks : List Nat) (w w' : Walk) : Prop extends Logs marks w w' where
  routine : w'.routine = w.routine
  klass : w'.klass = w.klass

/-- Walks follow each other also if scopes or contexts change in between. -/
theorem Logs.trans (h₁ : w.Logs a w₁) (h₂ : w₂.Logs b w₃) (he : w₂.errors = w₁.errors)
    (hn : w₂.entries = w₁.entries) : w.Logs (a ++ b) w₃ := by
  obtain ⟨new₁, he₁, hm₁⟩ := h₁.entries
  obtain ⟨new₂, he₂, hm₂⟩ := h₂.entries
  refine ⟨h₁.errors.trans (he ▸ h₂.errors), new₁ ++ new₂, ?_, ?_⟩
  · rw [he₂, hn, he₁, List.append_assoc]
  intro e hm
  rcases List.mem_append.mp hm with hm | hm
  · exact List.mem_append_left _ (hm₁ e hm)
  · exact List.mem_append_right _ (hm₂ e hm)

theorem Adds.refl (marks : List Nat) (w : Walk) : w.Adds marks w :=
  ⟨⟨List.prefix_refl _, [], by simp, by simp⟩, rfl, rfl⟩

theorem Adds.trans (h₁ : w.Adds a w₁) (h₂ : w₁.Adds b w₂) : w.Adds (a ++ b) w₂ :=
  ⟨h₁.toLogs.trans h₂.toLogs rfl rfl, h₂.routine.trans h₁.routine, h₂.klass.trans h₁.klass⟩

theorem Adds.mono (h : w.Adds a w₁) (hs : a ⊆ b) : w.Adds b w₁ := by
  obtain ⟨new, he, hm⟩ := h.entries
  exact ⟨⟨h.errors, new, he, fun e hn => hs (hm e hn)⟩, h.routine, h.klass⟩

/-- The same, for a walk that goes over the second part of some code first. -/
theorem Adds.trans' (h₁ : w.Adds b w₁) (h₂ : w₁.Adds a w₂) : w.Adds (a ++ b) w₂ :=
  (h₁.trans h₂).mono fun _ h => List.mem_append.mpr (List.mem_append.mp h).symm

theorem report_adds (misuse : Misuse) (token : Token) (w : Walk) : w.Adds [] (w.report misuse token) :=
  ⟨⟨by simp [report], [], by simp [report], by simp⟩, rfl, rfl⟩

theorem mark_adds (name : Token) (complete : Bool) (w : Walk) : w.Adds [] (w.mark name complete) := by
  unfold mark
  split
  · exact .refl _ _
  · exact ⟨⟨List.prefix_refl _, [], by simp, by simp⟩, rfl, rfl⟩

theorem declare_adds (name : Token) (w : Walk) : w.Adds [] (w.declare name) := by
  unfold declare
  split
  · exact (report_adds _ _ w).trans (mark_adds ..)
  · exact mark_adds ..

theorem refer_adds (kind : ReferenceKind) (r : Reference Nat) (w : Walk) :
    w.Adds [r.mark] (w.refer kind r) := by
  unfold refer
  split
  · rename_i hops _
    exact ⟨⟨List.prefix_refl _, [⟨kind, r, hops⟩], by simp, by simp⟩, rfl, rfl⟩
  · exact .refl _ _

theorem read_adds (r : Reference Nat) (w : Walk) : w.Adds [r.mark] (w.read r) := by
  unfold read
  dsimp only
  split
  · exact (report_adds _ _ w).trans (refer_adds ..)
  · exact refer_adds ..

theorem this_adds (r : Reference Nat) (w : Walk) : w.Adds [r.mark] (w.this r) := by
  unfold this
  split
  · exact (report_adds _ _ w).mono (List.nil_subset _)
  · exact refer_adds ..

theorem super_adds (r : Reference Nat) (w : Walk) : w.Adds [r.mark] (w.super r) := by
  unfold super
  split
  · exact (report_adds _ _ w).mono (List.nil_subset _)
  · exact (report_adds _ _ w).mono (List.nil_subset _)
  · exact refer_adds ..

theorem leave_adds (keyword : Token) (hasValue : Bool) (w : Walk) :
    w.Adds [] (w.leave keyword hasValue) := by
  unfold leave
  dsimp only
  split <;> split
  · exact (report_adds _ _ w).trans (report_adds ..)
  · exact report_adds ..
  · exact report_adds ..
  · exact .refl _ _

/-! ## What a walk does to the scopes -/

@[simp] theorem report_scopes (misuse : Misuse) (token : Token) (w : Walk) :
    (w.report misuse token).scopes = w.scopes := rfl

@[simp] theorem refer_scopes (kind : ReferenceKind) (r : Reference Nat) (w : Walk) :
    (w.refer kind r).scopes = w.scopes := by
  unfold refer
  split <;> rfl

@[simp] theorem read_scopes (r : Reference Nat) (w : Walk) : (w.read r).scopes = w.scopes := by
  unfold read
  dsimp only
  split <;> simp

@[simp] theorem this_scopes (r : Reference Nat) (w : Walk) : (w.this r).scopes = w.scopes := by
  unfold this
  split <;> simp

@[simp] theorem super_scopes (r : Reference Nat) (w : Walk) : (w.super r).scopes = w.scopes := by
  unfold super
  split <;> simp

@[simp] theorem leave_scopes (keyword : Token) (hasValue : Bool) (w : Walk) :
    (w.leave keyword hasValue).scopes = w.scopes := by
  unfold leave
  dsimp only
  split <;> split <;> simp

theorem mark_tail (name : Token) (complete : Bool) (w : Walk) :
    (w.mark name complete).scopes.tail = w.scopes.tail := by
  unfold mark
  split
  · rfl
  · rename_i h
    rw [h]; rfl

theorem mark_surroundings (name : Token) (complete : Bool) (w : Walk) :
    (w.mark name complete).surroundings = w.surroundings.declare name.lexeme := by
  unfold mark surroundings
  split
  · rename_i h
    simp [h, Surroundings.declare]
  · rename_i scope outer h
    simp [h, Surroundings.declare, Bindings.names_set]

theorem declare_tail (name : Token) (w : Walk) : (w.declare name).scopes.tail = w.scopes.tail := by
  unfold declare
  split <;> simp [mark_tail]

theorem declare_surroundings (name : Token) (w : Walk) :
    (w.declare name).surroundings = w.surroundings.declare name.lexeme := by
  unfold declare
  split <;> exact mark_surroundings ..

theorem define_declare_tail (name : Token) (w : Walk) :
    ((w.declare name).define name).scopes.tail = w.scopes.tail := by
  simp [define, mark_tail, declare_tail]

end Walk

theorem Surroundings.declare_declare (x : String) (Γ : Surroundings) :
    (Γ.declare x).declare x = Γ.declare x := by
  cases Γ with
  | nil => rfl
  | cons names outer =>
    by_cases h : x ∈ names <;> simp [declare, h]

namespace Walk

theorem define_declare_surroundings (name : Token) (w : Walk) :
    ((w.declare name).define name).surroundings = w.surroundings.declare name.lexeme := by
  rw [define, mark_surroundings, declare_surroundings, Surroundings.declare_declare]

theorem define_declare_adds (name : Token) (w : Walk) :
    w.Adds [] ((w.declare name).define name) :=
  (declare_adds name w).trans (mark_adds ..)

/-- Reading the parent of a class, before the scope of `super` is entered. -/
def readParent (name : Token) (parent : Reference Nat) (w : Walk) : Walk :=
  { if parent.name.lexeme == name.lexeme then w.report .selfInheritance parent.name else w with
    klass := .subclass }.read parent

theorem readParent_adds (name : Token) (parent : Reference Nat) (w : Walk) :
    { w with klass := .subclass }.Adds [parent.mark] (w.readParent name parent) := by
  unfold readParent
  split
  · exact (report_adds .selfInheritance parent.name { w with klass := .subclass }).trans
      (read_adds ..)
  · exact read_adds ..

/-- Declaring the name of a class, with the class around it already. -/
def openClass (name : Token) (w : Walk) : Walk := ({ w with klass := .klass }.declare name).define name

theorem openClass_adds (name : Token) (w : Walk) :
    { w with klass := .klass }.Adds [] (w.openClass name) := define_declare_adds name _

/-- As in `openClass_adds`, where it does not matter that the context is another. -/
theorem openClass_logs (name : Token) (w : Walk) : w.Logs [] (w.openClass name) :=
  ⟨(w.openClass_adds name).errors, (w.openClass_adds name).entries⟩

theorem openClass_surroundings (name : Token) (w : Walk) :
    (w.openClass name).surroundings = w.surroundings.declare name.lexeme :=
  define_declare_surroundings name _

end Walk

/-! ## Expressions and statements add entries for their own references -/

mutual

theorem Expr.resolve_adds : ∀ (e : Expr Nat) (w : Walk), w.Adds e.marks (e.resolve w)
  | .literal _, w => .refl _ w
  | .grouping inner, w => inner.resolve_adds w
  | .unary _ right, w => right.resolve_adds w
  | .binary left _ right, w | .logical left _ right, w =>
    (left.resolve_adds w).trans (right.resolve_adds _)
  | .name target, w => w.read_adds target
  | .assign target value, w => (value.resolve_adds w).trans' (Walk.refer_adds .assignment target _)
  | .call callee _ arguments, w => (callee.resolve_adds w).trans (Expr.resolveAll_adds arguments _)
  | .get object _, w => object.resolve_adds w
  | .set object _ value, w => (value.resolve_adds w).trans' (object.resolve_adds _)
  | .this keyword, w => w.this_adds keyword
  | .super keyword _, w => w.super_adds keyword

theorem Expr.resolveAll_adds : ∀ (es : List (Expr Nat)) (w : Walk),
    w.Adds (Expr.allMarks es) (Expr.resolveAll es w)
  | [], w => .refl _ w
  | e :: rest, w => (e.resolve_adds w).trans (Expr.resolveAll_adds rest _)

end

theorem Expr.resolve?_adds (e : Option (Expr Nat)) (w : Walk) :
    w.Adds (Expr.marks? e) (Expr.resolve? e w) := by
  cases e with
  | none => exact .refl _ w
  | some e => exact e.resolve_adds w

mutual

theorem Expr.resolve_scopes : ∀ (e : Expr Nat) (w : Walk), (e.resolve w).scopes = w.scopes
  | .literal _, _ => rfl
  | .grouping inner, w => inner.resolve_scopes w
  | .unary _ right, w => right.resolve_scopes w
  | .binary left _ right, w | .logical left _ right, w =>
    (right.resolve_scopes _).trans (left.resolve_scopes w)
  | .name target, w => w.read_scopes target
  | .assign _ value, w => (Walk.refer_scopes ..).trans (value.resolve_scopes w)
  | .call callee _ arguments, w =>
    (Expr.resolveAll_scopes arguments _).trans (callee.resolve_scopes w)
  | .get object _, w => object.resolve_scopes w
  | .set object _ value, w => (object.resolve_scopes _).trans (value.resolve_scopes w)
  | .this keyword, w => w.this_scopes keyword
  | .super keyword _, w => w.super_scopes keyword

theorem Expr.resolveAll_scopes : ∀ (es : List (Expr Nat)) (w : Walk),
    (Expr.resolveAll es w).scopes = w.scopes
  | [], _ => rfl
  | e :: rest, w => (Expr.resolveAll_scopes rest _).trans (e.resolve_scopes w)

end

theorem Expr.resolve?_scopes (e : Option (Expr Nat)) (w : Walk) :
    (Expr.resolve? e w).scopes = w.scopes := by
  cases e with
  | none => rfl
  | some e => exact e.resolve_scopes w

theorem Routine.params_adds (params : List Token) (w : Walk) :
    w.Adds [] (params.foldl (fun w p => (w.declare p).define p) w) := by
  induction params generalizing w with
  | nil => exact .refl _ w
  | cons p rest ih => exact (w.define_declare_adds p).trans (ih _)

mutual

theorem Stmt.resolve_adds : ∀ (s : Stmt Nat) (w : Walk), w.Adds s.marks (s.resolve w)
  | .expression value, w | .print value, w => value.resolve_adds w
  | .declare name initial, w =>
    ((w.declare_adds name).trans (Expr.resolve?_adds initial _)).trans' (Walk.mark_adds ..)
  | .block body, w => by
    have h := Stmt.resolveAll_adds body w.enter
    exact ⟨⟨h.errors, h.entries⟩, h.routine, h.klass⟩
  | .branch condition yes no, w =>
    (condition.resolve_adds w).trans ((yes.resolve_adds _).trans (Stmt.resolve?_adds no _))
  | .loop condition body, w => (condition.resolve_adds w).trans (body.resolve_adds _)
  | .function routine, w =>
    (w.define_declare_adds routine.name).trans (Routine.resolve_adds .function routine _)
  | .leave keyword value, w =>
    (w.leave_adds keyword value.isSome).trans (Expr.resolve?_adds value _)
  | .klass name none methods, w => by
    have hd := w.openClass_adds name
    have hm := Routine.resolveAll_adds methods ((w.openClass name).enterWith "this")
    have h := hd.toLogs.trans hm.toLogs rfl rfl
    exact ⟨⟨h.errors, h.entries⟩, hm.routine.trans hd.routine, rfl⟩
  | .klass name (some parent) methods, w => by
    have hd := w.openClass_adds name
    have hp := (w.openClass name).readParent_adds name parent
    have hm := Routine.resolveAll_adds methods
      ((((w.openClass name).readParent name parent).enterWith "super").enterWith "this")
    have h := hd.toLogs.trans (hp.toLogs.trans hm.toLogs rfl rfl) rfl rfl
    exact ⟨⟨h.errors, h.entries⟩, (hm.routine.trans hp.routine).trans hd.routine, rfl⟩

theorem Stmt.resolve?_adds : ∀ (s : Option (Stmt Nat)) (w : Walk),
    w.Adds (Stmt.marks? s) (Stmt.resolve? s w)
  | none, w => .refl _ w
  | some s, w => s.resolve_adds w

theorem Stmt.resolveAll_adds : ∀ (ss : List (Stmt Nat)) (w : Walk),
    w.Adds (Stmt.allMarks ss) (Stmt.resolveAll ss w)
  | [], w => .refl _ w
  | s :: rest, w => (s.resolve_adds w).trans (Stmt.resolveAll_adds rest _)

theorem Routine.resolve_adds : ∀ (context : RoutineContext) (r : Routine (Stmt Nat)) (w : Walk),
    w.Adds (Routine.marks r) (Routine.resolve context r w)
  | context, ⟨_, params, body⟩, w => by
    have hp := Routine.params_adds params { w with routine := context }.enter
    have h := hp.trans (Stmt.resolveAll_adds body _)
    exact ⟨⟨h.errors, h.entries⟩, rfl, h.klass⟩

theorem Routine.resolveAll_adds : ∀ (rs : List (Routine (Stmt Nat))) (w : Walk),
    w.Adds (Routine.allMarks rs) (Routine.resolveAll rs w)
  | [], w => .refl _ w
  | r :: rest, w => (Routine.resolve_adds _ r w).trans (Routine.resolveAll_adds rest _)

end

/-! ## Statements leave the scopes as they were, but for declared names -/

theorem Walk.readParent_scopes (name : Token) (parent : Reference Nat) (w : Walk) :
    (w.readParent name parent).scopes = w.scopes := by
  unfold Walk.readParent
  split <;> simp

theorem Routine.params_tail (params : List Token) (w : Walk) :
    (params.foldl (fun w p => (w.declare p).define p) w).scopes.tail = w.scopes.tail := by
  induction params generalizing w with
  | nil => rfl
  | cons p rest ih => exact (ih _).trans (w.define_declare_tail p)

mutual

/-- Only the innermost scope changes. -/
theorem Stmt.resolve_tail : ∀ (s : Stmt Nat) (w : Walk), (s.resolve w).scopes.tail = w.scopes.tail
  | .expression value, w | .print value, w => congrArg List.tail (value.resolve_scopes w)
  | .declare name initial, w =>
    (Walk.mark_tail ..).trans ((congrArg List.tail (Expr.resolve?_scopes initial _)).trans
      (w.declare_tail name))
  | .block body, w => congrArg List.tail (Stmt.resolveAll_tail body w.enter)
  | .branch condition yes no, w =>
    (Stmt.resolve?_tail no _).trans ((yes.resolve_tail _).trans
      (congrArg List.tail (condition.resolve_scopes w)))
  | .loop condition body, w =>
    (body.resolve_tail _).trans (congrArg List.tail (condition.resolve_scopes w))
  | .function routine, w =>
    (congrArg List.tail (Routine.resolve_scopes .function routine _)).trans
      (w.define_declare_tail routine.name)
  | .leave keyword value, w =>
    congrArg List.tail ((Expr.resolve?_scopes value _).trans (w.leave_scopes keyword value.isSome))
  | .klass name none methods, _ =>
    (congrArg (List.tail ·.tail) (Routine.resolveAll_scopes methods _)).trans
      (Walk.define_declare_tail name _)
  | .klass name (some parent) methods, _ =>
    (congrArg (List.tail ·.tail.tail) (Routine.resolveAll_scopes methods _)).trans
      ((congrArg List.tail (Walk.readParent_scopes name parent _)).trans
        (Walk.define_declare_tail name _))

theorem Stmt.resolve?_tail : ∀ (s : Option (Stmt Nat)) (w : Walk),
    (Stmt.resolve? s w).scopes.tail = w.scopes.tail
  | none, _ => rfl
  | some s, w => s.resolve_tail w

theorem Stmt.resolveAll_tail : ∀ (ss : List (Stmt Nat)) (w : Walk),
    (Stmt.resolveAll ss w).scopes.tail = w.scopes.tail
  | [], _ => rfl
  | s :: rest, w => (Stmt.resolveAll_tail rest _).trans (s.resolve_tail w)

theorem Routine.resolve_scopes : ∀ (context : RoutineContext) (r : Routine (Stmt Nat)) (w : Walk),
    (Routine.resolve context r w).scopes = w.scopes
  | context, ⟨_, params, body⟩, w =>
    (Stmt.resolveAll_tail body _).trans (Routine.params_tail params { w with routine := context }.enter)

theorem Routine.resolveAll_scopes : ∀ (rs : List (Routine (Stmt Nat))) (w : Walk),
    (Routine.resolveAll rs w).scopes = w.scopes
  | [], _ => rfl
  | r :: rest, w => (Routine.resolveAll_scopes rest _).trans (Routine.resolve_scopes _ r w)

end

/-- A class leaves the scopes as the declaration of its name does. -/
theorem Stmt.resolve_klass_scopes (name : Token) (parent : Option (Reference Nat))
    (methods : List (Routine (Stmt Nat))) (w : Walk) :
    ((Stmt.klass name parent methods).resolve w).scopes = (w.openClass name).scopes := by
  cases parent with
  | none => exact congrArg List.tail (Routine.resolveAll_scopes methods ((w.openClass name).enterWith "this"))
  | some parent =>
    refine Eq.trans ?_ ((w.openClass name).readParent_scopes name parent)
    exact congrArg (List.tail ·.tail) (Routine.resolveAll_scopes methods _)

theorem Walk.surroundings_congr {w w' : Walk} (h : w'.scopes = w.scopes) :
    w'.surroundings = w.surroundings := congrArg (List.map Bindings.names) h

/-- A statement that is no declaration leaves the place as it was. -/
theorem Stmt.resolve_branch {s : Stmt Nat} {w : Walk} (hd : s.declared? = none)
    (h : (s.resolve w).surroundings = w.surroundings.after s) :
    (s.resolve w).surroundings = w.surroundings :=
  h.trans (Surroundings.after_of_none hd)

/-- Behind a well-formed statement only its own declaration is new. -/
theorem Stmt.resolve_surroundings {T : Token → Prop} : ∀ (s : Stmt Nat) (w : Walk), s.WellFormed T →
    (s.resolve w).surroundings = w.surroundings.after s
  | .expression value, w, _ | .print value, w, _ => Walk.surroundings_congr (value.resolve_scopes w)
  | .declare name initial, w, _ => by
    change ((Expr.resolve? initial (w.declare name)).mark name true).surroundings = _
    rw [Walk.mark_surroundings, Walk.surroundings_congr (Expr.resolve?_scopes initial _),
      Walk.declare_surroundings, Surroundings.declare_declare]
    rfl
  | .block body, w, _ => Walk.surroundings_congr (Stmt.resolveAll_tail body w.enter)
  | .branch condition yes none, w, ⟨_, ⟨hy, hd⟩, _⟩ =>
    (Stmt.resolve_branch hd (yes.resolve_surroundings _ hy)).trans
      (Walk.surroundings_congr (condition.resolve_scopes w))
  | .branch condition yes (some no), w, ⟨_, ⟨hy, hd⟩, hn, hd'⟩ =>
    (Stmt.resolve_branch hd' (no.resolve_surroundings _ hn)).trans
      ((Stmt.resolve_branch hd (yes.resolve_surroundings _ hy)).trans
        (Walk.surroundings_congr (condition.resolve_scopes w)))
  | .loop condition body, w, ⟨_, hb, hd⟩ =>
    (Stmt.resolve_branch hd (body.resolve_surroundings _ hb)).trans
      (Walk.surroundings_congr (condition.resolve_scopes w))
  | .function routine, w, _ =>
    (Walk.surroundings_congr (Routine.resolve_scopes .function routine _)).trans
      (w.define_declare_surroundings routine.name)
  | .leave keyword value, w, _ =>
    Walk.surroundings_congr ((Expr.resolve?_scopes value _).trans
      (w.leave_scopes keyword value.isSome))
  | .klass name parent methods, w, _ =>
    (Walk.surroundings_congr (Stmt.resolve_klass_scopes name parent methods w)).trans
      (w.openClass_surroundings name)

/-! ## A walk without reports -/

theorem Table.hops?_recordAll_of_ne {t : Table} {new : List Entry} {i : Nat}
    (h : ∀ e ∈ new, e.reference.mark ≠ i) : (t.recordAll new).hops? i = t.hops? i := by
  induction new generalizing t with
  | nil => rfl
  | cons e rest ih =>
    have he := h e List.mem_cons_self
    have hr := ih (t := t.record e.reference.mark e.hops) fun f hf => h f (List.mem_cons_of_mem _ hf)
    rw [Table.hops?_record, if_neg (Ne.symm he)] at hr
    exact hr

namespace Walk

variable {t : Table} {hops : Nat → Option Nat} {w w₁ w₂ w₃ : Walk} {a b : List Nat}

/-- The address that a table gives once the entries of a walk are recorded in it. -/
def address (t : Table) (w : Walk) (i : Nat) : Option Nat := (t.recordAll w.entries.toList).hops? i

theorem Logs.address (h : w.Logs a w₁) {i : Nat} (hi : i ∉ a) : w₁.address t i = w.address t i := by
  obtain ⟨new, he, hm⟩ := h.entries
  unfold Walk.address
  rw [he, Table.recordAll, List.foldl_append]
  exact Table.hops?_recordAll_of_ne fun e hn heq => hi (heq ▸ hm e hn)

theorem Logs.quiet (h : w.Logs a w₁) (hq : w₁.errors = #[]) : w.errors = #[] := by
  have he := h.errors
  rw [hq] at he
  exact Array.toList_eq_nil_iff.mp (List.prefix_nil.mp he)

/-- A walk without reports over code with the given marks: no mark has an address
before, and afterwards each one has the address that the code is to have. -/
structure Over (t : Table) (hops : Nat → Option Nat) (marks : List Nat) (w w' : Walk) : Prop where
  nodup : marks.Nodup
  clean : ∀ i ∈ marks, w.address t i = none
  agrees : ∀ i ∈ marks, hops i = w'.address t i
  quiet : w'.errors = #[]

/-- A walk over two pieces of code is a walk over each of them. Scopes and contexts
may change in between. -/
theorem Over.split (h : Over t hops (a ++ b) w w₃) (h₁ : w.Logs a w₁) (h₂ : w₂.Logs b w₃)
    (he : w₂.errors = w₁.errors) (hn : w₂.entries = w₁.entries) :
    Over t hops a w w₁ ∧ Over t hops b w₂ w₃ := by
  obtain ⟨ha, hb, hab⟩ := List.nodup_append.mp h.nodup
  have haddress (i : Nat) : w₂.address t i = w₁.address t i := by rw [address, hn]; rfl
  refine ⟨⟨ha, fun i hi => h.clean i (List.mem_append_left _ hi), fun i hi => ?_, ?_⟩,
    ⟨hb, fun i hi => ?_, fun i hi => h.agrees i (List.mem_append_right _ hi), h.quiet⟩⟩
  · rw [h.agrees i (List.mem_append_left _ hi), h₂.address fun hb => hab i hi i hb rfl, haddress]
  · rw [← he]; exact h₂.quiet h.quiet
  · rw [haddress, h₁.address fun ha => hab i ha i hi rfl]
    exact h.clean i (List.mem_append_right _ hi)

/-- The same, for a walk that goes over the second piece first. -/
theorem Over.split' (h : Over t hops (a ++ b) w w₃) (h₁ : w.Logs b w₁) (h₂ : w₁.Logs a w₃) :
    Over t hops b w w₁ ∧ Over t hops a w₁ w₃ := by
  have h' : Over t hops (b ++ a) w w₃ :=
    ⟨List.perm_append_comm.nodup h.nodup,
      fun i hi => h.clean i (List.mem_append.mpr (List.mem_append.mp hi).symm),
      fun i hi => h.agrees i (List.mem_append.mpr (List.mem_append.mp hi).symm), h.quiet⟩
  exact h'.split h₁ h₂ rfl rfl

theorem Over.before (h : Over t hops a w w₃) (h₁ : w.Logs a w₁) (h₂ : w₂.Logs [] w₃)
    (he : w₂.errors = w₁.errors) (hn : w₂.entries = w₁.entries) : Over t hops a w w₁ :=
  (Over.split (b := []) (by rwa [List.append_nil]) h₁ h₂ he hn).1

/-- A new entry gives the distance to the declaration of its name. -/
theorem refer_address (kind : ReferenceKind) (r : Reference Nat) (h : w.address t r.mark = none) :
    (w.refer kind r).address t r.mark = w.surroundings.distance? r.name.lexeme := by
  rw [← distance?_eq]
  unfold refer
  split
  · rename_i d hd
    rw [hd]
    simp [address, Table.recordAll, List.foldl_append, Table.hops?_record]
  · rename_i hd
    rw [hd, h]

end Walk

/-! ## Expressions -/

/-- `this`, and in a class with a parent `super`, are declared around a method. -/
def ClassContext.Inside (κ : ClassContext) (Γ : Surroundings) : Prop :=
  κ ≠ .none → ∃ d, Γ.distance? "this" = some d ∧ (κ = .subclass → Γ.distance? "super" = some (d + 1))

/-- The pending name, if there is one, is incomplete in the innermost scope. -/
def Awaits (scopes : List (Bindings Bool)) (pending : Option String) : Prop :=
  ∀ x, pending = some x → ∀ scope ∈ scopes.head?, scope.get? x = some false

theorem awaits_none (scopes : List (Bindings Bool)) : Awaits scopes none := fun _ hx => by cases hx

section Expressions

open Walk

variable {t : Table} {hops : Nat → Option Nat} {pending : Option String} {w w' : Walk}

theorem Walk.Over.refer {kind : ReferenceKind} {r : Reference Nat}
    (h : Over t hops [r.mark] w (w.refer kind r)) :
    hops r.mark = w.surroundings.distance? r.name.lexeme := by
  rw [h.agrees _ List.mem_cons_self, refer_address kind r (h.clean _ List.mem_cons_self)]

theorem Walk.Over.read {r : Reference Nat} (h : Over t hops [r.mark] w (w.read r)) :
    hops r.mark = w.surroundings.distance? r.name.lexeme ∧
      ∀ scope ∈ w.scopes.head?, scope.get? r.name.lexeme ≠ some false := by
  have hq := h.quiet
  unfold Walk.read at h hq
  dsimp only at h hq
  split at h
  · rename_i hi
    rw [if_pos hi] at hq
    have he := (refer_adds .variable r (w.report .ownInitializer r.name)).quiet hq
    simp [report] at he
  · rename_i hi
    refine ⟨h.refer, fun scope hs hf => hi ?_⟩
    simp only [Option.mem_def] at hs
    simp [hs, hf]

theorem Walk.Over.reads {r : Reference Nat} (h : Over t hops [r.mark] w (w.read r))
    (hp : Awaits w.scopes pending) : r.Reads hops w.surroundings pending := by
  obtain ⟨hd, hi⟩ := h.read
  refine ⟨hd, fun hx => ?_⟩
  cases hs : w.scopes with
  | nil => simp [surroundings, hs]
  | cons scope outer => exact absurd (hp _ hx scope (by rw [hs]; rfl)) (hi scope (by rw [hs]; rfl))

theorem Walk.Over.this {r : Reference Nat} (h : Over t hops [r.mark] w (w.this r))
    (hn : r.name.lexeme = "this") (hκ : w.klass.Inside w.surroundings) :
    ∃ d, hops r.mark = some d ∧ w.surroundings.distance? "this" = some d := by
  have hq := h.quiet
  unfold Walk.this at h hq
  split at h
  · rename_i hk
    simp [hk, report] at hq
  · rename_i hk
    obtain ⟨d, hd, _⟩ := hκ hk
    exact ⟨d, by rw [h.refer, hn, hd], hd⟩

theorem Walk.Over.super {r : Reference Nat} (h : Over t hops [r.mark] w (w.super r))
    (hn : r.name.lexeme = "super") (hκ : w.klass.Inside w.surroundings) :
    ∃ d, hops r.mark = some (d + 1) ∧ w.surroundings.distance? "super" = some (d + 1) ∧
      w.surroundings.distance? "this" = some d := by
  have hq := h.quiet
  unfold Walk.super at h hq
  split at h
  · rename_i hk
    simp [hk, report] at hq
  · rename_i hk
    simp [hk, report] at hq
  · rename_i hk
    obtain ⟨d, hd, hs⟩ := hκ (by rw [hk]; decide)
    exact ⟨d, by rw [h.refer, hn, hs hk], hs hk, hd⟩

/-- The same place and context, behind an expression. -/
theorem Expr.resolve_inside (e : Expr Nat) (hκ : w.klass.Inside w.surroundings) :
    (e.resolve w).klass.Inside (e.resolve w).surroundings := by
  rwa [(e.resolve_adds w).klass, Walk.surroundings_congr (e.resolve_scopes w)]

theorem Expr.resolve_awaits (e : Expr Nat) (hp : Awaits w.scopes pending) :
    Awaits (e.resolve w).scopes pending := by
  rwa [e.resolve_scopes w]

mutual

theorem Expr.resolve_fits : ∀ (e : Expr Nat) (w : Walk), e.WellFormed Token.Spelled →
    Over t hops e.marks w (e.resolve w) → w.klass.Inside w.surroundings → Awaits w.scopes pending →
    e.Fits hops w.surroundings pending
  | .literal _, _, _, _, _, _ => trivial
  | .grouping inner, w, hf, h, hκ, hp => inner.resolve_fits w hf h hκ hp
  | .unary _ right, w, ⟨_, hf⟩, h, hκ, hp => right.resolve_fits w hf h hκ hp
  | .binary left _ right, w, ⟨_, hl, hr⟩, h, hκ, hp
  | .logical left _ right, w, ⟨_, hl, hr⟩, h, hκ, hp => by
    obtain ⟨h₁, h₂⟩ := h.split (left.resolve_adds w).toLogs (right.resolve_adds _).toLogs rfl rfl
    have hright := right.resolve_fits _ hr h₂ (left.resolve_inside hκ) (left.resolve_awaits hp)
    rw [surroundings_congr (left.resolve_scopes w)] at hright
    exact ⟨left.resolve_fits w hl h₁ hκ hp, hright⟩
  | .name _, _, _, h, _, hp => h.reads hp
  | .assign target value, w, ⟨ht, hv⟩, h, hκ, hp => by
    obtain ⟨h₁, h₂⟩ := Over.split' (a := [target.mark]) h (value.resolve_adds w).toLogs
      (refer_adds .assignment target _).toLogs
    have ha := h₂.refer
    rw [surroundings_congr (value.resolve_scopes w)] at ha
    exact ⟨ha, ht.2.identifier_ne ht.1, value.resolve_fits w hv h₁ hκ hp⟩
  | .call callee _ arguments, w, ⟨closed, hc, ha⟩, h, hκ, hp => by
    obtain ⟨h₁, h₂⟩ := h.split (callee.resolve_adds w).toLogs (resolveAll_adds arguments _).toLogs
      rfl rfl
    have hargs := Expr.resolveAll_fits arguments _ ha h₂ (callee.resolve_inside hκ)
      (callee.resolve_awaits hp)
    rw [surroundings_congr (callee.resolve_scopes w)] at hargs
    exact ⟨closed, callee.resolve_fits w hc h₁ hκ hp, hargs⟩
  | .get object _, w, ⟨_, hf⟩, h, hκ, hp => object.resolve_fits w hf h hκ hp
  | .set object _ value, w, ⟨_, ho, hv⟩, h, hκ, hp => by
    obtain ⟨h₁, h₂⟩ := h.split' (value.resolve_adds w).toLogs (object.resolve_adds _).toLogs
    have hobject := object.resolve_fits _ ho h₂ (value.resolve_inside hκ) (value.resolve_awaits hp)
    rw [surroundings_congr (value.resolve_scopes w)] at hobject
    exact ⟨hobject, value.resolve_fits w hv h₁ hκ hp⟩
  | .this _, _, hf, h, hκ, _ => ⟨hf.2.this_eq hf.1, h.this (hf.2.this_eq hf.1) hκ⟩
  | .super _ _, _, hf, h, hκ, _ => h.super (hf.1.2.super_eq hf.1.1) hκ

theorem Expr.resolveAll_fits : ∀ (es : List (Expr Nat)) (w : Walk),
    Expr.AllWellFormed Token.Spelled es → Over t hops (Expr.allMarks es) w (Expr.resolveAll es w) →
    w.klass.Inside w.surroundings → Awaits w.scopes pending →
    Expr.AllFit hops w.surroundings pending es
  | [], _, _, _, _, _ => trivial
  | e :: rest, w, ⟨he, hr⟩, h, hκ, hp => by
    obtain ⟨h₁, h₂⟩ := h.split (e.resolve_adds w).toLogs (resolveAll_adds rest _).toLogs rfl rfl
    have hrest := Expr.resolveAll_fits rest _ hr h₂ (e.resolve_inside hκ) (e.resolve_awaits hp)
    rw [surroundings_congr (e.resolve_scopes w)] at hrest
    exact ⟨e.resolve_fits w he h₁ hκ hp, hrest⟩

end

theorem Expr.resolve?_fits (e : Option (Expr Nat)) (w : Walk)
    (hf : Expr.WellFormed? Token.Spelled e) (h : Over t hops (Expr.marks? e) w (Expr.resolve? e w))
    (hκ : w.klass.Inside w.surroundings) (hp : Awaits w.scopes pending) :
    Expr.Fits? hops w.surroundings pending e := by
  cases e with
  | none => trivial
  | some e => exact e.resolve_fits w hf h hκ hp

end Expressions

/-! ## Statements -/

namespace ClassContext.Inside

variable {κ : ClassContext} {Γ : Surroundings} {x : String}

theorem declare (h : κ.Inside Γ) (hx : Ordinary x) : κ.Inside (Γ.declare x) := by
  intro hκ
  obtain ⟨d, hd, hs⟩ := h hκ
  refine ⟨d, ?_, fun hk => ?_⟩
  · rw [Surroundings.distance?_declare hx.1.symm, hd]
  · rw [Surroundings.distance?_declare hx.2.symm, hs hk]

theorem scope {names : List String} (h : κ.Inside Γ) (hn : ∀ x ∈ names, Ordinary x) :
    κ.Inside (names :: Γ) := by
  intro hκ
  obtain ⟨d, hd, hs⟩ := h hκ
  have hthis : "this" ∉ names := fun hm => (hn _ hm).1 rfl
  have hsuper : "super" ∉ names := fun hm => (hn _ hm).2 rfl
  refine ⟨d + 1, ?_, fun hk => ?_⟩
  · rw [Surroundings.distance?_cons, if_neg hthis, hd]; rfl
  · rw [Surroundings.distance?_cons, if_neg hsuper, hs hk]; rfl

theorem klass (Γ : Surroundings) : ClassContext.klass.Inside (.ofMethods false Γ) := fun _ =>
  ⟨0, by simp [Surroundings.ofMethods, Surroundings.distance?_cons], fun h => by cases h⟩

theorem subclass (Γ : Surroundings) : ClassContext.subclass.Inside (.ofMethods true Γ) := fun _ =>
  ⟨0, by simp [Surroundings.ofMethods, Surroundings.distance?_cons],
    fun _ => by simp [Surroundings.ofMethods, Surroundings.distance?_cons]⟩

end ClassContext.Inside

namespace Walk

variable {w : Walk} {name : Token}

theorem fresh_of_quiet (h : (w.declare name).errors = #[]) : w.surroundings.Fresh name.lexeme := by
  intro names hn hm
  unfold declare at h
  split at h
  · have he := (mark_adds name false (w.report .redeclaration name)).quiet h
    simp [report] at he
  · rename_i hd
    apply hd
    cases hs : w.scopes with
    | nil => simp [surroundings, hs] at hn
    | cons scope outer =>
      simp only [surroundings, hs, List.map_cons, List.head?_cons, Option.mem_def,
        Option.some.injEq] at hn
      simp [declaresHere, hs, Bindings.contains_eq, hn, hm]

theorem fresh_of_define (h : ((w.declare name).define name).errors = #[]) :
    w.surroundings.Fresh name.lexeme := fresh_of_quiet ((mark_adds name true _).quiet h)

theorem fresh_of_openClass (h : (w.openClass name).errors = #[]) : w.surroundings.Fresh name.lexeme :=
  fresh_of_define (w := { w with klass := .klass }) h

theorem declare_awaits : Awaits (w.declare name).scopes (some name.lexeme) := by
  have hmark (v : Walk) : Awaits (v.mark name false).scopes (some name.lexeme) := by
    intro x hx scope hs
    obtain rfl := Option.some.inj hx
    unfold mark at hs
    split at hs
    · rename_i hv
      simp [hv] at hs
    · obtain rfl := Option.some.inj hs
      simp [Bindings.get?_set]
  unfold declare
  split
  · exact hmark _
  · exact hmark _

theorem classBody_surroundings (name : Token) (w : Walk) :
    ((w.openClass name).enterWith "this").surroundings =
      .ofMethods false (w.surroundings.declare name.lexeme) :=
  congrArg (["this"] :: ·) (w.openClass_surroundings name)

theorem subclassBody_surroundings (name : Token) (parent : Reference Nat) (w : Walk) :
    ((((w.openClass name).readParent name parent).enterWith "super").enterWith "this").surroundings =
      .ofMethods true (w.surroundings.declare name.lexeme) := by
  have outside := surroundings_congr ((w.openClass name).readParent_scopes name parent)
  exact congrArg (["this"] :: ["super"] :: ·) (outside.trans (w.openClass_surroundings name))

theorem classBody_inside (name : Token) (w : Walk) :
    ((w.openClass name).enterWith "this").klass.Inside ((w.openClass name).enterWith "this").surroundings := by
  have context : ((w.openClass name).enterWith "this").klass = .klass := (w.openClass_adds name).klass
  rw [classBody_surroundings, context]
  exact .klass _

theorem subclassBody_inside (name : Token) (parent : Reference Nat) (w : Walk) :
    let body := (((w.openClass name).readParent name parent).enterWith "super").enterWith "this"
    body.klass.Inside body.surroundings := by
  intro body
  have context : body.klass = .subclass := ((w.openClass name).readParent_adds name parent).klass
  rw [subclassBody_surroundings, context]
  exact .subclass _

end Walk

section Statements

open Walk

variable {t : Table} {hops : Nat → Option Nat} {w w' : Walk}

/-- Parameters that are declared without a report are different names. -/
theorem Routine.params_fit (params : List Token) {w : Walk} {names : List String} {Γ : Surroundings}
    (hw : w.surroundings = names :: Γ) (hn : names.Nodup)
    (hq : (params.foldl (fun w p => (w.declare p).define p) w).errors = #[]) :
    (params.foldl (fun w p => (w.declare p).define p) w).surroundings =
      (names ++ params.map (·.lexeme)) :: Γ ∧ (names ++ params.map (·.lexeme)).Nodup := by
  induction params generalizing w names with
  | nil => simpa using ⟨hw, hn⟩
  | cons p rest ih =>
    have hd := (Routine.params_adds rest ((w.declare p).define p)).quiet hq
    have hf := fresh_of_define hd
    rw [hw] at hf
    have hp : p.lexeme ∉ names := hf names rfl
    have hs : ((w.declare p).define p).surroundings = (names ++ [p.lexeme]) :: Γ := by
      rw [define_declare_surroundings, hw, Surroundings.declare_of_fresh hf]
    have hnodup : (names ++ [p.lexeme]).Nodup := by
      simpa [List.nodup_append, hn] using fun x hx => (fun he => hp (he ▸ hx) : x ≠ p.lexeme)
    simpa using ih hs hnodup hq

theorem Stmt.Fits.inside {s : Stmt Nat} {Γ : Surroundings} {κ : ClassContext} (h : s.Fits hops Γ)
    (hκ : κ.Inside Γ) : κ.Inside (Γ.after s) := by
  unfold Surroundings.after
  split
  · rename_i x hd
    exact hκ.declare (h.ordinary hd)
  · exact hκ

/-- The parent of a class has another name than the class, which has no value yet. -/
theorem Walk.Over.readParent {name : Token} {parent : Reference Nat}
    (h : Over t hops [parent.mark] { w with klass := .subclass } (w.readParent name parent)) :
    parent.Reads hops w.surroundings (some name.lexeme) := by
  have hq := h.quiet
  unfold Walk.readParent at h hq
  split at h
  · rename_i he
    rw [if_pos he] at hq
    have := (read_adds parent _).quiet hq
    simp [report] at this
  · rename_i he
    refine ⟨h.read.1, fun hx => absurd ?_ he⟩
    simpa using (Option.some.inj hx).symm

theorem Stmt.resolve_inside {s : Stmt Nat} (hf : s.WellFormed Token.Spelled) (hd : s.declared? = none)
    (hκ : w.klass.Inside w.surroundings) :
    (s.resolve w).klass.Inside (s.resolve w).surroundings := by
  rwa [(s.resolve_adds w).klass, Stmt.resolve_branch hd (s.resolve_surroundings w hf)]

mutual

theorem Stmt.resolve_fits : ∀ (s : Stmt Nat) (w : Walk), s.WellFormed Token.Spelled →
    Over t hops s.marks w (s.resolve w) → w.klass.Inside w.surroundings → s.Fits hops w.surroundings
  | .expression value, w, hf, h, hκ | .print value, w, hf, h, hκ =>
    value.resolve_fits w hf h hκ (awaits_none _)
  | .declare name initial, w, ⟨hn, hf⟩, h, hκ => by
    have ho : Ordinary name.lexeme := hn.2.identifier_ne hn.1
    have hbefore := h.before (((w.declare_adds name).trans (Expr.resolve?_adds initial _)).toLogs)
      (mark_adds name true _).toLogs rfl rfl
    obtain ⟨hd, hi⟩ := Over.split (a := []) hbefore (w.declare_adds name).toLogs
      (Expr.resolve?_adds initial _).toLogs rfl rfl
    have hfits := Expr.resolve?_fits initial _ hf hi
      (by rw [(w.declare_adds name).klass, declare_surroundings]; exact hκ.declare ho) declare_awaits
    rw [declare_surroundings] at hfits
    exact ⟨fresh_of_quiet hd.quiet, ho, hfits⟩
  | .block body, w, hf, h, hκ => by
    have hbody : Over t hops (Stmt.allMarks body) w.enter (Stmt.resolveAll body w.enter) :=
      ⟨h.nodup, h.clean, h.agrees, h.quiet⟩
    exact Stmt.resolveAll_fits body w.enter hf hbody (hκ.scope (fun _ hx => by cases hx))
  | .branch condition yes no, w, ⟨hc, ⟨hy, hd⟩, hn⟩, h, hκ => by
    obtain ⟨h₁, h₂⟩ := h.split (condition.resolve_adds w).toLogs
      ((yes.resolve_adds _).trans (Stmt.resolve?_adds no _)).toLogs rfl rfl
    obtain ⟨h₂, h₃⟩ := h₂.split (yes.resolve_adds _).toLogs (Stmt.resolve?_adds no _).toLogs rfl rfl
    have hcond := condition.resolve_fits w hc h₁ hκ (awaits_none _)
    have hs := surroundings_congr (condition.resolve_scopes w)
    have hyes := yes.resolve_fits _ hy h₂ (condition.resolve_inside hκ)
    have hno := Stmt.resolve?_fits no _ hn h₃
      (Stmt.resolve_inside hy hd (condition.resolve_inside hκ))
    rw [Stmt.resolve_branch hd (yes.resolve_surroundings _ hy), hs] at hno
    rw [hs] at hyes
    exact ⟨hcond, ⟨hyes, hd⟩, hno⟩
  | .loop condition body, w, ⟨hc, hb, hd⟩, h, hκ => by
    obtain ⟨h₁, h₂⟩ := h.split (condition.resolve_adds w).toLogs (body.resolve_adds _).toLogs rfl rfl
    have hcond := condition.resolve_fits w hc h₁ hκ (awaits_none _)
    have hbody := body.resolve_fits _ hb h₂ (condition.resolve_inside hκ)
    rw [surroundings_congr (condition.resolve_scopes w)] at hbody
    exact ⟨hcond, hbody, hd⟩
  | .function routine, w, hf, h, hκ => by
    have ho : Ordinary routine.name.lexeme := by
      obtain ⟨_, _, _⟩ := routine
      exact hf.1.2.identifier_ne hf.1.1
    obtain ⟨hd, hr⟩ := Over.split (a := []) h (w.define_declare_adds routine.name).toLogs
      (Routine.resolve_adds .function routine _).toLogs rfl rfl
    have hfits := Routine.resolve_fits .function routine _ hf hr (by
      rw [(w.define_declare_adds routine.name).klass, define_declare_surroundings]
      exact hκ.declare ho)
    rw [define_declare_surroundings] at hfits
    exact ⟨fresh_of_define hd.quiet, ho, hfits⟩
  | .leave keyword value, w, ⟨_, hf⟩, h, hκ => by
    obtain ⟨_, hv⟩ := Over.split (a := []) h (w.leave_adds keyword value.isSome).toLogs
      (Expr.resolve?_adds value _).toLogs rfl rfl
    have hs := surroundings_congr (w.leave_scopes keyword value.isSome)
    have hfits := Expr.resolve?_fits value _ hf hv
      (by rwa [(w.leave_adds keyword value.isSome).klass, hs]) (awaits_none _)
    rwa [hs] at hfits
  | .klass name none methods, w, ⟨hn, _, hm⟩, h, hκ => by
    let body := (w.openClass name).enterWith "this"
    have hover : Over t hops ([] ++ Routine.allMarks methods) w (Routine.resolveAll methods body) :=
      ⟨h.nodup, h.clean, h.agrees, h.quiet⟩
    obtain ⟨h₁, h₂⟩ := hover.split (w.openClass_logs name) (Routine.resolveAll_adds methods body).toLogs rfl rfl
    have hfits := Routine.resolveAll_fits methods body hm h₂ (w.classBody_inside name)
    rw [w.classBody_surroundings name] at hfits
    exact ⟨fresh_of_openClass h₁.quiet, hn.2.identifier_ne hn.1, trivial, hfits⟩
  | .klass name (some parent) methods, w, ⟨hn, hp, hm⟩, h, hκ => by
    let read := (w.openClass name).readParent name parent
    let body := (read.enterWith "super").enterWith "this"
    have hread := ((w.openClass name).readParent_adds name parent).toLogs
    have hmethods := (Routine.resolveAll_adds methods body).toLogs
    have hover : Over t hops ([] ++ ([parent.mark] ++ Routine.allMarks methods)) w
        (Routine.resolveAll methods body) := ⟨h.nodup, h.clean, h.agrees, h.quiet⟩
    obtain ⟨h₁, h₂⟩ := hover.split (w.openClass_logs name) (hread.trans hmethods rfl rfl) rfl rfl
    obtain ⟨h₂, h₃⟩ := h₂.split hread hmethods rfl rfl
    have hfits := Routine.resolveAll_fits methods body hm h₃ (w.subclassBody_inside name parent)
    rw [w.subclassBody_surroundings name parent] at hfits
    exact ⟨fresh_of_openClass h₁.quiet, hn.2.identifier_ne hn.1,
      w.openClass_surroundings name ▸ h₂.readParent, hfits⟩

theorem Stmt.resolve?_fits : ∀ (s : Option (Stmt Nat)) (w : Walk),
    Stmt.WellFormed? Token.Spelled s → Over t hops (Stmt.marks? s) w (Stmt.resolve? s w) →
    w.klass.Inside w.surroundings → Stmt.Fits? hops w.surroundings s
  | none, _, _, _, _ => trivial
  | some s, w, ⟨hs, hd⟩, h, hκ => ⟨s.resolve_fits w hs h hκ, hd⟩

theorem Stmt.resolveAll_fits : ∀ (ss : List (Stmt Nat)) (w : Walk),
    Stmt.AllWellFormed Token.Spelled ss → Over t hops (Stmt.allMarks ss) w (Stmt.resolveAll ss w) →
    w.klass.Inside w.surroundings → Stmt.AllFit hops w.surroundings ss
  | [], _, _, _, _ => trivial
  | s :: rest, w, ⟨hs, hr⟩, h, hκ => by
    obtain ⟨h₁, h₂⟩ := h.split (s.resolve_adds w).toLogs (Stmt.resolveAll_adds rest _).toLogs rfl rfl
    have hfirst := s.resolve_fits w hs h₁ hκ
    have hafter := s.resolve_surroundings w hs
    have hrest := Stmt.resolveAll_fits rest _ hr h₂ (by
      rw [(s.resolve_adds w).klass, hafter]
      exact hfirst.inside hκ)
    rw [hafter] at hrest
    exact ⟨hfirst, hrest⟩

theorem Routine.resolve_fits : ∀ (context : RoutineContext) (r : Routine (Stmt Nat)) (w : Walk),
    Routine.WellFormed Token.Spelled r → Over t hops (Routine.marks r) w (Routine.resolve context r w) →
    w.klass.Inside w.surroundings → Routine.Fits hops w.surroundings r
  | context, ⟨_, params, body⟩, w, ⟨_, hp, hb⟩, h, hκ => by
    let w₁ := { w with routine := context }.enter
    let w₂ := params.foldl (fun w p => (w.declare p).define p) w₁
    have hd : Adds [] w₁ w₂ := Routine.params_adds params w₁
    have hover : Over t hops ([] ++ Stmt.allMarks body) w₁ (Stmt.resolveAll body w₂) :=
      ⟨h.nodup, h.clean, h.agrees, h.quiet⟩
    obtain ⟨h₁, h₂⟩ := hover.split hd.toLogs (Stmt.resolveAll_adds body w₂).toLogs rfl rfl
    have hordinary : ∀ p ∈ params, Ordinary p.lexeme := fun p hm =>
      (hp p hm).2.identifier_ne (hp p hm).1
    have hw : w₁.surroundings = [] :: w.surroundings := rfl
    obtain ⟨hs, hn⟩ := Routine.params_fit params hw List.nodup_nil h₁.quiet
    rw [List.nil_append] at hs hn
    have hfits := Stmt.resolveAll_fits body w₂ hb h₂ (by
      rw [hd.klass, hs]
      refine hκ.scope fun x hx => ?_
      obtain ⟨p, hm, rfl⟩ := List.mem_map.mp hx
      exact hordinary p hm)
    rw [hs] at hfits
    exact ⟨hn, hordinary, hfits⟩

theorem Routine.resolveAll_fits : ∀ (rs : List (Routine (Stmt Nat))) (w : Walk),
    Routine.AllWellFormed Token.Spelled rs →
    Over t hops (Routine.allMarks rs) w (Routine.resolveAll rs w) →
    w.klass.Inside w.surroundings → Routine.AllFit hops w.surroundings rs
  | [], _, _, _, _ => trivial
  | r :: rest, w, ⟨hr, hs⟩, h, hκ => by
    obtain ⟨h₁, h₂⟩ := h.split (Routine.resolve_adds _ r w).toLogs
      (Routine.resolveAll_adds rest _).toLogs rfl rfl
    have hplace := surroundings_congr (Routine.resolve_scopes (.ofMethod r.name) r w)
    have hrest := Routine.resolveAll_fits rest _ hs h₂ (by
      rwa [(Routine.resolve_adds _ r w).klass, hplace])
    rw [hplace] at hrest
    exact ⟨Routine.resolve_fits _ r w hr h₁ hκ, hrest⟩

end

/-- A program without misuses fits the global place under the addresses that the
pass has recorded in a table without addresses for it. -/
theorem resolve_fits {program : List (Stmt Nat)} (hf : Stmt.AllWellFormed Token.Spelled program)
    (hn : (Stmt.allMarks program).Nodup) (hc : ∀ i ∈ Stmt.allMarks program, t.hops? i = none)
    (hq : (resolve program).errors = []) :
    Stmt.AllFit (t.recordAll (resolve program).entries).hops? [] program :=
  Stmt.resolveAll_fits program .start hf
    ⟨hn, hc, fun _ _ => rfl, Array.toList_eq_nil_iff.mp hq⟩ (fun h => absurd rfl h)

/-- Recording the entries of a program gives no address to other references. -/
theorem resolve_entries (program : List (Stmt Nat)) {i : Nat} (hi : i ∉ Stmt.allMarks program) :
    (t.recordAll (resolve program).entries).hops? i = t.hops? i :=
  (Stmt.resolveAll_adds program .start).toLogs.address hi

end Statements

end Lox
