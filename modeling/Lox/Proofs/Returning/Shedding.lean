import Lox.Proofs.Misuses.Reporting

/-! # Code behind a return

Statements that stand behind a return in its own row can be shed. What is left of a tree
when all of them are gone, and the marks of its references too, is its live part. Two
trees of which the one is the other with less behind a return have the same live part,
and there is nothing to report of the one that there is not of the other. -/

namespace Lox

section Trees

variable {μ : Type}

/-! ## The live part of a tree -/

def Stmt.isReturn : Stmt μ → Bool
  | .leave _ _ => true
  | _ => false

def Reference.bare (r : Reference μ) : Reference Unit := ⟨(), r.name⟩

mutual

def Expr.bare : Expr μ → Expr Unit
  | .literal value => .literal value
  | .grouping inner => .grouping inner.bare
  | .unary operator right => .unary operator right.bare
  | .binary left operator right => .binary left.bare operator right.bare
  | .logical left operator right => .logical left.bare operator right.bare
  | .name target => .name target.bare
  | .assign target value => .assign target.bare value.bare
  | .call callee paren arguments => .call callee.bare paren (Expr.bareAll arguments)
  | .get object property => .get object.bare property
  | .set object property value => .set object.bare property value.bare
  | .this keyword => .this keyword.bare
  | .super keyword method => .super keyword.bare method

def Expr.bareAll : List (Expr μ) → List (Expr Unit)
  | [] => []
  | e :: rest => e.bare :: Expr.bareAll rest

end

mutual

def Stmt.live : Stmt μ → Stmt Unit
  | .expression value => .expression value.bare
  | .print value => .print value.bare
  | .declare name initial => .declare name (initial.map (·.bare))
  | .block body => .block (Stmt.liveRow body)
  | .branch condition yes no => .branch condition.bare yes.live (Stmt.live? no)
  | .loop condition body => .loop condition.bare body.live
  | .function routine => .function (Routine.live routine)
  | .leave keyword value => .leave keyword (value.map (·.bare))
  | .klass name parent methods => .klass name (parent.map (·.bare)) (Routine.liveAll methods)

def Stmt.live? : Option (Stmt μ) → Option (Stmt Unit)
  | none => none
  | some s => some s.live

/-- What stands behind a return is left out. -/
def Stmt.liveRow : List (Stmt μ) → List (Stmt Unit)
  | [] => []
  | s :: rest => s.live :: if s.isReturn then [] else Stmt.liveRow rest

def Routine.live : Routine (Stmt μ) → Routine (Stmt Unit)
  | ⟨name, params, body⟩ => ⟨name, params, Stmt.liveRow body⟩

def Routine.liveAll : List (Routine (Stmt μ)) → List (Routine (Stmt Unit))
  | [] => []
  | r :: rest => Routine.live r :: Routine.liveAll rest

end

@[simp] theorem Stmt.isReturn_live (s : Stmt μ) : s.live.isReturn = s.isReturn := by
  cases s <;> rfl

theorem Routine.live_name (r : Routine (Stmt μ)) : (Routine.live r).name = r.name := by
  cases r
  rfl

theorem Routine.live_params (r : Routine (Stmt μ)) : (Routine.live r).params = r.params := by
  cases r
  rfl

theorem Routine.live_body (r : Routine (Stmt μ)) : (Routine.live r).body = Stmt.liveRow r.body := by
  cases r
  rfl

theorem Routine.liveAll_eq (rs : List (Routine (Stmt μ))) : Routine.liveAll rs = rs.map Routine.live := by
  induction rs with
  | nil => rfl
  | cons r rest ih => rw [Routine.liveAll, ih, List.map_cons]

/-- A row without a return of its own loses nothing. -/
theorem Stmt.liveRow_eq_map {row : List (Stmt μ)} (h : ∀ s ∈ row, s.isReturn = false) :
    Stmt.liveRow row = row.map Stmt.live := by
  induction row with
  | nil => rfl
  | cons s rest ih =>
    have own : s.isReturn = false := h s List.mem_cons_self
    rw [Stmt.liveRow, own, if_neg (by simp), ih fun t ht => h t (List.mem_cons_of_mem _ ht),
      List.map_cons]

/-! ## Shedding code behind a return -/

/-- The second row is the first one without what stands behind a return, in the row itself
or in a row somewhere inside it. An arm of a statement is a row of its own. -/
inductive Stmt.Sheds : List (Stmt μ) → List (Stmt μ) → Prop
  | behind (before : List (Stmt μ)) (keyword : Token) (value : Option (Expr μ)) (rest : List (Stmt μ)) :
      Stmt.Sheds (before ++ .leave keyword value :: rest) (before ++ [.leave keyword value])
  | among {s s' : Stmt μ} (before after : List (Stmt μ)) (h : Stmt.Sheds [s] [s']) :
      Stmt.Sheds (before ++ s :: after) (before ++ s' :: after)
  | block {body body' : List (Stmt μ)} (h : Stmt.Sheds body body') :
      Stmt.Sheds [.block body] [.block body']
  | yes {yes yes' : Stmt μ} (condition : Expr μ) (no : Option (Stmt μ)) (h : Stmt.Sheds [yes] [yes']) :
      Stmt.Sheds [.branch condition yes no] [.branch condition yes' no]
  | no {no no' : Stmt μ} (condition : Expr μ) (yes : Stmt μ) (h : Stmt.Sheds [no] [no']) :
      Stmt.Sheds [.branch condition yes (some no)] [.branch condition yes (some no')]
  | loop {body body' : Stmt μ} (condition : Expr μ) (h : Stmt.Sheds [body] [body']) :
      Stmt.Sheds [.loop condition body] [.loop condition body']
  | function {body body' : List (Stmt μ)} (name : Token) (params : List Token)
      (h : Stmt.Sheds body body') :
      Stmt.Sheds [.function ⟨name, params, body⟩] [.function ⟨name, params, body'⟩]
  | method {body body' : List (Stmt μ)} (name : Token) (parent : Option (Reference μ))
      (before after : List (Routine (Stmt μ))) (method : Token) (params : List Token)
      (h : Stmt.Sheds body body') :
      Stmt.Sheds [.klass name parent (before ++ ⟨method, params, body⟩ :: after)]
        [.klass name parent (before ++ ⟨method, params, body'⟩ :: after)]

namespace Stmt

theorem liveRow_append (before row : List (Stmt μ)) :
    liveRow (before ++ row) =
      liveRow before ++ if before.any isReturn then [] else liveRow row := by
  induction before with
  | nil => simp [liveRow]
  | cons s rest ih =>
    rw [List.cons_append, liveRow, liveRow, ih]
    by_cases h : s.isReturn <;> simp [h]

/-- Code that is shed is no live part. -/
theorem Sheds.liveRow_eq {row row' : List (Stmt μ)} (h : Sheds row row') : liveRow row' = liveRow row := by
  induction h with
  | behind before keyword value rest =>
    rw [liveRow_append, liveRow_append]
    rfl
  | among before after h ih =>
    have same := (List.cons.inj ih).1
    rw [liveRow_append, liveRow_append, liveRow, liveRow, ← isReturn_live, same, isReturn_live]
  | block h ih => simp only [liveRow, live, isReturn, Bool.false_eq_true, if_false, ih]
  | yes condition no h ih =>
    have same := (List.cons.inj ih).1
    simp only [liveRow, live, isReturn, Bool.false_eq_true, if_false, same]
  | no condition yes h ih =>
    have same := (List.cons.inj ih).1
    simp only [liveRow, live, live?, isReturn, Bool.false_eq_true, if_false, same]
  | loop condition h ih =>
    have same := (List.cons.inj ih).1
    simp only [liveRow, live, isReturn, Bool.false_eq_true, if_false, same]
  | function name params h ih =>
    simp only [liveRow, live, isReturn, Bool.false_eq_true, if_false, Routine.live, ih]
  | method name parent before after method params h ih =>
    simp only [liveRow, live, isReturn, Bool.false_eq_true, if_false, Routine.liveAll_eq,
      List.map_append, List.map_cons, Routine.live, ih]

/-- A statement declares the same name when it has shed code. -/
theorem Sheds.declared?_eq {row row' : List (Stmt μ)} (h : Sheds row row') :
    ∀ {s s' : Stmt μ}, row = [s] → row' = [s'] → s'.declared? = s.declared? := by
  induction h with
  | behind before keyword value rest =>
    intro s s' hs hs'
    cases before with
    | nil =>
      cases hs
      cases hs'
      rfl
    | cons b before => cases before <;> cases hs
  | among before after h ih =>
    intro s s' hs hs'
    cases before with
    | nil =>
      cases hs
      cases hs'
      exact ih rfl rfl
    | cons b before => cases before <;> cases hs
  | block | yes | no | loop | function | method =>
    intro s s' hs hs'
    cases hs
    cases hs'
    rfl

theorem rowSpots_append (before row : List (Stmt μ)) (p : Place) :
    rowSpots (before ++ row) p =
      rowSpots before p ++ rowSpots row (p.behind (before.filterMap (·.declared?))) := by
  induction before generalizing p with
  | nil => simp [rowSpots, Place.behind]
  | cons s rest ih =>
    rw [List.cons_append, rowSpots, rowSpots, ih, List.append_assoc]
    cases h : s.declared? <;> simp [h, Place.behind]

@[simp] theorem rowSpots_single (s : Stmt μ) (p : Place) : rowSpots [s] p = s.spots p :=
  List.append_nil _

end Stmt

theorem Routine.rowSpots_append (before rs : List (Routine (Stmt μ))) (p : Place) :
    Routine.rowSpots (before ++ rs) p = Routine.rowSpots before p ++ Routine.rowSpots rs p := by
  induction before with
  | nil => rfl
  | cons r rest ih => rw [List.cons_append, Routine.rowSpots, Routine.rowSpots, ih, List.append_assoc]

theorem Routine.spots_sublist {body body' : List (Stmt μ)}
    (h : ∀ p, (Stmt.rowSpots body' p).Sublist (Stmt.rowSpots body p)) (kind : Enclosure) (name : Token)
    (params : List Token) (p : Place) :
    (Routine.spots kind ⟨name, params, body'⟩ p).Sublist (Routine.spots kind ⟨name, params, body⟩ p) :=
  (List.Sublist.refl _).append (h _)

/-- What is left of a tree has no spot that was not there before. -/
theorem Stmt.Sheds.spots_sublist {row row' : List (Stmt μ)} (h : Stmt.Sheds row row') :
    ∀ p, (Stmt.rowSpots row' p).Sublist (Stmt.rowSpots row p) := by
  induction h with
  | behind before keyword value rest =>
    intro p
    rw [Stmt.rowSpots_append, Stmt.rowSpots_append]
    exact (List.Sublist.refl _).append ((List.Sublist.refl _).append (List.nil_sublist _))
  | among before after h ih =>
    intro p
    rw [Stmt.rowSpots_append, Stmt.rowSpots_append, Stmt.rowSpots, Stmt.rowSpots,
      h.declared?_eq rfl rfl]
    have inner := ih (p.behind (before.filterMap (·.declared?)))
    rw [Stmt.rowSpots_single, Stmt.rowSpots_single] at inner
    exact (List.Sublist.refl _).append (inner.append (List.Sublist.refl _))
  | block h ih =>
    intro p
    rw [Stmt.rowSpots_single, Stmt.rowSpots_single]
    exact ih p.block
  | yes condition no h ih =>
    intro p
    have inner := ih p
    rw [Stmt.rowSpots_single, Stmt.rowSpots_single] at inner ⊢
    exact (List.Sublist.refl _).append (inner.append (List.Sublist.refl _))
  | no condition yes h ih =>
    intro p
    have inner := ih p
    rw [Stmt.rowSpots_single, Stmt.rowSpots_single] at inner ⊢
    exact (List.Sublist.refl _).append ((List.Sublist.refl _).append inner)
  | loop condition h ih =>
    intro p
    have inner := ih p
    rw [Stmt.rowSpots_single, Stmt.rowSpots_single] at inner ⊢
    exact (List.Sublist.refl _).append inner
  | function name params h ih =>
    intro p
    rw [Stmt.rowSpots_single, Stmt.rowSpots_single]
    exact (Routine.spots_sublist ih _ _ _ _).cons_cons _
  | method name parent before after method params h ih =>
    intro p
    rw [Stmt.rowSpots_single, Stmt.rowSpots_single, Stmt.spots, Stmt.spots, Routine.rowSpots_append,
      Routine.rowSpots_append]
    have inner (place : Place) := Routine.spots_sublist ih (.method method.lexeme) method params place
    exact ((List.Sublist.refl _).append ((List.Sublist.refl _).append
      ((inner _).append (List.Sublist.refl _)))).cons_cons _

/-- A program that deserves no report deserves none when it has shed code. -/
theorem Stmt.Sheds.reports_nil {program program' : List (Stmt μ)} (h : Stmt.Sheds program program')
    (hr : Stmt.reports program = []) : Stmt.reports program' = [] := by
  have fewer := (h.spots_sublist .outermost).filterMap fun s => s.2.report? s.1
  change (Stmt.reports program').Sublist (Stmt.reports program) at fewer
  rw [hr] at fewer
  exact List.sublist_nil.mp fewer

/-! ## Shedding keeps the form -/

theorem Stmt.allWellFormed_append {T : Token → Prop} (before row : List (Stmt μ)) :
    Stmt.AllWellFormed T (before ++ row) ↔ Stmt.AllWellFormed T before ∧ Stmt.AllWellFormed T row := by
  simp only [Stmt.allWellFormed_iff, List.mem_append, or_imp, forall_and]

theorem Routine.allWellFormed_append {T : Token → Prop} (before rs : List (Routine (Stmt μ))) :
    Routine.AllWellFormed T (before ++ rs) ↔
      Routine.AllWellFormed T before ∧ Routine.AllWellFormed T rs := by
  simp only [Routine.allWellFormed_iff, List.mem_append, or_imp, forall_and]

theorem Stmt.Sheds.wellFormed {T : Token → Prop} {row row' : List (Stmt μ)} (h : Stmt.Sheds row row') :
    Stmt.AllWellFormed T row → Stmt.AllWellFormed T row' := by
  induction h with
  | behind before keyword value rest =>
    rw [Stmt.allWellFormed_append, Stmt.allWellFormed_append]
    exact fun hw => ⟨hw.1, hw.2.1, trivial⟩
  | among before after h ih =>
    rw [Stmt.allWellFormed_append, Stmt.allWellFormed_append]
    exact fun hw => ⟨hw.1, (ih ⟨hw.2.1, trivial⟩).1, hw.2.2⟩
  | block h ih => exact fun hw => ⟨ih hw.1, trivial⟩
  | yes condition no h ih =>
    rintro ⟨⟨hc, ⟨hy, hd⟩, hn⟩, -⟩
    exact ⟨⟨hc, ⟨(ih ⟨hy, trivial⟩).1, (h.declared?_eq rfl rfl).trans hd⟩, hn⟩, trivial⟩
  | no condition yes h ih =>
    rintro ⟨⟨hc, hy, hn, hd⟩, -⟩
    exact ⟨⟨hc, hy, (ih ⟨hn, trivial⟩).1, (h.declared?_eq rfl rfl).trans hd⟩, trivial⟩
  | loop condition h ih =>
    rintro ⟨⟨hc, hb, hd⟩, -⟩
    exact ⟨⟨hc, (ih ⟨hb, trivial⟩).1, (h.declared?_eq rfl rfl).trans hd⟩, trivial⟩
  | function name params h ih => exact fun hw => ⟨⟨hw.1.1, hw.1.2.1, ih hw.1.2.2⟩, trivial⟩
  | method name parent before after method params h ih =>
    rintro ⟨⟨hn, hp, hm⟩, -⟩
    rw [Routine.allWellFormed_append] at hm
    obtain ⟨hb, ⟨hx, hps, body⟩, ha⟩ := hm
    exact ⟨⟨hn, hp, (Routine.allWellFormed_append ..).mpr ⟨hb, ⟨hx, hps, ih body⟩, ha⟩⟩, trivial⟩

end Trees

/-! ## Numbering does not touch the live part -/

mutual

theorem Expr.number_bare : ∀ (e : Expr Unit) (n : Nat), (e.number n).1.bare = e.bare
  | .literal _, _ | .name _, _ | .this _, _ | .super _ _, _ => rfl
  | .grouping inner, n => congrArg Expr.grouping (inner.number_bare n)
  | .unary operator right, n => congrArg (Expr.unary operator) (right.number_bare n)
  | .binary left operator right, n =>
    congrArg₂ (Expr.binary · operator ·) (left.number_bare n) (right.number_bare _)
  | .logical left operator right, n =>
    congrArg₂ (Expr.logical · operator ·) (left.number_bare n) (right.number_bare _)
  | .assign target value, _ => congrArg (Expr.assign target.bare) (value.number_bare _)
  | .call callee paren arguments, n =>
    congrArg₂ (Expr.call · paren ·) (callee.number_bare n) (Expr.numberAll_bare arguments _)
  | .get object property, n => congrArg (Expr.get · property) (object.number_bare n)
  | .set object property value, n =>
    congrArg₂ (Expr.set · property ·) (object.number_bare n) (value.number_bare _)

theorem Expr.numberAll_bare : ∀ (es : List (Expr Unit)) (n : Nat),
    Expr.bareAll (Expr.numberAll es n).1 = Expr.bareAll es
  | [], _ => rfl
  | e :: rest, n => congrArg₂ List.cons (e.number_bare n) (Expr.numberAll_bare rest _)

end

theorem Expr.number?_bare (e : Option (Expr Unit)) (n : Nat) :
    (Expr.number? e n).1.map (·.bare) = e.map (·.bare) := by
  cases e with
  | none => rfl
  | some e => exact congrArg some (e.number_bare n)

theorem Reference.number?_bare (r : Option (Reference Unit)) (n : Nat) :
    (Reference.number? r n).1.map (·.bare) = r.map (·.bare) := by
  cases r <;> rfl

theorem Stmt.isReturn_number (s : Stmt Unit) (n : Nat) : (s.number n).1.isReturn = s.isReturn := by
  cases s <;> rfl

mutual

theorem Stmt.number_live : ∀ (s : Stmt Unit) (n : Nat), (s.number n).1.live = s.live
  | .expression value, n => congrArg Stmt.expression (value.number_bare n)
  | .print value, n => congrArg Stmt.print (value.number_bare n)
  | .declare name initial, n => congrArg (Stmt.declare name) (Expr.number?_bare initial n)
  | .block body, n => congrArg Stmt.block (Stmt.numberAll_live body n)
  | .branch condition yes no, n => by
    simp only [Stmt.number, Stmt.live, condition.number_bare n, yes.number_live _, Stmt.number?_live no _]
  | .loop condition body, n => congrArg₂ Stmt.loop (condition.number_bare n) (body.number_live _)
  | .function routine, n => congrArg Stmt.function (Routine.number_live routine n)
  | .leave keyword value, n => congrArg (Stmt.leave keyword) (Expr.number?_bare value n)
  | .klass name parent methods, n =>
    congrArg₂ (Stmt.klass name) (Reference.number?_bare parent n) (Routine.numberAll_live methods _)

theorem Stmt.number?_live : ∀ (s : Option (Stmt Unit)) (n : Nat),
    Stmt.live? (Stmt.number? s n).1 = Stmt.live? s
  | none, _ => rfl
  | some s, n => congrArg some (s.number_live n)

theorem Stmt.numberAll_live : ∀ (ss : List (Stmt Unit)) (n : Nat),
    Stmt.liveRow (Stmt.numberAll ss n).1 = Stmt.liveRow ss
  | [], _ => rfl
  | s :: rest, n => by
    simp only [Stmt.numberAll, Stmt.liveRow, s.number_live n, Stmt.isReturn_number,
      Stmt.numberAll_live rest _]

theorem Routine.number_live : ∀ (r : Routine (Stmt Unit)) (n : Nat),
    Routine.live (Routine.number r n).1 = Routine.live r
  | ⟨name, params, body⟩, n => congrArg (Routine.mk name params) (Stmt.numberAll_live body n)

theorem Routine.numberAll_live : ∀ (rs : List (Routine (Stmt Unit))) (n : Nat),
    Routine.liveAll (Routine.numberAll rs n).1 = Routine.liveAll rs
  | [], _ => rfl
  | r :: rest, n => congrArg₂ List.cons (Routine.number_live r n) (Routine.numberAll_live rest _)

end

end Lox
