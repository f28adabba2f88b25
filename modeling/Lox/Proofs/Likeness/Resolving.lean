import Lox.Proofs.Likeness.Trees
import Lox.Resolution.Walk

/-! # Like trees resolve alike

The pass over a program decides by the names that tokens spell. So it keeps the same
scopes for like trees, reports the same misuses at like tokens and finds each
reference as many scopes outwards. -/

namespace Lox

variable (T : Token → Token → Prop) (M : Nat → Nat → Prop)

structure MisuseError.Like (e e' : MisuseError) : Prop where
  misuse : e'.misuse = e.misuse
  token : T e.token e'.token

structure Entry.Like (e e' : Entry) : Prop where
  kind : e'.kind = e.kind
  reference : e.reference.Like T M e'.reference
  hops : e'.hops = e.hops

/-- Walks that have come equally far. What each has recorded before may differ. -/
structure Walk.Like (E : List Entry → List Entry → Prop) (w w' : Walk) : Prop where
  scopes : w'.scopes = w.scopes
  entries : E w.entries.toList w'.entries.toList
  errors : List.Forall₂ (MisuseError.Like T) w.errors.toList w'.errors.toList
  routine : w'.routine = w.routine
  klass : w'.klass = w.klass

variable {T M} {E : List Entry → List Entry → Prop}

namespace Walk

variable {w w' : Walk}

theorem Like.report (h : w.Like T E w') (misuse : Misuse) {t u : Token} (ht : T t u) :
    (w.report misuse t).Like T E (w'.report misuse u) := by
  refine { h with errors := ?_ }
  simp only [Walk.report, Array.toList_push]
  exact List.rel_append h.errors (.cons ⟨rfl, ht⟩ .nil)

theorem Like.reportIf (h : w.Like T E w') (c : Prop) [Decidable c] (misuse : Misuse) {t u : Token}
    (ht : T t u) :
    (if c then w.report misuse t else w).Like T E (if c then w'.report misuse u else w') := by
  split
  · exact h.report misuse ht
  · exact h

theorem Like.withScopes (h : w.Like T E w') (f : List (Bindings Bool) → List (Bindings Bool)) :
    { w with scopes := f w.scopes }.Like T E { w' with scopes := f w'.scopes } :=
  { h with scopes := congrArg f h.scopes }

theorem Like.enter (h : w.Like T E w') : w.enter.Like T E w'.enter := h.withScopes _

theorem Like.enterWith (h : w.Like T E w') (name : String) :
    (w.enterWith name).Like T E (w'.enterWith name) := h.withScopes _

theorem Like.exit (h : w.Like T E w') : w.exit.Like T E w'.exit := h.withScopes List.tail

theorem Like.withKlass (h : w.Like T E w') (context : ClassContext) :
    { w with klass := context }.Like T E { w' with klass := context } := { h with klass := rfl }

theorem Like.leave (h : w.Like T E w') {t u : Token} (ht : T t u) (hasValue : Bool) :
    (w.leave t hasValue).Like T E (w'.leave u hasValue) := by
  unfold Walk.leave
  dsimp only
  rw [h.routine]
  have first := h.reportIf (w.routine = .none) .topLevelReturn ht
  rw [first.routine]
  exact first.reportIf _ _ ht

variable (hT : ∀ t u, T t u → t.SameText u)
include hT

theorem Like.mark (h : w.Like T E w') {t u : Token} (ht : T t u) (complete : Bool) :
    (w.mark t complete).Like T E (w'.mark u complete) := by
  unfold Walk.mark
  rw [h.scopes, (hT t u ht).lexeme]
  split
  · exact h
  · exact { h with scopes := rfl }

theorem Like.declare (h : w.Like T E w') {t u : Token} (ht : T t u) :
    (w.declare t).Like T E (w'.declare u) := by
  unfold Walk.declare Walk.declaresHere
  rw [h.scopes, (hT t u ht).lexeme]
  exact (h.reportIf _ _ ht).mark hT ht false

theorem Like.define (h : w.Like T E w') {t u : Token} (ht : T t u) :
    (w.define t).Like T E (w'.define u) := h.mark hT ht true

variable (hE : ∀ es es' e e', E es es' → e.Like T M e' → E (es ++ [e]) (es' ++ [e']))
include hE

theorem Like.refer (h : w.Like T E w') (kind : ReferenceKind) {r r' : Reference Nat} (hr : r.Like T M r') :
    (w.refer kind r).Like T E (w'.refer kind r') := by
  unfold Walk.refer Walk.distance?
  rw [h.scopes, (hT _ _ hr.name).lexeme]
  split
  · refine ⟨rfl, ?_, h.errors, h.routine, h.klass⟩
    simp only [Array.toList_push]
    exact hE _ _ _ _ h.entries ⟨rfl, hr, rfl⟩
  · exact h

theorem Like.read (h : w.Like T E w') {r r' : Reference Nat} (hr : r.Like T M r') :
    (w.read r).Like T E (w'.read r') := by
  unfold Walk.read
  dsimp only
  rw [h.scopes, (hT _ _ hr.name).lexeme]
  exact (h.reportIf _ _ hr.name).refer hT hE _ hr

theorem Like.this (h : w.Like T E w') {r r' : Reference Nat} (hr : r.Like T M r') :
    (w.this r).Like T E (w'.this r') := by
  unfold Walk.this
  rw [h.klass]
  split
  · exact h.report _ hr.name
  · exact h.refer hT hE _ hr

theorem Like.super (h : w.Like T E w') {r r' : Reference Nat} (hr : r.Like T M r') :
    (w.super r).Like T E (w'.super r') := by
  unfold Walk.super
  rw [h.klass]
  split
  · exact h.report _ hr.name
  · exact h.report _ hr.name
  · exact h.refer hT hE _ hr

theorem Like.inherit? (h : w.Like T E w') {t u : Token} (ht : T t u) {r r' : Option (Reference Nat)}
    (hr : Option.Rel (Reference.Like T M) r r') : (w.inherit? t r).Like T E (w'.inherit? u r') := by
  cases hr with
  | none => exact h
  | some hr =>
    simp only [Walk.inherit?, Walk.inherit, (hT _ _ hr.name).lexeme, (hT t u ht).lexeme]
    exact (((h.reportIf _ _ hr.name).withKlass _).read hT hE hr).enterWith _

end Walk

mutual

theorem Expr.resolve_like (hT : ∀ t u, T t u → t.SameText u)
    (hE : ∀ es es' e e', E es es' → e.Like T M e' → E (es ++ [e]) (es' ++ [e'])) :
    ∀ (e : Expr Nat) {e' : Expr Nat}, e.Like T M e' → ∀ {w w' : Walk},
    w.Like T E w' → (e.resolve w).Like T E (e'.resolve w')
  | .literal _, _, .literal _, _, _, h => h
  | .grouping e, _, .grouping he, _, _, h => e.resolve_like hT hE he h
  | .unary _ e, _, .unary _ he, _, _, h => e.resolve_like hT hE he h
  | .binary l _ r, _, .binary hl _ hr, _, _, h | .logical l _ r, _, .logical hl _ hr, _, _, h =>
    r.resolve_like hT hE hr (l.resolve_like hT hE hl h)
  | .name _, _, .name hr, _, _, h => h.read hT hE hr
  | .assign _ e, _, .assign hr he, _, _, h => (e.resolve_like hT hE he h).refer hT hE _ hr
  | .call c _ as, _, .call hc _ ha, _, _, h => Expr.resolveAll_like hT hE as ha (c.resolve_like hT hE hc h)
  | .get o _, _, .get ho _, _, _, h => o.resolve_like hT hE ho h
  | .set o _ v, _, .set ho _ hv, _, _, h => o.resolve_like hT hE ho (v.resolve_like hT hE hv h)
  | .this _, _, .this hr, _, _, h => h.this hT hE hr
  | .super _ _, _, .super hr _, _, _, h => h.super hT hE hr

theorem Expr.resolveAll_like (hT : ∀ t u, T t u → t.SameText u)
    (hE : ∀ es es' e e', E es es' → e.Like T M e' → E (es ++ [e]) (es' ++ [e'])) :
    ∀ (es : List (Expr Nat)) {es' : List (Expr Nat)},
    List.Forall₂ (Expr.Like T M) es es' → ∀ {w w' : Walk}, w.Like T E w' →
    (Expr.resolveAll es w).Like T E (Expr.resolveAll es' w')
  | [], _, .nil, _, _, h => h
  | e :: rest, _, .cons he hs, _, _, h => Expr.resolveAll_like hT hE rest hs (e.resolve_like hT hE he h)

end

theorem Expr.resolve?_like (hT : ∀ t u, T t u → t.SameText u)
    (hE : ∀ es es' e e', E es es' → e.Like T M e' → E (es ++ [e]) (es' ++ [e']))
    {e e' : Option (Expr Nat)} (he : Option.Rel (Expr.Like T M) e e') {w w' : Walk}
    (h : w.Like T E w') : (Expr.resolve? e w).Like T E (Expr.resolve? e' w') := by
  cases he with
  | none => exact h
  | some he => exact Expr.resolve_like hT hE _ he h

theorem Routine.params_like (hT : ∀ t u, T t u → t.SameText u)
    {ps ps' : List Token} (hp : List.Forall₂ T ps ps') :
    ∀ {w w' : Walk}, w.Like T E w' → (ps.foldl (fun w p => (w.declare p).define p) w).Like T E
      (ps'.foldl (fun w p => (w.declare p).define p) w') := by
  induction hp with
  | nil => exact fun h => h
  | cons hp _ ih => exact fun h => ih ((h.declare hT hp).define hT hp)

mutual

theorem Stmt.resolve_like (hT : ∀ t u, T t u → t.SameText u)
    (hE : ∀ es es' e e', E es es' → e.Like T M e' → E (es ++ [e]) (es' ++ [e'])) :
    ∀ (s : Stmt Nat) {s' : Stmt Nat}, s.Like T M s' → ∀ {w w' : Walk},
    w.Like T E w' → (s.resolve w).Like T E (s'.resolve w')
  | .expression e, _, .expression he, _, _, h | .print e, _, .print he, _, _, h =>
    e.resolve_like hT hE he h
  | .declare _ _, _, .declare hn he, _, _, h =>
    (Expr.resolve?_like hT hE he (h.declare hT hn)).define hT hn
  | .block ss, _, .block hs, _, _, h => (Stmt.resolveAll_like hT hE ss hs h.enter).exit
  | .branch c y no, _, .branch hc hy hn, _, _, h =>
    Stmt.resolve?_like hT hE no hn (y.resolve_like hT hE hy (c.resolve_like hT hE hc h))
  | .loop c s, _, .loop hc hs, _, _, h => s.resolve_like hT hE hs (c.resolve_like hT hE hc h)
  | .function r, _, .function hr, _, _, h =>
    Routine.resolve_like hT hE .function r hr ((h.declare hT hr.name).define hT hr.name)
  | .leave _ _, _, .leave hk he, _, _, h => by
    rw [Stmt.resolve, Stmt.resolve]
    cases he with
    | none => exact h.leave hk false
    | some he => exact Expr.resolve_like hT hE _ he (h.leave hk true)
  | .klass _ _ ms, _, .klass hn hp hm, _, _, h => by
    have inside := (((h.withKlass .klass).declare hT hn).define hT hn).inherit? hT hE hn hp
    have after := (Routine.resolveAll_like hT hE ms hm (inside.enterWith "this")).exit
    rw [Stmt.resolve, Stmt.resolve]
    cases hp with
    | none => exact { after with klass := h.klass }
    | some _ => exact { after.exit with klass := h.klass }
termination_by structural s => s

theorem Stmt.resolve?_like (hT : ∀ t u, T t u → t.SameText u)
    (hE : ∀ es es' e e', E es es' → e.Like T M e' → E (es ++ [e]) (es' ++ [e'])) :
    ∀ (s : Option (Stmt Nat)) {s' : Option (Stmt Nat)},
    Option.Rel (Stmt.Like T M) s s' → ∀ {w w' : Walk}, w.Like T E w' →
    (Stmt.resolve? s w).Like T E (Stmt.resolve? s' w')
  | none, _, .none, _, _, h => h
  | some s, _, .some hs, _, _, h => s.resolve_like hT hE hs h
termination_by structural s => s

theorem Stmt.resolveAll_like (hT : ∀ t u, T t u → t.SameText u)
    (hE : ∀ es es' e e', E es es' → e.Like T M e' → E (es ++ [e]) (es' ++ [e'])) :
    ∀ (ss : List (Stmt Nat)) {ss' : List (Stmt Nat)},
    List.Forall₂ (Stmt.Like T M) ss ss' → ∀ {w w' : Walk}, w.Like T E w' →
    (Stmt.resolveAll ss w).Like T E (Stmt.resolveAll ss' w')
  | [], _, .nil, _, _, h => h
  | s :: rest, _, .cons hs hr, _, _, h => Stmt.resolveAll_like hT hE rest hr (s.resolve_like hT hE hs h)
termination_by structural ss => ss

theorem Routine.resolve_like (hT : ∀ t u, T t u → t.SameText u)
    (hE : ∀ es es' e e', E es es' → e.Like T M e' → E (es ++ [e]) (es' ++ [e'])) :
    ∀ (context : RoutineContext) (r : Routine (Stmt Nat))
    {r' : Routine (Stmt Nat)}, r.Like T (Stmt.Like T M) r' → ∀ {w w' : Walk}, w.Like T E w' →
    (Routine.resolve context r w).Like T E (Routine.resolve context r' w')
  | context, ⟨_, _, body⟩, _, .mk _ hp hb, w, w', h => by
    have start : ({ w with routine := context } : Walk).Like T E { w' with routine := context } :=
      { h with routine := rfl }
    have inside := Routine.params_like hT hp start.enter
    rw [Routine.resolve, Routine.resolve]
    exact { (Stmt.resolveAll_like hT hE body hb inside).exit with routine := h.routine }
termination_by structural _ r => r

theorem Routine.resolveAll_like (hT : ∀ t u, T t u → t.SameText u)
    (hE : ∀ es es' e e', E es es' → e.Like T M e' → E (es ++ [e]) (es' ++ [e'])) :
    ∀ (rs : List (Routine (Stmt Nat))) {rs' : List (Routine (Stmt Nat))},
    List.Forall₂ (Routine.Like T (Stmt.Like T M)) rs rs' → ∀ {w w' : Walk}, w.Like T E w' →
    (Routine.resolveAll rs w).Like T E (Routine.resolveAll rs' w')
  | [], _, .nil, _, _, h => h
  | r :: rest, _, .cons hr hs, _, _, h => by
    rw [Routine.resolveAll, Routine.resolveAll, RoutineContext.ofMethod, RoutineContext.ofMethod,
      (hT _ _ hr.name).lexeme]
    exact Routine.resolveAll_like hT hE rest hs (Routine.resolve_like hT hE _ r hr h)
termination_by structural rs => rs

end

/-- What the pass finds out about like programs. -/
theorem resolve_like (hT : ∀ t u, T t u → t.SameText u) {program program' : List (Stmt Nat)}
    (h : List.Forall₂ (Stmt.Like T M) program program') :
    List.Forall₂ (Entry.Like T M) (resolve program).entries (resolve program').entries ∧
      List.Forall₂ (MisuseError.Like T) (resolve program).errors (resolve program').errors := by
  have start : Walk.Like T (List.Forall₂ (Entry.Like T M)) .start .start := ⟨rfl, .nil, .nil, rfl, rfl⟩
  have walked := Stmt.resolveAll_like hT
    (fun _ _ _ _ hs he => List.rel_append hs (.cons he .nil)) program h start
  exact ⟨walked.entries, walked.errors⟩

end Lox
