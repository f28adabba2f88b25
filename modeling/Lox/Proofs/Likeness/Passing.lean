import Lox.Proofs.Likeness.Interpreters
import Lox.Proofs.ParsedTrees
import Lox.Proofs.Refusals

/-! # Tests that tokens pass

A tree, a machine or a fault is like itself in passed tokens if all tokens in it pass a test.
Strings are values and not tokens in a tree. So what holds of all other tokens that a scan can
find holds of each token in the code that a session runs, and of each at which it fails. -/

namespace Lox

/-- The same token, which passes a test. -/
structure Token.Passes (P : Token → Prop) (t u : Token) : Prop where
  same : u = t
  passes : P t

theorem Token.Passes.sameText {P : Token → Prop} (t u : Token) (h : t.Passes P u) : t.SameText u :=
  h.same ▸ .refl t

theorem Token.Passes.all {P : Token → Prop} {ts : List Token} (h : ∀ t ∈ ts, P t) :
    List.Forall₂ (Token.Passes P) ts ts := List.forall₂_same.mpr fun t m => ⟨rfl, h t m⟩

/-! ## The tokens in a tree -/

theorem Parse.isUnary_ne_string {k : Kind} (h : isUnary k = true) : k ≠ .string := by
  rintro rfl
  cases h

theorem Kind.isBinary_ne_string {k : Kind} (h : k.isBinary = true) : k ≠ .string := by
  rintro rfl
  cases h

theorem Kind.isLogical_ne_string {k : Kind} (h : k.isLogical = true) : k ≠ .string := by
  rintro rfl
  cases h

theorem Token.Is.ne_string {W : Token → Prop} {t : Token} {k : Kind} (h : t.Is W k)
    (hk : k ≠ .string) : t.kind ≠ .string := h.1 ▸ hk

section Trees

variable {μ ν : Type} {W : Token → Prop} {T T' : Token → Token → Prop} {M : μ → ν → Prop}

theorem Reference.Like.unquoted (hT : ∀ t u, T t u → t.kind ≠ .string → T' t u)
    {r : Reference μ} {r' : Reference ν} {k : Kind} (w : r.name.Is W k)
    (hk : k ≠ .string) (h : r.Like T M r') : r.Like T' M r' :=
  ⟨h.mark, hT _ _ h.name (w.ne_string hk)⟩

mutual

theorem Expr.like_unquoted (hT : ∀ t u, T t u → t.kind ≠ .string → T' t u) :
    ∀ (e : Expr μ) {e' : Expr ν}, e.WellFormed W → e.Like T M e' →
    e.Like T' M e'
  | .literal _, _, _, .literal value => .literal value
  | .grouping e, _, w, .grouping h => .grouping (e.like_unquoted hT w h)
  | .unary _ e, _, ⟨wo, w⟩, .unary ho h =>
    .unary (hT _ _ ho (Parse.isUnary_ne_string wo)) (e.like_unquoted hT w h)
  | .binary l _ r, _, ⟨wo, wl, wr⟩, .binary hl ho hr =>
    .binary (l.like_unquoted hT wl hl) (hT _ _ ho (Kind.isBinary_ne_string wo)) (r.like_unquoted hT wr hr)
  | .logical l _ r, _, ⟨wo, wl, wr⟩, .logical hl ho hr =>
    .logical (l.like_unquoted hT wl hl) (hT _ _ ho (Kind.isLogical_ne_string wo)) (r.like_unquoted hT wr hr)
  | .name _, _, w, .name h => .name (h.unquoted hT w Kind.noConfusion)
  | .assign _ e, _, ⟨wn, w⟩, .assign h he =>
    .assign (h.unquoted hT wn Kind.noConfusion) (e.like_unquoted hT w he)
  | .call c _ as, _, ⟨wp, wc, wa⟩, .call hc hp ha =>
    .call (c.like_unquoted hT wc hc) (hT _ _ hp (wp ▸ Kind.noConfusion)) (Expr.allLike_unquoted hT as wa ha)
  | .get o _, _, ⟨wp, w⟩, .get ho hp =>
    .get (o.like_unquoted hT w ho) (hT _ _ hp (wp.ne_string Kind.noConfusion))
  | .set o _ v, _, ⟨wp, wo, wv⟩, .set ho hp hv =>
    .set (o.like_unquoted hT wo ho) (hT _ _ hp (wp.ne_string Kind.noConfusion)) (v.like_unquoted hT wv hv)
  | .this _, _, w, .this h => .this (h.unquoted hT w Kind.noConfusion)
  | .super _ _, _, ⟨wk, wm⟩, .super h hm =>
    .super (h.unquoted hT wk Kind.noConfusion) (hT _ _ hm (wm.ne_string Kind.noConfusion))

theorem Expr.allLike_unquoted (hT : ∀ t u, T t u → t.kind ≠ .string → T' t u) :
    ∀ (es : List (Expr μ)) {es' : List (Expr ν)}, Expr.AllWellFormed W es →
    List.Forall₂ (Expr.Like T M) es es' → List.Forall₂ (Expr.Like T' M) es es'
  | [], _, _, .nil => .nil
  | e :: rest, _, ⟨w, ws⟩, .cons h hs => .cons (e.like_unquoted hT w h) (Expr.allLike_unquoted hT rest ws hs)

end

theorem Expr.like_unquoted? (hT : ∀ t u, T t u → t.kind ≠ .string → T' t u) :
    ∀ {e : Option (Expr μ)} {e' : Option (Expr ν)}, Expr.WellFormed? W e →
    Option.Rel (Expr.Like T M) e e' → Option.Rel (Expr.Like T' M) e e'
  | _, _, _, .none => .none
  | _, _, w, .some h => .some (Expr.like_unquoted hT _ w h)

theorem Reference.like_unquoted? (hT : ∀ t u, T t u → t.kind ≠ .string → T' t u) :
    ∀ {r : Option (Reference μ)} {r' : Option (Reference ν)},
    Reference.WellFormed? W r → Option.Rel (Reference.Like T M) r r' → Option.Rel (Reference.Like T' M) r r'
  | _, _, _, .none => .none
  | _, _, w, .some h => .some (h.unquoted hT w Kind.noConfusion)

theorem Routine.params_unquoted (hT : ∀ t u, T t u → t.kind ≠ .string → T' t u)
    {ps ps' : List Token} (w : ∀ p ∈ ps, p.Is W .identifier)
    (h : List.Forall₂ T ps ps') : List.Forall₂ T' ps ps' := by
  induction h with
  | nil => exact .nil
  | cons hp _ ih =>
    obtain ⟨wp, ws⟩ := List.forall_mem_cons.mp w
    exact .cons (hT _ _ hp (wp.ne_string Kind.noConfusion)) (ih ws)

mutual

theorem Stmt.like_unquoted (hT : ∀ t u, T t u → t.kind ≠ .string → T' t u) :
    ∀ (s : Stmt μ) {s' : Stmt ν}, s.WellFormed W → s.Like T M s' → s.Like T' M s'
  | .expression e, _, w, .expression h => .expression (e.like_unquoted hT w h)
  | .print e, _, w, .print h => .print (e.like_unquoted hT w h)
  | .declare _ _, _, ⟨wn, w⟩, .declare hn h =>
    .declare (hT _ _ hn (wn.ne_string Kind.noConfusion)) (Expr.like_unquoted? hT w h)
  | .block ss, _, w, .block h => .block (Stmt.allLike_unquoted hT ss w h)
  | .branch c y n, _, ⟨wc, ⟨wy, _⟩, wn⟩, .branch hc hy hn =>
    .branch (c.like_unquoted hT wc hc) (y.like_unquoted hT wy hy) (Stmt.like_unquoted? hT n wn hn)
  | .loop c s, _, ⟨wc, w, _⟩, .loop hc h => .loop (c.like_unquoted hT wc hc) (s.like_unquoted hT w h)
  | .function r, _, w, .function h => .function (Routine.like_unquoted hT r w h)
  | .leave _ _, _, ⟨wk, w⟩, .leave hk h =>
    .leave (hT _ _ hk (wk ▸ Kind.noConfusion)) (Expr.like_unquoted? hT w h)
  | .klass _ _ ms, _, ⟨wn, wp, wm⟩, .klass hn hp hm =>
    .klass (hT _ _ hn (wn.ne_string Kind.noConfusion)) (Reference.like_unquoted? hT wp hp)
      (Routine.allLike_unquoted hT ms wm hm)

theorem Stmt.like_unquoted? (hT : ∀ t u, T t u → t.kind ≠ .string → T' t u) :
    ∀ (s : Option (Stmt μ)) {s' : Option (Stmt ν)}, Stmt.WellFormed? W s →
    Option.Rel (Stmt.Like T M) s s' → Option.Rel (Stmt.Like T' M) s s'
  | none, _, _, .none => .none
  | some s, _, ⟨w, _⟩, .some h => .some (s.like_unquoted hT w h)

theorem Stmt.allLike_unquoted (hT : ∀ t u, T t u → t.kind ≠ .string → T' t u) :
    ∀ (ss : List (Stmt μ)) {ss' : List (Stmt ν)}, Stmt.AllWellFormed W ss →
    List.Forall₂ (Stmt.Like T M) ss ss' → List.Forall₂ (Stmt.Like T' M) ss ss'
  | [], _, _, .nil => .nil
  | s :: rest, _, ⟨w, ws⟩, .cons h hs => .cons (s.like_unquoted hT w h) (Stmt.allLike_unquoted hT rest ws hs)

theorem Routine.like_unquoted (hT : ∀ t u, T t u → t.kind ≠ .string → T' t u) :
    ∀ (r : Routine (Stmt μ)) {r' : Routine (Stmt ν)}, Routine.WellFormed W r →
    r.Like T (Stmt.Like T M) r' → r.Like T' (Stmt.Like T' M) r'
  | ⟨_, _, body⟩, _, ⟨wn, wp, wb⟩, .mk hn hp hb =>
    .mk (hT _ _ hn (wn.ne_string Kind.noConfusion)) (Routine.params_unquoted hT wp hp)
      (Stmt.allLike_unquoted hT body wb hb)

theorem Routine.allLike_unquoted (hT : ∀ t u, T t u → t.kind ≠ .string → T' t u) :
    ∀ (rs : List (Routine (Stmt μ))) {rs' : List (Routine (Stmt ν))},
    Routine.AllWellFormed W rs → List.Forall₂ (Routine.Like T (Stmt.Like T M)) rs rs' →
      List.Forall₂ (Routine.Like T' (Stmt.Like T' M)) rs rs'
  | [], _, _, .nil => .nil
  | r :: rest, _, ⟨w, ws⟩, .cons h hs =>
    .cons (Routine.like_unquoted hT r w h) (Routine.allLike_unquoted hT rest ws hs)

end

end Trees

/-! ## The tokens of a program -/

/-- What holds of all tokens of a source but its strings. -/
def PassesIn (P : Token → Prop) (source : String) : Prop :=
  ∀ t ∈ (scan source).tokens, t.kind ≠ .string → P t

section Programs

variable {P : Token → Prop} {source : String}

theorem PassesIn.statements (h : PassesIn P source) :
    List.Forall₂ (Stmt.Like (Token.Passes P) Eq) (parse (scan source).tokens).statements
      (parse (scan source).tokens).statements := by
  have all : List.Forall₂ (Token.Passes fun t => t.kind ≠ .string → P t) (scan source).tokens
    (scan source).tokens := Token.Passes.all h
  exact Stmt.allLike_unquoted (fun _ _ ht plain => ⟨ht.same, ht.passes plain⟩) _
    (parse_wellFormed (T := fun _ => True) fun _ _ => trivial) (parse_like Token.Passes.sameText all).1

theorem PassesIn.misuses (h : PassesIn P source) : ∀ e ∈ (resolution source).errors, P e.token := by
  have numbered := (Stmt.numberAll_like (M := Eq) (d := 0) _ h.statements 0).like fun _ _ _ => rfl
  have same := (resolve_like Token.Passes.sameText numbered).2
  exact fun e m => (List.forall₂_same.mp same e m).token.passes

/-- A syntax error is at a token of the source. -/
theorem syntaxError_mem : ∀ e ∈ (parse (scan source).tokens).errors, ∀ t ∈ e.token,
    t ∈ (scan source).tokens := by
  have all : List.Forall₂ (Token.Passes (· ∈ (scan source).tokens)) (scan source).tokens
    (scan source).tokens := Token.Passes.all fun _ m => m
  have same := (parse_like Token.Passes.sameText all).2
  intro e m t ht
  have like := (List.forall₂_same.mp same e m).token
  rw [Option.mem_def.mp ht] at like
  cases like with
  | some like => exact like.passes

end Programs

/-! ## The tokens that a session meets -/

namespace Interpreter

/-- All tokens in the functions that have been made pass a test. -/
def Passes (P : Token → Prop) (i : Interpreter) : Prop := i.Like (Token.Passes P) Eq Eq i

variable {P : Token → Prop} {i : Interpreter} {source : String}

theorem passes_start (P : Token → Prop) (limits : Limits) (reading : Nat → Float) (recording : Bool) :
    (start limits reading recording).Passes P where
  limits := rfl
  machine := {
    scopes := rfl
    functions := fun _ => .none
    functionCount := rfl
    classes := rfl
    instances := rfl
    current := rfl
    table := fun _ _ e => e ▸ rfl
    clock := rfl
    output := rfl
    events := rfl }
  nextMark := rfl

/-- What the tokens of a source pass, the code passes that comes of it, and so does the token
at which it fails. -/
theorem Passes.perform (h : i.Passes P) (hs : PassesIn P source) :
    (i.perform source).1.Passes P ∧ ∀ e, (i.perform source).2 = some (.runtime e) → P e.token := by
  obtain ⟨after, fault⟩ := Interpreter.Like.perform Token.Passes.sameText (fun _ _ _ e => e ▸ rfl) h hs.statements
    (fun _ _ _ _ e₁ e₂ => by rw [e₁, e₂]) fun _ _ _ => rfl
  refine ⟨after, fun e he => ?_⟩
  rw [he] at fault
  cases fault with
  | some fault =>
    cases fault with
    | runtime like => exact like.token.passes

theorem Passes.takeEvents (h : i.Passes P) : i.takeEvents.2.Passes P :=
  Interpreter.Like.takeEvents h fun _ _ e => e ▸ rfl

end Interpreter

/-- What the tokens of all sources pass, the code of a session passes at any time. -/
theorem Session.Reachable.passes {P : Token → Prop} (hP : ∀ source, PassesIn P source) {s : Session}
    (h : s.Reachable) : s.interpreter.Passes P := by
  induction h with
  | start host _ _ verbose reading => exact Interpreter.passes_start P host.limits reading verbose
  | @run s h source ih =>
    obtain same | ⟨-, -, after⟩ := run_performs h.fatal source
    · exact same ▸ ih
    · rw [after]
      exact (ih.perform (hP source)).1.takeEvents
  | reset _ ih => exact ih

end Lox
