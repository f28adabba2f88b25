import Lox.Proofs.Marks
import Mathlib.Data.List.Forall2

/-! # Trees of the same form

Two trees are alike if they differ in their tokens and marks only, and these are
related as two given relations say. The tokens of like trees read alike, so that only
the lines are left in which they may differ. -/

namespace Lox

/-- Two tokens that are spelled alike, perhaps on different lines. -/
structure Token.SameText (t u : Token) : Prop where
  kind : u.kind = t.kind
  lexeme : u.lexeme = t.lexeme
  literal : u.literal = t.literal

theorem Token.SameText.refl (t : Token) : t.SameText t := ⟨rfl, rfl, rfl⟩

theorem Token.sameText_of_eq (t u : Token) (h : t = u) : t.SameText u := h ▸ .refl t

variable {μ ν : Type} (T : Token → Token → Prop) (M : μ → ν → Prop)

structure Reference.Like (r : Reference μ) (r' : Reference ν) : Prop where
  mark : M r.mark r'.mark
  name : T r.name r'.name

inductive Expr.Like : Expr μ → Expr ν → Prop
  | literal (value : Literal) : Like (.literal value) (.literal value)
  | grouping {e : Expr μ} {e' : Expr ν} (h : Like e e') : Like (.grouping e) (.grouping e')
  | unary {op op' : Token} {e : Expr μ} {e' : Expr ν} (ho : T op op') (h : Like e e') :
      Like (.unary op e) (.unary op' e')
  | binary {op op' : Token} {l r : Expr μ} {l' r' : Expr ν} (hl : Like l l') (ho : T op op')
      (hr : Like r r') : Like (.binary l op r) (.binary l' op' r')
  | logical {op op' : Token} {l r : Expr μ} {l' r' : Expr ν} (hl : Like l l') (ho : T op op')
      (hr : Like r r') : Like (.logical l op r) (.logical l' op' r')
  | name {r : Reference μ} {r' : Reference ν} (h : r.Like T M r') : Like (.name r) (.name r')
  | assign {r : Reference μ} {r' : Reference ν} {e : Expr μ} {e' : Expr ν} (h : r.Like T M r')
      (he : Like e e') : Like (.assign r e) (.assign r' e')
  | call {c : Expr μ} {c' : Expr ν} {p p' : Token} {as : List (Expr μ)} {as' : List (Expr ν)}
      (hc : Like c c') (hp : T p p') (ha : List.Forall₂ Like as as') : Like (.call c p as) (.call c' p' as')
  | get {o : Expr μ} {o' : Expr ν} {p p' : Token} (ho : Like o o') (hp : T p p') :
      Like (.get o p) (.get o' p')
  | set {o v : Expr μ} {o' v' : Expr ν} {p p' : Token} (ho : Like o o') (hp : T p p') (hv : Like v v') :
      Like (.set o p v) (.set o' p' v')
  | this {r : Reference μ} {r' : Reference ν} (h : r.Like T M r') : Like (.this r) (.this r')
  | super {r : Reference μ} {r' : Reference ν} {m m' : Token} (h : r.Like T M r') (hm : T m m') :
      Like (.super r m) (.super r' m')

/-- Routines that are alike, as their bodies are. -/
inductive Routine.Like {σ τ : Type} (S : σ → τ → Prop) : Routine σ → Routine τ → Prop
  | mk {n n' : Token} {ps ps' : List Token} {body : List σ} {body' : List τ} (hn : T n n')
      (hp : List.Forall₂ T ps ps') (hb : List.Forall₂ S body body') : Like S ⟨n, ps, body⟩ ⟨n', ps', body'⟩

theorem Routine.Like.name {σ τ : Type} {S : σ → τ → Prop} {r : Routine σ} {r' : Routine τ}
    (h : r.Like T S r') : T r.name r'.name := by
  cases h with
  | mk hn _ _ => exact hn

inductive Stmt.Like : Stmt μ → Stmt ν → Prop
  | expression {e : Expr μ} {e' : Expr ν} (h : e.Like T M e') : Like (.expression e) (.expression e')
  | print {e : Expr μ} {e' : Expr ν} (h : e.Like T M e') : Like (.print e) (.print e')
  | declare {n n' : Token} {e : Option (Expr μ)} {e' : Option (Expr ν)} (hn : T n n')
      (h : Option.Rel (Expr.Like T M) e e') : Like (.declare n e) (.declare n' e')
  | block {ss : List (Stmt μ)} {ss' : List (Stmt ν)} (h : List.Forall₂ Like ss ss') :
      Like (.block ss) (.block ss')
  | branch {c : Expr μ} {c' : Expr ν} {y : Stmt μ} {y' : Stmt ν} {n : Option (Stmt μ)}
      {n' : Option (Stmt ν)} (hc : c.Like T M c') (hy : Like y y') (hn : Option.Rel Like n n') :
      Like (.branch c y n) (.branch c' y' n')
  | loop {c : Expr μ} {c' : Expr ν} {s : Stmt μ} {s' : Stmt ν} (hc : c.Like T M c') (h : Like s s') :
      Like (.loop c s) (.loop c' s')
  | function {r : Routine (Stmt μ)} {r' : Routine (Stmt ν)} (h : r.Like T Like r') :
      Like (.function r) (.function r')
  | leave {k k' : Token} {e : Option (Expr μ)} {e' : Option (Expr ν)} (hk : T k k')
      (h : Option.Rel (Expr.Like T M) e e') : Like (.leave k e) (.leave k' e')
  | klass {n n' : Token} {p : Option (Reference μ)} {p' : Option (Reference ν)}
      {ms : List (Routine (Stmt μ))} {ms' : List (Routine (Stmt ν))} (hn : T n n')
      (hp : Option.Rel (Reference.Like T M) p p') (hm : List.Forall₂ (Routine.Like T Like) ms ms') :
      Like (.klass n p ms) (.klass n' p' ms')

variable {T M} {T' : Token → Token → Prop}

/-! ## A tree is like itself -/

section Refl

variable {M : μ → μ → Prop}

theorem Reference.like_refl (hT : ∀ t, T t t) (hM : ∀ m, M m m)
    (r : Reference μ) : r.Like T M r := ⟨hM r.mark, hT r.name⟩

mutual

theorem Expr.like_refl (hT : ∀ t, T t t) (hM : ∀ m, M m m) : ∀ e : Expr μ, e.Like T M e
  | .literal value => .literal value
  | .grouping e => .grouping (e.like_refl hT hM)
  | .unary op e => .unary (hT op) (e.like_refl hT hM)
  | .binary l op r => .binary (l.like_refl hT hM) (hT op) (r.like_refl hT hM)
  | .logical l op r => .logical (l.like_refl hT hM) (hT op) (r.like_refl hT hM)
  | .name r => .name (r.like_refl hT hM)
  | .assign r e => .assign (r.like_refl hT hM) (e.like_refl hT hM)
  | .call c p as => .call (c.like_refl hT hM) (hT p) (Expr.allLike_refl hT hM as)
  | .get o p => .get (o.like_refl hT hM) (hT p)
  | .set o p v => .set (o.like_refl hT hM) (hT p) (v.like_refl hT hM)
  | .this r => .this (r.like_refl hT hM)
  | .super r m => .super (r.like_refl hT hM) (hT m)

theorem Expr.allLike_refl (hT : ∀ t, T t t) (hM : ∀ m, M m m) :
    ∀ es : List (Expr μ), List.Forall₂ (Expr.Like T M) es es
  | [] => .nil
  | e :: rest => .cons (e.like_refl hT hM) (Expr.allLike_refl hT hM rest)

end

theorem Expr.like_refl? (hT : ∀ t, T t t) (hM : ∀ m, M m m) :
    ∀ e : Option (Expr μ), Option.Rel (Expr.Like T M) e e
  | none => .none
  | some e => .some (e.like_refl hT hM)

theorem Reference.like_refl? (hT : ∀ t, T t t) (hM : ∀ m, M m m) :
    ∀ r : Option (Reference μ), Option.Rel (Reference.Like T M) r r
  | none => .none
  | some r => .some (r.like_refl hT hM)

mutual

theorem Stmt.like_refl (hT : ∀ t, T t t) (hM : ∀ m, M m m) : ∀ s : Stmt μ, s.Like T M s
  | .expression e => .expression (e.like_refl hT hM)
  | .print e => .print (e.like_refl hT hM)
  | .declare n e => .declare (hT n) (Expr.like_refl? hT hM e)
  | .block ss => .block (Stmt.allLike_refl hT hM ss)
  | .branch c y n => .branch (c.like_refl hT hM) (y.like_refl hT hM) (Stmt.like_refl? hT hM n)
  | .loop c s => .loop (c.like_refl hT hM) (s.like_refl hT hM)
  | .function r => .function (Routine.like_refl hT hM r)
  | .leave k e => .leave (hT k) (Expr.like_refl? hT hM e)
  | .klass n p ms => .klass (hT n) (Reference.like_refl? hT hM p) (Routine.allLike_refl hT hM ms)

theorem Stmt.like_refl? (hT : ∀ t, T t t) (hM : ∀ m, M m m) :
    ∀ s : Option (Stmt μ), Option.Rel (Stmt.Like T M) s s
  | none => .none
  | some s => .some (s.like_refl hT hM)

theorem Stmt.allLike_refl (hT : ∀ t, T t t) (hM : ∀ m, M m m) :
    ∀ ss : List (Stmt μ), List.Forall₂ (Stmt.Like T M) ss ss
  | [] => .nil
  | s :: rest => .cons (s.like_refl hT hM) (Stmt.allLike_refl hT hM rest)

theorem Routine.like_refl (hT : ∀ t, T t t) (hM : ∀ m, M m m) :
    ∀ r : Routine (Stmt μ), r.Like T (Stmt.Like T M) r
  | ⟨n, _, body⟩ => .mk (hT n) (List.forall₂_same.mpr fun p _ => hT p) (Stmt.allLike_refl hT hM body)

theorem Routine.allLike_refl (hT : ∀ t, T t t) (hM : ∀ m, M m m) : ∀ rs : List (Routine (Stmt μ)),
    List.Forall₂ (Routine.Like T (Stmt.Like T M)) rs rs
  | [] => .nil
  | r :: rest => .cons (Routine.like_refl hT hM r) (Routine.allLike_refl hT hM rest)

end

end Refl

theorem Stmt.allLike_same (ss : List (Stmt μ)) : List.Forall₂ (Stmt.Like Eq Eq) ss ss :=
  Stmt.allLike_refl (fun _ => rfl) (fun _ => rfl) ss

/-! ## Weaker relations -/

section Mono

variable {M' : μ → ν → Prop}

theorem Reference.Like.mono (hT : ∀ t u, T t u → T' t u) (hM : ∀ m n, M m n → M' m n)
    {r : Reference μ} {r' : Reference ν} (h : r.Like T M r') :
    r.Like T' M' r' := ⟨hM _ _ h.mark, hT _ _ h.name⟩

mutual

theorem Expr.like_mono (hT : ∀ t u, T t u → T' t u) (hM : ∀ m n, M m n → M' m n) :
    ∀ (e : Expr μ) {e' : Expr ν}, e.Like T M e' → e.Like T' M' e'
  | .literal _, _, .literal value => .literal value
  | .grouping e, _, .grouping h => .grouping (e.like_mono hT hM h)
  | .unary _ e, _, .unary ho h => .unary (hT _ _ ho) (e.like_mono hT hM h)
  | .binary l _ r, _, .binary hl ho hr => .binary (l.like_mono hT hM hl) (hT _ _ ho) (r.like_mono hT hM hr)
  | .logical l _ r, _, .logical hl ho hr => .logical (l.like_mono hT hM hl) (hT _ _ ho) (r.like_mono hT hM hr)
  | .name _, _, .name h => .name (h.mono hT hM)
  | .assign _ e, _, .assign h he => .assign (h.mono hT hM) (e.like_mono hT hM he)
  | .call c _ as, _, .call hc hp ha => .call (c.like_mono hT hM hc) (hT _ _ hp) (Expr.allLike_mono hT hM as ha)
  | .get o _, _, .get ho hp => .get (o.like_mono hT hM ho) (hT _ _ hp)
  | .set o _ v, _, .set ho hp hv => .set (o.like_mono hT hM ho) (hT _ _ hp) (v.like_mono hT hM hv)
  | .this _, _, .this h => .this (h.mono hT hM)
  | .super _ _, _, .super h hm => .super (h.mono hT hM) (hT _ _ hm)

theorem Expr.allLike_mono (hT : ∀ t u, T t u → T' t u) (hM : ∀ m n, M m n → M' m n) :
    ∀ (es : List (Expr μ)) {es' : List (Expr ν)},
    List.Forall₂ (Expr.Like T M) es es' → List.Forall₂ (Expr.Like T' M') es es'
  | [], _, .nil => .nil
  | e :: rest, _, .cons h hs => .cons (e.like_mono hT hM h) (Expr.allLike_mono hT hM rest hs)

end

theorem Expr.like_mono? (hT : ∀ t u, T t u → T' t u) (hM : ∀ m n, M m n → M' m n) :
    ∀ {e : Option (Expr μ)} {e' : Option (Expr ν)},
    Option.Rel (Expr.Like T M) e e' → Option.Rel (Expr.Like T' M') e e'
  | _, _, .none => .none
  | _, _, .some h => .some (Expr.like_mono hT hM _ h)

theorem Reference.like_mono? (hT : ∀ t u, T t u → T' t u) (hM : ∀ m n, M m n → M' m n) :
    ∀ {r : Option (Reference μ)} {r' : Option (Reference ν)},
    Option.Rel (Reference.Like T M) r r' → Option.Rel (Reference.Like T' M') r r'
  | _, _, .none => .none
  | _, _, .some h => .some (h.mono hT hM)

mutual

theorem Stmt.like_mono (hT : ∀ t u, T t u → T' t u) (hM : ∀ m n, M m n → M' m n) :
    ∀ (s : Stmt μ) {s' : Stmt ν}, s.Like T M s' → s.Like T' M' s'
  | .expression e, _, .expression h => .expression (e.like_mono hT hM h)
  | .print e, _, .print h => .print (e.like_mono hT hM h)
  | .declare _ _, _, .declare hn h => .declare (hT _ _ hn) (Expr.like_mono? hT hM h)
  | .block ss, _, .block h => .block (Stmt.allLike_mono hT hM ss h)
  | .branch c y n, _, .branch hc hy hn =>
    .branch (c.like_mono hT hM hc) (y.like_mono hT hM hy) (Stmt.like_mono? hT hM n hn)
  | .loop c s, _, .loop hc h => .loop (c.like_mono hT hM hc) (s.like_mono hT hM h)
  | .function r, _, .function h => .function (Routine.like_mono hT hM r h)
  | .leave _ _, _, .leave hk h => .leave (hT _ _ hk) (Expr.like_mono? hT hM h)
  | .klass _ _ ms, _, .klass hn hp hm =>
    .klass (hT _ _ hn) (Reference.like_mono? hT hM hp) (Routine.allLike_mono hT hM ms hm)

theorem Stmt.like_mono? (hT : ∀ t u, T t u → T' t u) (hM : ∀ m n, M m n → M' m n) :
    ∀ (s : Option (Stmt μ)) {s' : Option (Stmt ν)},
    Option.Rel (Stmt.Like T M) s s' → Option.Rel (Stmt.Like T' M') s s'
  | none, _, .none => .none
  | some s, _, .some h => .some (s.like_mono hT hM h)

theorem Stmt.allLike_mono (hT : ∀ t u, T t u → T' t u) (hM : ∀ m n, M m n → M' m n) :
    ∀ (ss : List (Stmt μ)) {ss' : List (Stmt ν)},
    List.Forall₂ (Stmt.Like T M) ss ss' → List.Forall₂ (Stmt.Like T' M') ss ss'
  | [], _, .nil => .nil
  | s :: rest, _, .cons h hs => .cons (s.like_mono hT hM h) (Stmt.allLike_mono hT hM rest hs)

theorem Routine.like_mono (hT : ∀ t u, T t u → T' t u) (hM : ∀ m n, M m n → M' m n) :
    ∀ (r : Routine (Stmt μ)) {r' : Routine (Stmt ν)},
    r.Like T (Stmt.Like T M) r' → r.Like T' (Stmt.Like T' M') r'
  | ⟨_, _, body⟩, _, .mk hn hp hb => .mk (hT _ _ hn) (hp.imp hT) (Stmt.allLike_mono hT hM body hb)

theorem Routine.allLike_mono (hT : ∀ t u, T t u → T' t u) (hM : ∀ m n, M m n → M' m n) :
    ∀ (rs : List (Routine (Stmt μ))) {rs' : List (Routine (Stmt ν))},
    List.Forall₂ (Routine.Like T (Stmt.Like T M)) rs rs' →
      List.Forall₂ (Routine.Like T' (Stmt.Like T' M')) rs rs'
  | [], _, .nil => .nil
  | r :: rest, _, .cons h hs => .cons (Routine.like_mono hT hM r h) (Routine.allLike_mono hT hM rest hs)

end

end Mono

/-! ## Numbering

Like trees that are numbered from two places on get marks that are as far apart. -/

section Number

variable {μ₀ : Unit → Unit → Prop} {M : Nat → Nat → Prop} {d : Nat}

/-- Marks between two bounds are related to the marks that are so much greater. -/
def Relates (M : Nat → Nat → Prop) (d n k : Nat) : Prop := ∀ i, n ≤ i → i < k → M i (i + d)

theorem Relates.part {n n' k k' : Nat} (h : Relates M d n k) (hn : n ≤ n') (hk : k' ≤ k) :
    Relates M d n' k' := fun i hi hj => h i (by omega) (by omega)

/-- What comes of numbering from two places on. -/
structure Numbered {α β : Type} (R : α → β → Prop) (M : Nat → Nat → Prop) (d n : Nat)
    (out : α × Nat) (out' : β × Nat) : Prop where
  grows : n ≤ out.2
  next : out'.2 = out.2 + d
  like : Relates M d n out.2 → R out.1 out'.1

namespace Numbered

variable {α α' β β' γ γ' : Type} {R : α → α' → Prop} {S : β → β' → Prop} {Q : γ → γ' → Prop} {n : Nat}
  {out : α × Nat} {out' : α' × Nat}

theorem done {a : α} {a' : α'} (h : R a a') : Numbered R M d n (a, n) (a', n + d) :=
  ⟨Nat.le_refl n, rfl, fun _ => h⟩

theorem one {f : α → γ} {f' : α' → γ'} (h : Numbered R M d n out out')
    (hf : ∀ a a', R a a' → Q (f a) (f' a')) :
    Numbered Q M d n (f out.1, out.2) (f' out'.1, out'.2) :=
  ⟨h.grows, h.next, fun hM => hf _ _ (h.like hM)⟩

theorem two {g : Nat → β × Nat} {g' : Nat → β' × Nat} {f : α → β → γ} {f' : α' → β' → γ'}
    (h : Numbered R M d n out out') (hg : ∀ k, Numbered S M d k (g k) (g' (k + d)))
    (hf : ∀ a a' b b', R a a' → S b b' → Q (f a b) (f' a' b')) :
    Numbered Q M d n (f out.1 (g out.2).1, (g out.2).2) (f' out'.1 (g' out'.2).1, (g' out'.2).2) := by
  obtain ⟨grows, next, like⟩ := hg out.2
  rw [h.next]
  exact ⟨Nat.le_trans h.grows grows, next, fun hM =>
    hf _ _ _ _ (h.like (hM.part (Nat.le_refl n) grows)) (like (hM.part h.grows (Nat.le_refl _)))⟩

theorem three {δ δ' : Type} {U : δ → δ' → Prop} {g : Nat → β × Nat} {g' : Nat → β' × Nat}
    {j : Nat → γ × Nat} {j' : Nat → γ' × Nat} {f : α → β → γ → δ} {f' : α' → β' → γ' → δ'}
    (h : Numbered R M d n out out') (hg : ∀ k, Numbered S M d k (g k) (g' (k + d)))
    (hj : ∀ k, Numbered Q M d k (j k) (j' (k + d)))
    (hf : ∀ a a' b b' c c', R a a' → S b b' → Q c c' → U (f a b c) (f' a' b' c')) :
    Numbered U M d n (f out.1 (g out.2).1 (j (g out.2).2).1, (j (g out.2).2).2)
      (f' out'.1 (g' out'.2).1 (j' (g' out'.2).2).1, (j' (g' out'.2).2).2) := by
  have second := hg out.2
  rw [← h.next] at second
  have third := hj (g out.2).2
  rw [← second.next] at third
  have late := Nat.le_trans h.grows second.grows
  exact ⟨Nat.le_trans late third.grows, third.next, fun hM => hf _ _ _ _ _ _
    (h.like (hM.part (Nat.le_refl n) (Nat.le_trans second.grows third.grows)))
    (second.like (hM.part h.grows third.grows)) (third.like (hM.part late (Nat.le_refl _)))⟩

end Numbered

theorem Reference.number_like {r r' : Reference Unit} (h : r.Like T μ₀ r') (n : Nat) :
    Numbered (Reference.Like T M) M d n (r.number n) (r'.number (n + d)) where
  grows := Nat.le_succ n
  next := Nat.add_right_comm n d 1
  like hM := ⟨hM n (Nat.le_refl n) (Nat.lt_succ_self n), h.name⟩

mutual

theorem Expr.number_like : ∀ (e : Expr Unit) {e' : Expr Unit}, e.Like T μ₀ e' → ∀ n,
    Numbered (Expr.Like T M) M d n (e.number n) (e'.number (n + d))
  | .literal _, _, .literal value, _ => .done (.literal value)
  | .grouping e, _, .grouping h, n => (e.number_like h n).one fun _ _ h => Expr.Like.grouping h
  | .unary _ e, _, .unary ho h, n => (e.number_like h n).one fun _ _ h => Expr.Like.unary ho h
  | .binary l _ r, _, .binary hl ho hr, n =>
    (l.number_like hl n).two (r.number_like hr) fun _ _ _ _ hl hr => Expr.Like.binary hl ho hr
  | .logical l _ r, _, .logical hl ho hr, n =>
    (l.number_like hl n).two (r.number_like hr) fun _ _ _ _ hl hr => Expr.Like.logical hl ho hr
  | .name _, _, .name h, n => (Reference.number_like h n).one fun _ _ h => Expr.Like.name h
  | .assign _ e, _, .assign h he, n =>
    (Reference.number_like h n).two (e.number_like he) fun _ _ _ _ h he => Expr.Like.assign h he
  | .call c _ as, _, .call hc hp ha, n =>
    (c.number_like hc n).two (Expr.numberAll_like as ha) fun _ _ _ _ hc ha => Expr.Like.call hc hp ha
  | .get o _, _, .get ho hp, n => (o.number_like ho n).one fun _ _ ho => Expr.Like.get ho hp
  | .set o _ v, _, .set ho hp hv, n =>
    (o.number_like ho n).two (v.number_like hv) fun _ _ _ _ ho hv => Expr.Like.set ho hp hv
  | .this _, _, .this h, n => (Reference.number_like h n).one fun _ _ h => Expr.Like.this h
  | .super _ _, _, .super h hm, n => (Reference.number_like h n).one fun _ _ h => Expr.Like.super h hm

theorem Expr.numberAll_like : ∀ (es : List (Expr Unit)) {es' : List (Expr Unit)},
    List.Forall₂ (Expr.Like T μ₀) es es' → ∀ n,
    Numbered (List.Forall₂ (Expr.Like T M)) M d n (Expr.numberAll es n) (Expr.numberAll es' (n + d))
  | [], _, .nil, _ => .done .nil
  | e :: rest, _, .cons h hs, n =>
    (e.number_like h n).two (Expr.numberAll_like rest hs) fun _ _ _ _ h hs => List.Forall₂.cons h hs

end

theorem Expr.number?_like : ∀ {e e' : Option (Expr Unit)}, Option.Rel (Expr.Like T μ₀) e e' → ∀ n,
    Numbered (Option.Rel (Expr.Like T M)) M d n (Expr.number? e n) (Expr.number? e' (n + d))
  | _, _, .none, _ => .done .none
  | _, _, .some h, n => (Expr.number_like _ h n).one fun _ _ h => Option.Rel.some h

theorem Reference.number?_like : ∀ {r r' : Option (Reference Unit)},
    Option.Rel (Reference.Like T μ₀) r r' → ∀ n,
    Numbered (Option.Rel (Reference.Like T M)) M d n (Reference.number? r n) (Reference.number? r' (n + d))
  | _, _, .none, _ => .done .none
  | _, _, .some h, n => (Reference.number_like h n).one fun _ _ h => Option.Rel.some h

mutual

theorem Stmt.number_like : ∀ (s : Stmt Unit) {s' : Stmt Unit}, s.Like T μ₀ s' → ∀ n,
    Numbered (Stmt.Like T M) M d n (s.number n) (s'.number (n + d))
  | .expression e, _, .expression h, n => (e.number_like h n).one fun _ _ h => Stmt.Like.expression h
  | .print e, _, .print h, n => (e.number_like h n).one fun _ _ h => Stmt.Like.print h
  | .declare _ _, _, .declare hn h, n => (Expr.number?_like h n).one fun _ _ h => Stmt.Like.declare hn h
  | .block ss, _, .block h, n => (Stmt.numberAll_like ss h n).one fun _ _ h => Stmt.Like.block h
  | .branch c y no, _, .branch hc hy hn, n =>
    (c.number_like hc n).three (y.number_like hy) (Stmt.number?_like no hn)
      fun _ _ _ _ _ _ hc hy hn => Stmt.Like.branch hc hy hn
  | .loop c s, _, .loop hc h, n =>
    (c.number_like hc n).two (s.number_like h) fun _ _ _ _ hc h => Stmt.Like.loop hc h
  | .function r, _, .function h, n => (Routine.number_like r h n).one fun _ _ h => Stmt.Like.function h
  | .leave _ _, _, .leave hk h, n => (Expr.number?_like h n).one fun _ _ h => Stmt.Like.leave hk h
  | .klass _ _ ms, _, .klass hn hp hm, n =>
    (Reference.number?_like hp n).two (Routine.numberAll_like ms hm) fun _ _ _ _ hp hm => Stmt.Like.klass hn hp hm

theorem Stmt.number?_like : ∀ (s : Option (Stmt Unit)) {s' : Option (Stmt Unit)},
    Option.Rel (Stmt.Like T μ₀) s s' → ∀ n,
    Numbered (Option.Rel (Stmt.Like T M)) M d n (Stmt.number? s n) (Stmt.number? s' (n + d))
  | none, _, .none, _ => .done .none
  | some s, _, .some h, n => (s.number_like h n).one fun _ _ h => Option.Rel.some h

theorem Stmt.numberAll_like : ∀ (ss : List (Stmt Unit)) {ss' : List (Stmt Unit)},
    List.Forall₂ (Stmt.Like T μ₀) ss ss' → ∀ n,
    Numbered (List.Forall₂ (Stmt.Like T M)) M d n (Stmt.numberAll ss n) (Stmt.numberAll ss' (n + d))
  | [], _, .nil, _ => .done .nil
  | s :: rest, _, .cons h hs, n =>
    (s.number_like h n).two (Stmt.numberAll_like rest hs) fun _ _ _ _ h hs => List.Forall₂.cons h hs

theorem Routine.number_like : ∀ (r : Routine (Stmt Unit)) {r' : Routine (Stmt Unit)},
    r.Like T (Stmt.Like T μ₀) r' → ∀ n,
    Numbered (Routine.Like T (Stmt.Like T M)) M d n (Routine.number r n) (Routine.number r' (n + d))
  | ⟨_, _, body⟩, _, .mk hn hp hb, n => (Stmt.numberAll_like body hb n).one fun _ _ hb => Routine.Like.mk hn hp hb

theorem Routine.numberAll_like : ∀ (rs : List (Routine (Stmt Unit))) {rs' : List (Routine (Stmt Unit))},
    List.Forall₂ (Routine.Like T (Stmt.Like T μ₀)) rs rs' → ∀ n,
    Numbered (List.Forall₂ (Routine.Like T (Stmt.Like T M))) M d n (Routine.numberAll rs n)
      (Routine.numberAll rs' (n + d))
  | [], _, .nil, _ => .done .nil
  | r :: rest, _, .cons h hs, n =>
    (Routine.number_like r h n).two (Routine.numberAll_like rest hs) fun _ _ _ _ h hs => List.Forall₂.cons h hs

end

end Number

end Lox
