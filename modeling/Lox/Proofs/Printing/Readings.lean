import Lox.Proofs.Printing.Writing

/-! # The tokens of a tree say what its printer writes

Whichever tokens a tree has been read from, they say the same as those that are printed
for it, as long as they were made from a source and no counting loop is among them. -/

namespace Lox

/-- Tokens that a source may have and that a printer may write. -/
def Printable (ts : List Token) : Prop := ∀ t ∈ ts, t.Proper ∧ t.kind ≠ .kwFor

namespace Printable

variable {t : Token} {ts us : List Token}

theorem head (h : Printable (t :: ts)) : t.Proper := (h t List.mem_cons_self).1

theorem headKind (h : Printable (t :: ts)) : t.kind ≠ .kwFor := (h t List.mem_cons_self).2

theorem tail (h : Printable (t :: ts)) : Printable ts := fun u m => h u (List.mem_cons_of_mem t m)

theorem left (h : Printable (ts ++ us)) : Printable ts := fun u m => h u (List.mem_append_left us m)

theorem right (h : Printable (ts ++ us)) : Printable us := fun u m => h u (List.mem_append_right ts m)

end Printable

/-- Rows of tokens that say the same. -/
def Agree (ts us : List Token) : Prop := ts.map Token.reading = us.map Token.reading

namespace Agree

variable {t u : Token} {ts us vs ws : List Token}

theorem refl (ts : List Token) : Agree ts ts := rfl

theorem cons (h : t.reading = u.reading) (k : Agree ts us) : Agree (t :: ts) (u :: us) := by
  unfold Agree at k ⊢
  rw [List.map_cons, List.map_cons, h, k]

/-- A token that has been kept. -/
theorem keep (k : Agree ts us) : Agree (t :: ts) (t :: us) := cons rfl k

theorem append (h : Agree ts us) (k : Agree vs ws) : Agree (ts ++ vs) (us ++ ws) := by
  unfold Agree at h k ⊢
  rw [List.map_append, List.map_append, h, k]

end Agree

theorem Token.Proper.plain {t : Token} {k : Kind} (ht : t.Proper) (hk : t.kind = k)
    (hs : k.spelling?.isSome = true) : t.reading = (Token.plain k).reading := by
  obtain ⟨s, hs⟩ := Option.isSome_iff_exists.mp hs
  have lexeme : t.lexeme = s := ht.spelling s (by rw [hk]; exact hs)
  have other : ¬(k = .number ∨ k = .string) := by
    rintro (rfl | rfl)
    · cases hs
    · cases hs
  simp [reading, Token.plain, hk, hs, lexeme, other]

/-- A token with the lexeme of its kind in front of others. -/
theorem Printable.put {t : Token} {ts us : List Token} {k : Kind} (h : Printable (t :: ts))
    (hk : t.kind = k) (ha : Agree ts us) (hs : k.spelling?.isSome = true := by rfl) :
    Agree (t :: ts) (.plain k :: us) := .cons (h.head.plain hk hs) ha

theorem Token.Proper.denotes {t : Token} {v : Literal} (ht : t.Proper) (h : t.denotes? = some v) :
    t.reading = v.token.reading := by
  unfold denotes? at h
  split at h
  case h_1 hk | h_2 hk | h_3 hk =>
    cases h
    exact ht.plain hk rfl
  case h_4 hk =>
    obtain ⟨x, hx⟩ := ht.number hk
    rw [hx] at h
    cases h
    simp [reading, Literal.token, hk, hx]
  case h_5 hk =>
    obtain ⟨s, hs⟩ := ht.string hk
    rw [hs] at h
    cases h
    simp [reading, Literal.token, hk, hs]
  case h_6 => cases h

section Lists

variable {α : Type} {P : α → List Token → Prop} {f : α → List Token}

/-- What agrees with each element. -/
def Writer (P : α → List Token → Prop) (f : α → List Token) (a : α) : Prop :=
  ∀ ts, P a ts → Printable ts → Agree ts (f a)

theorem Commas.agree {as : List α} {ts : List Token} (h : Commas P as ts) (hp : Printable ts)
    (hf : ∀ a ∈ as, Writer P f a) : Agree ts (separated (as.map f)) := by
  induction h with
  | @last a ts h => exact hf a List.mem_cons_self ts h hp
  | @cons a as ts us c h hc hs ih =>
    have first := hf a List.mem_cons_self ts h hp.left
    have others := ih hp.right.tail fun b m => hf b (List.mem_cons_of_mem a m)
    cases as with
    | nil => cases hs
    | cons b as => exact first.append (hp.right.put hc others)

theorem Listing.agree {as : List α} {ts : List Token} (h : Listing P as ts) (hp : Printable ts)
    (hf : ∀ a ∈ as, Writer P f a) : Agree ts (separated (as.map f)) := by
  cases h with
  | empty => exact .refl []
  | full h _ => exact h.agree hp hf

end Lists

mutual

theorem Expr.Writes.agree : ∀ {e : Expr Unit} {ts : List Token}, e.Writes ts → Printable ts →
    Agree ts e.tokens
  | .literal _, _, h, hp => by
    cases h with
    | literal h => exact .cons (hp.head.denotes h) (.refl [])
  | .grouping _, _, h, hp => by
    cases h with
    | grouping hl h hr =>
      exact hp.put hl ((h.agree hp.tail.left).append (hp.tail.right.put hr (.refl [])))
  | .unary _ _, _, h, hp => by
    cases h with
    | unary _ h => exact .keep (h.agree hp.tail)
  | .binary _ _ _, _, h, hp => by
    cases h with
    | binary _ hl _ hr =>
      exact (hl.agree hp.left).append (.keep (hr.agree hp.right.tail))
  | .logical _ _ _, _, h, hp => by
    cases h with
    | logical _ hl _ hr =>
      exact (hl.agree hp.left).append (.keep (hr.agree hp.right.tail))
  | .name _, _, h, _ => by
    cases h with
    | name => exact .refl _
  | .assign _ _, _, h, hp => by
    cases h with
    | assign _ hq h =>
      exact .keep (hp.tail.put hq (h.agree hp.tail.tail))
  | .call callee _ arguments, _, h, hp => by
    cases h with
    | call hc _ hl ha _ =>
      have listed := ha.agree hp.right.tail.left (Expr.Writes.agreeEach arguments)
      rw [← Expr.tokensOfEach_eq] at listed
      exact (hc.agree hp.left).append (hp.right.put hl (listed.append (.refl _)))
  | .get _ _, _, h, hp => by
    cases h with
    | get ho _ hd _ =>
      exact (ho.agree hp.left).append (hp.right.put hd (.refl _))
  | .set _ _ _, _, h, hp => by
    cases h with
    | set ho _ hd _ hq h =>
      have behind := hp.right.tail.tail
      exact (ho.agree hp.left).append (hp.right.put hd (.keep (behind.put hq (h.agree behind.tail))))
  | .this _, _, h, _ => by
    cases h with
    | this => exact .refl _
  | .super _ _, _, h, hp => by
    cases h with
    | super _ hd _ => exact .keep (hp.tail.put hd (.refl _))

theorem Expr.Writes.agreeEach : ∀ (es : List (Expr Unit)), ∀ e ∈ es, Writer Expr.Writes Expr.tokens e
  | [] => fun _ m => absurd m List.not_mem_nil
  | _ :: rest =>
    List.forall_mem_cons.mpr ⟨fun _ h hp => h.agree hp, Expr.Writes.agreeEach rest⟩

end

theorem Clause.agree {e : Option (Expr Unit)} {ts : List Token} (h : Clause Expr.Writes e ts)
    (hp : Printable ts) : Agree ts (Expr.tokens? e) := by
  cases h with
  | absent => exact .refl []
  | present h => exact h.agree hp

theorem Reference.WritesParent.agree {r : Option (Reference Unit)} {ts : List Token}
    (h : Reference.WritesParent r ts) (hp : Printable ts) : Agree ts (Reference.parentTokens r) := by
  cases h with
  | absent => exact .refl []
  | present hl _ => exact hp.put hl (.refl _)

theorem Token.Names.agree (t : Token) : Writer Token.Names ([·]) t := by
  intro ts h _
  rw [h.2]
  exact .refl [t]

mutual

theorem Stmt.Writes.agree : ∀ {s : Stmt Unit} {o : Bool} {ts : List Token}, s.Writes o ts →
    Printable ts → Agree ts s.tokens
  | .expression _, _, _, h, hp => by
    cases h with
    | expression h hs =>
      exact (h.agree hp.left).append (hp.right.put hs (.refl []))
    | counting _ hk => exact absurd hk hp.headKind
  | .print _, _, _, h, hp => by
    cases h with
    | print hk h hs =>
      exact hp.put hk ((h.agree hp.tail.left).append (hp.tail.right.put hs (.refl [])))
    | counting _ hk => exact absurd hk hp.headKind
  | .declare _ _, _, _, h, hp => by
    cases h with
    | declare hk _ hs =>
      exact hp.put hk (.keep (hp.tail.tail.put hs (.refl [])))
    | define hk _ hq h hs =>
      have value := hp.tail.tail
      exact hp.put hk (.keep (value.put hq ((h.agree value.tail.left).append
        (value.tail.right.put hs (.refl [])))))
    | counting _ hk => exact absurd hk hp.headKind
  | .block _, _, _, h, hp => by
    cases h with
    | block hl h hr =>
      exact hp.put hl ((Stmt.Writes.agreeAll h hp.tail.left).append (hp.tail.right.put hr (.refl [])))
    | counting _ hk => exact absurd hk hp.headKind
  | .branch _ _ none, _, _, h, hp => by
    cases h with
    | branch hk hl hc hr hy _ =>
      have body := (hy.agree hp.tail.tail.right.tail).append (.refl [])
      rw [List.append_nil] at body
      exact hp.put hk (hp.tail.put hl ((hc.agree hp.tail.tail.left).append
        (hp.tail.tail.right.put hr body)))
    | counting _ hk => exact absurd hk hp.headKind
  | .branch _ _ (some _), _, _, h, hp => by
    cases h with
    | choice hk hl hc hr hy _ he hn _ =>
      have close := hp.tail.tail.right
      have body := (hy.agree close.tail.left).append
        (close.tail.right.put he (hn.agree close.tail.right.tail))
      exact hp.put hk (hp.tail.put hl ((hc.agree hp.tail.tail.left).append (close.put hr body)))
    | counting _ hk => exact absurd hk hp.headKind
  | .loop _ _, _, _, h, hp => by
    cases h with
    | loop hk hl hc hr h _ =>
      have close := hp.tail.tail.right
      exact hp.put hk (hp.tail.put hl ((hc.agree hp.tail.tail.left).append
        (close.put hr (h.agree close.tail))))
    | counting _ hk => exact absurd hk hp.headKind
  | .function _, _, _, h, hp => by
    cases h with
    | function hk h =>
      exact hp.put hk (Routine.Writes.agree h hp.tail)
    | counting _ hk => exact absurd hk hp.headKind
  | .leave _ _, _, _, h, hp => by
    cases h with
    | leave _ h hs =>
      exact .keep ((h.agree hp.tail.left).append (hp.tail.right.put hs (.refl [])))
    | counting _ hk => exact absurd hk hp.headKind
  | .klass _ _ _, _, _, h, hp => by
    cases h with
    | klass hk _ hq hl hm hr =>
      have body := hp.tail.tail.right
      have inside := (Routine.Writes.agreeAll hm body.tail.left).append (body.tail.right.put hr (.refl []))
      exact hp.put hk (.keep ((hq.agree hp.tail.tail.left).append (body.put hl inside)))
    | counting _ hk => exact absurd hk hp.headKind

theorem Stmt.Writes.agreeAll : ∀ {ss : List (Stmt Unit)} {ts : List Token},
    Row (Stmt.Writes true) ss ts → Printable ts → Agree ts (Stmt.allTokens ss)
  | [], _, h, _ => by
    cases h with
    | nil => exact .refl []
  | s :: rest, _, h, hp => by
    cases h with
    | cons h hs => exact (h.agree hp.left).append (Stmt.Writes.agreeAll hs hp.right)

theorem Routine.Writes.agree : ∀ {r : Routine (Stmt Unit)} {ts : List Token},
    Routine.Writes (Stmt.Writes true) r ts → Printable ts → Agree ts (Routine.tokens r)
  | ⟨_, _, _⟩, _, h, hp => by
    cases h with
    | mk _ hl hq hr hb h he =>
      have close := hp.tail.tail.right
      have body := (Stmt.Writes.agreeAll h close.tail.tail.left).append
        (close.tail.tail.right.put he (.refl []))
      have names := hq.agree hp.tail.tail.left fun t _ => Token.Names.agree t
      exact .keep (hp.tail.put hl (names.append (close.put hr (close.tail.put hb body))))

theorem Routine.Writes.agreeAll : ∀ {rs : List (Routine (Stmt Unit))} {ts : List Token},
    Row (Routine.Writes (Stmt.Writes true)) rs ts → Printable ts → Agree ts (Routine.allTokens rs)
  | [], _, h, _ => by
    cases h with
    | nil => exact .refl []
  | r :: rest, _, h, hp => by
    cases h with
    | cons h hs => exact (Routine.Writes.agree h hp.left).append (Routine.Writes.agreeAll hs hp.right)

end

end Lox
