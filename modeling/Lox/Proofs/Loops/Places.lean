import Lox.Proofs.Printing.Inverse

/-! # Where a statement may stand

A print statement can be told by its first token, which nothing else has. So where one is read
in a program, any other statement can stand instead, and the rest of the program is read as
before. -/

namespace Lox

/-- Tokens none of which is of such a kind. -/
def Free (S : Kind → Bool) (ts : List Token) : Prop := ∀ t ∈ ts, S t.kind = false

namespace Free

variable {S S' : Kind → Bool} {t : Token} {ts us : List Token} {k : Kind}

theorem nil : Free S [] := fun _ m => absurd m List.not_mem_nil

theorem cons (hk : t.kind = k) (h : Free S ts) (hS : S k = false := by rfl) : Free S (t :: ts) :=
  List.forall_mem_cons.mpr ⟨hk ▸ hS, h⟩

theorem append (h : Free S ts) (hs : Free S us) : Free S (ts ++ us) := List.forall_mem_append.mpr ⟨h, hs⟩

theorem mono (h : Free S ts) (hS : ∀ k, S k = false → S' k = false) : Free S' ts := fun t m => hS _ (h t m)

theorem commas {α : Type} {P : α → List Token → Prop} {as : List α} (h : Commas P as ts)
    (hp : ∀ a ∈ as, ∀ us, P a us → Free S us) (hS : S .comma = false) : Free S ts := by
  induction h with
  | @last a ts h => exact hp a List.mem_cons_self ts h
  | @cons a as ts us c h hc _ ih =>
    exact (hp a List.mem_cons_self ts h).append
      (.cons hc (ih fun b m => hp b (List.mem_cons_of_mem a m)) hS)

theorem listing {α : Type} {P : α → List Token → Prop} {as : List α} (h : Listing P as ts)
    (hp : ∀ a ∈ as, ∀ us, P a us → Free S us) (hS : S .comma = false) : Free S ts := by
  cases h with
  | empty => exact .nil
  | full h _ => exact .commas h hp hS

end Free

/-- Kinds of tokens that expressions are not made of. -/
def Kind.endsExpression (k : Kind) : Bool := k == .kwPrint || k == .semicolon

mutual

theorem Expr.Writes.free : ∀ {e : Expr Unit} {ts : List Token}, e.Writes ts → Free Kind.endsExpression ts
  | .literal _, _, h => by
    cases h with
    | @literal t _ h =>
      have inner : t.kind.endsExpression = false := by
        cases hk : t.kind <;> simp_all [Token.denotes?, Kind.endsExpression]
      exact .cons rfl .nil inner
  | .grouping _, _, h => by
    cases h with
    | grouping hl h hr => exact .cons hl (h.free.append (.cons hr .nil))
  | .unary operator _, _, h => by
    cases h with
    | unary ho h =>
      have inner : operator.kind.endsExpression = false := by
        cases hk : operator.kind <;> simp_all [Parse.isUnary, Kind.endsExpression]
      exact .cons rfl h.free inner
  | .binary _ operator _, _, h => by
    cases h with
    | binary ho hl _ hr =>
      have inner : operator.kind.endsExpression = false := by
        cases hk : operator.kind <;> simp_all [Kind.isBinary, Kind.endsExpression]
      exact hl.free.append (.cons rfl hr.free inner)
  | .logical _ operator _, _, h => by
    cases h with
    | logical ho hl _ hr =>
      have inner : operator.kind.endsExpression = false := by
        cases hk : operator.kind <;> simp_all [Kind.isLogical, Kind.endsExpression]
      exact hl.free.append (.cons rfl hr.free inner)
  | .name _, _, h => by
    cases h with
    | name ht => exact .cons ht .nil
  | .assign _ _, _, h => by
    cases h with
    | assign ht hq h => exact .cons ht (.cons hq h.free)
  | .call _ _ arguments, _, h => by
    cases h with
    | call hc _ hl ha hp =>
      have listed := Free.listing ha (Expr.Writes.freeEach arguments) rfl
      exact hc.free.append (.cons hl (listed.append (.cons hp .nil)))
  | .get _ _, _, h => by
    cases h with
    | get ho _ hd hp => exact ho.free.append (.cons hd (.cons hp .nil))
  | .set _ _ _, _, h => by
    cases h with
    | set ho _ hd hp hq h => exact ho.free.append (.cons hd (.cons hp (.cons hq h.free)))
  | .this _, _, h => by
    cases h with
    | this ht => exact .cons ht .nil
  | .super _ _, _, h => by
    cases h with
    | super ht hd hm => exact .cons ht (.cons hd (.cons hm .nil))

theorem Expr.Writes.freeEach : ∀ es : List (Expr Unit), ∀ e ∈ es, ∀ us, e.Writes us →
    Free Kind.endsExpression us
  | [] => fun _ m => absurd m List.not_mem_nil
  | _ :: rest => List.forall_mem_cons.mpr ⟨fun _ h => h.free, Expr.Writes.freeEach rest⟩

end

/-! ## Tokens without a print statement -/

/-- Tokens in which no print statement begins. -/
abbrev Unprinted (ts : List Token) : Prop := Free (· == .kwPrint) ts

theorem Expr.Writes.unprinted {e : Expr Unit} {ts : List Token} (h : e.Writes ts) : Unprinted ts :=
  h.free.mono fun k => by cases k <;> decide

theorem Clause.unprinted {e : Option (Expr Unit)} {ts : List Token} (h : Clause Expr.Writes e ts) :
    Unprinted ts := by
  cases h with
  | absent => exact .nil
  | present h => exact h.unprinted

theorem Reference.WritesParent.unprinted {r : Option (Reference Unit)} {ts : List Token}
    (h : Reference.WritesParent r ts) : Unprinted ts := by
  cases h with
  | absent => exact .nil
  | present hl ht => exact .cons hl (.cons ht .nil)

theorem FirstClause.unprinted {i : Option (Stmt Unit)} {ts : List Token}
    (h : FirstClause (Stmt.Writes true) i ts) : Unprinted ts := by
  cases h with
  | none hs => exact .cons hs .nil
  | declare h =>
    cases h with
    | declare hk hn hs => exact .cons hk (.cons hn (.cons hs .nil))
    | define hk hn hq h hs => exact .cons hk (.cons hn (.cons hq (h.unprinted.append (.cons hs .nil))))
    | counting hw =>
      have nothing := congrArg Stmt.declared? hw
      rw [Stmt.counting_declared?] at nothing
      cases nothing
  | expression h =>
    cases h with
    | expression h hs => exact h.unprinted.append (.cons hs .nil)
    | counting hw => exact absurd hw (Stmt.counting_ne_expression _ _ _ _ _)

/-! ## Exchanging a print statement -/

/-- Whether a statement that may end in an `if` can stand in front of the tokens, when what
ends with it has to be closed or not. -/
def Room (o : Bool) (rest : List Token) : Prop := Parse.Ahead (· ≠ .kwElse) rest ∧ (rest = [] → o = true)

theorem Room.part {o o' : Bool} {rest more : List Token} (h : Room o' (rest ++ more))
    (hend : Room o' more → o = true) : Room o rest := by
  cases rest with
  | nil => exact ⟨Parse.ahead_nil, fun _ => hend h⟩
  | cons t rest => exact ⟨Parse.ahead_cons.mpr (Parse.ahead_cons.mp h.1), fun e => by cases e⟩

/-- Where a print statement begins among the tokens, the tree has it, and it has any other
statement instead when the tokens have. -/
def Exchanges {α : Type} (P : α → List Token → Prop) (o : Bool) (a : α) (ts : List Token) : Prop :=
  ∀ front k back, ts = front ++ k :: back → k.kind = .kwPrint →
    ∃ e us s rest, back = us ++ s :: rest ∧ e.Writes us ∧ s.kind = .semicolon ∧
      ∃ make : Stmt Unit → α, a = make (.print e) ∧
        ∀ q vs, q.declared? = none → q.Writes true vs → Room o rest → P (make q) (front ++ (vs ++ rest))

namespace Exchanges

variable {α β : Type} {P : α → List Token → Prop} {Q : β → List Token → Prop} {o o' : Bool} {a : α}
  {t : Token} {ts us : List Token} {kind : Kind}

theorem of_unprinted (h : Unprinted ts) : Exchanges P o a ts := fun front k back e hk => by
  have other := h k (e ▸ List.mem_append_right front List.mem_cons_self)
  simp [hk] at other

theorem map (wrap : α → β) (h : Exchanges P o a ts) (hQ : ∀ a us, P a us → Q (wrap a) us) :
    Exchanges Q o (wrap a) ts := by
  intro front k back e hk
  obtain ⟨e, us, s, rest, hb, he, hs, make, rfl, exchanged⟩ := h front k back e hk
  exact ⟨e, us, s, rest, hb, he, hs, wrap ∘ make, rfl, fun q vs hd hq room => hQ _ _ (exchanged q vs hd hq room)⟩

/-- The print statement begins in one of two parts. -/
theorem pair (left : Exchanges (fun a ts => P a (ts ++ us)) o a ts)
    (right : Exchanges (fun a us => P a (ts ++ us)) o' a us) (hend : Room o' us → o = true) :
    Exchanges P o' a (ts ++ us) := by
  intro front k back e hk
  have inLeft (more : List Token) (ht : ts = front ++ k :: more) (hb : back = more ++ us) :
      ∃ e vs s rest, back = vs ++ s :: rest ∧ e.Writes vs ∧ s.kind = .semicolon ∧
        ∃ make : Stmt Unit → α, a = make (.print e) ∧ ∀ q ws, q.declared? = none → q.Writes true ws →
          Room o' rest → P (make q) (front ++ (ws ++ rest)) := by
    obtain ⟨e, vs, s, rest, hmore, he, hs, make, ha, exchanged⟩ := left front k more ht hk
    refine ⟨e, vs, s, rest ++ us, by simp [hb, hmore], he, hs, make, ha, fun q ws hd hq room => ?_⟩
    have whole := exchanged q ws hd hq (room.part hend)
    simpa only [List.append_assoc] using whole
  rcases List.append_eq_append_iff.mp e with ⟨more, hf, hu⟩ | ⟨more, ht, hb⟩
  · obtain ⟨e, vs, s, rest, hb, he, hs, make, ha, exchanged⟩ := right more k back hu hk
    refine ⟨e, vs, s, rest, hb, he, hs, make, ha, fun q ws hd hq room => ?_⟩
    have whole := exchanged q ws hd hq room
    simpa only [hf, List.append_assoc] using whole
  · cases more with
    | nil =>
      rw [List.append_nil] at ht
      obtain ⟨e, vs, s, rest, hb, he, hs, make, ha, exchanged⟩ := right [] k back hb.symm hk
      refine ⟨e, vs, s, rest, hb, he, hs, make, ha, fun q ws hd hq room => ?_⟩
      have whole := exchanged q ws hd hq room
      simpa only [ht, List.nil_append] using whole
    | cons t more =>
      obtain ⟨same, behind⟩ := List.cons.inj hb
      exact inLeft more (same ▸ ht) behind

theorem behind (hu : Unprinted ts) (h : Exchanges (fun a us => P a (ts ++ us)) o a us) :
    Exchanges P o a (ts ++ us) := pair (o := true) (of_unprinted hu) h fun _ => rfl

theorem before (hu : Unprinted us) (h : Exchanges (fun a ts => P a (ts ++ us)) o a ts)
    (hend : Room o' us → o = true) : Exchanges P o' a (ts ++ us) := pair h (of_unprinted hu) hend

theorem cons (hk : t.kind = kind) (h : Exchanges (fun a us => P a (t :: us)) o a us)
    (hp : (kind == .kwPrint) = false := by rfl) : Exchanges P o a (t :: us) :=
  behind (.cons hk .nil hp) h

end Exchanges

section Parts

variable {n : Nat}

theorem Row.exchanges {α : Type} {P : α → List Token → Prop} {as : List α} {ts : List Token} (h : Row P as ts)
    (each : ∀ a us, us.length ≤ n → P a us → Exchanges P true a us) (short : ts.length ≤ n) :
    Exchanges (Row P) true as ts := by
  induction h with
  | nil => exact .of_unprinted .nil
  | @cons a as ts us h hs ih =>
    rw [List.length_append] at short
    exact .pair ((each a ts (by omega) h).map (· :: as) fun _ _ h => .cons h hs)
      ((ih (by omega)).map (a :: ·) fun _ _ hs => .cons h hs) fun _ => rfl

theorem Routine.Writes.exchanges {r : Routine (Stmt Unit)} {ts : List Token}
    (h : Routine.Writes (Stmt.Writes true) r ts)
    (each : ∀ s us, us.length ≤ n → s.Writes true us → Exchanges (Stmt.Writes true) true s us)
    (short : ts.length ≤ n) (o : Bool) :
    Exchanges (fun q us => Routine.Writes (Stmt.Writes true) q us ∧ q.name = r.name) o r ts := by
  cases h with
  | @mk name l r b e ps body us ts hn hl hp hr hb h he =>
    simp only [List.length_cons, List.length_append] at short
    have names : Unprinted us := .listing hp (fun _ _ _ h => h.2 ▸ .cons h.1 .nil) rfl
    have row := h.exchanges each (by omega)
    exact .cons hn (.cons hl (.behind names (.cons hr (.cons hb (.before (.cons he .nil)
      (row.map (Routine.mk name ps) fun _ _ h => ⟨.mk hn hl hp hr hb h he, rfl⟩) fun _ => rfl)))))

end Parts

/-- The induction is on the number of tokens, as the tree of a counting loop does not show its
body. A statement in exchange for another declares no more than that did. -/
theorem Stmt.Writes.exchanges (n : Nat) : ∀ {s : Stmt Unit} {o : Bool} {ts : List Token}, ts.length ≤ n →
    s.Writes o ts → Exchanges (fun q us => q.Writes o us ∧ q.declared? = s.declared?) o s ts := by
  induction n with
  | zero =>
    intro s o ts short h
    exact .of_unprinted (List.eq_nil_of_length_eq_zero (Nat.le_zero.mp short) ▸ .nil)
  | succ n ih =>
    intro s o ts short h
    have each (s : Stmt Unit) (us : List Token) (short : us.length ≤ n) (h : s.Writes true us) :
        Exchanges (Stmt.Writes true) true s us := (ih short h).map id fun _ _ h => h.1
    cases h with
    | expression h hs => exact .of_unprinted (h.unprinted.append (.cons hs .nil))
    | declare hk hn hs => exact .of_unprinted (.cons hk (.cons hn (.cons hs .nil)))
    | define hk hn hq h hs =>
      exact .of_unprinted (.cons hk (.cons hn (.cons hq (h.unprinted.append (.cons hs .nil)))))
    | leave hk h hs => exact .of_unprinted (.cons hk (h.unprinted.append (.cons hs .nil)))
    | @print _ e ts k s hk h hs =>
      intro front k' back eq hk'
      cases front with
      | cons t front =>
        have inner : Unprinted (ts ++ [s]) := h.unprinted.append (.cons hs .nil)
        have other := inner k' ((List.cons.inj eq).2 ▸ List.mem_append_right front List.mem_cons_self)
        simp [hk'] at other
      | nil =>
        refine ⟨e, ts, s, [], (List.cons.inj eq).2.symm, h, hs, id, rfl, fun q vs hd hq room => ?_⟩
        obtain rfl := room.2 rfl
        rw [List.append_nil]
        exact ⟨hq, hd⟩
    | block hl h hr =>
      simp only [List.length_cons, List.length_append] at short
      exact .cons hl (.before (.cons hr .nil)
        ((h.exchanges each (by omega)).map Stmt.block fun _ _ h => ⟨.block hl h hr, rfl⟩) fun _ => rfl)
    | @branch c y ts us k l r hk hl hc hr hy hd =>
      simp only [List.length_cons, List.length_append] at short
      exact .cons hk (.cons hl (.behind hc.unprinted (.cons hr ((ih (by omega) hy).map (Stmt.branch c · none)
        fun _ _ h => ⟨.branch hk hl hc hr h.1 (h.2.trans hd), rfl⟩))))
    | @choice _ c y no ts us vs k l r e hk hl hc hr hy hdy he hn hdn =>
      simp only [List.length_cons, List.length_append] at short
      refine .cons hk (.cons hl (.behind hc.unprinted (.cons hr (.pair (o := false) ?yes (.cons he ?no) fun room => ?_))))
      case yes =>
        exact (ih (by omega) hy).map (Stmt.branch c · (some no)) fun _ _ h =>
          ⟨.choice hk hl hc hr h.1 (h.2.trans hdy) he hn hdn, rfl⟩
      case no =>
        exact (ih (by omega) hn).map (fun no => Stmt.branch c y (some no)) fun _ _ h =>
          ⟨.choice hk hl hc hr hy hdy he h.1 (h.2.trans hdn), rfl⟩
      -- what ends in front of the `else` would be followed by it
      exact absurd he (Parse.ahead_cons.mp room.1)
    | @loop _ c s ts us k l r hk hl hc hr h hd =>
      simp only [List.length_cons, List.length_append] at short
      exact .cons hk (.cons hl (.behind hc.unprinted (.cons hr ((ih (by omega) h).map (Stmt.loop c)
        fun _ _ h => ⟨.loop hk hl hc hr h.1 (h.2.trans hd), rfl⟩))))
    | function hk h =>
      exact .cons hk ((h.exchanges each (Nat.le_of_succ_le_succ short) o).map Stmt.function fun _ _ h =>
        ⟨.function hk h.1, congrArg (fun name : Token => some name.lexeme) h.2⟩)
    | @klass _ name p ms ps ts k l r hk hn hp hl hm hr =>
      simp only [List.length_cons, List.length_append] at short
      have row := hm.exchanges (fun _ _ short h =>
        (h.exchanges each short true).map id fun _ _ h => h.1) (by omega)
      exact .cons hk (.cons hn (.behind hp.unprinted (.cons hl (.before (.cons hr .nil)
        (row.map (Stmt.klass name p) fun _ _ h => ⟨.klass hk hn hp hl h hr, rfl⟩) fun _ => rfl))))
    | @counting _ _ i c st b is cs ss bs k l s r hw hk hl hi hc hs hst hr hb hd =>
      subst hw
      simp only [List.length_cons, List.length_append] at short
      exact .cons hk (.cons hl (.behind hi.unprinted (.behind hc.unprinted (.cons hs
        (.behind hst.unprinted (.cons hr ((ih (by omega) hb).map (Stmt.counting i c st) fun _ _ h =>
          ⟨.counting rfl hk hl hi hc hs hst hr h.1 (h.2.trans hd),
            (Stmt.counting_declared? ..).trans (Stmt.counting_declared? ..).symm⟩)))))))

end Lox
