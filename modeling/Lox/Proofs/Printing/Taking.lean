import Lox.Proofs.Grammar.Obedience
import Lox.Proofs.Printing.Reading

/-! # What is read without a problem are the tokens of a tree

The value of a reader that reports no problem is a tree of the tokens that the reader
has taken. Readers are put together as trees are. -/

namespace Lox.Parse

variable {α : Type}

/-! ## Lists -/

section Lists

variable {W : α → List Token → Prop} {item : Parse α}

theorem unlessKind_takes (kind : Kind) (hi : Takes W item) : Takes (Clause W) (unlessKind kind item) := by
  refine (atKind_takes kind).look fun b => ?_
  split
  · exact .pure .absent
  · exact hi.map fun _ _ h => .present h

theorem untilKind_takes (kind : Kind) (hi : Takes W item) :
    ∀ bound, Takes (Row W) (untilKind kind item bound)
  | [] => .pure .nil
  | _ :: bound => by
    refine (endsAt_takes kind).look fun b => ?_
    split
    · exact .pure .nil
    · refine hi.bind fun x us h => (untilKind_takes kind hi bound).bind fun xs vs k => .pure ?_
      rw [List.append_nil]
      exact .cons h k

theorem commaList_takes (what : Listed) (hi : Takes W item) : ∀ (bound : List Token) (seen : Nat),
    Takes (fun as us => Commas W as us ∧ as.length + seen ≤ maxListed) (commaList what item seen bound)
  | [], seen => by
    refine (checkRoom_takes what seen).bind fun _ us h => hi.bind fun x vs hx => .pure ?_
    rw [h.1, List.append_nil, List.nil_append]
    exact ⟨.last hx, by simp only [List.length_singleton]; omega⟩
  | _ :: bound, seen => by
    refine (checkRoom_takes what seen).bind fun _ us h => hi.bind fun x vs hx =>
      (take?_takes _).bind fun o ws ho => ?_
    rw [h.1, ho.1]
    cases o with
    | none =>
      refine .pure ?_
      rw [Option.toList_none, List.append_nil, List.append_nil, List.nil_append]
      exact ⟨.last hx, by simp only [List.length_singleton]; omega⟩
    | some t =>
      refine (commaList_takes what hi bound (seen + 1)).bind fun xs us k => .pure ?_
      have ht : t.kind = .comma := by simpa using ho.2 t rfl
      refine ⟨by simpa using Commas.cons hx ht k.1, ?_⟩
      simp only [List.length_cons]
      omega

theorem parenthesised_takes (what : Listed) (hi : Takes W item) :
    Takes (Listing W) (parenthesised what item) := by
  refine (atKind_takes .rightParen).look fun b => ?_
  split
  · exact .pure .empty
  · exact Takes.bounded fun bound => (commaList_takes what hi bound 0).mono fun _ _ h => .full h.1 h.2

end Lists

/-! ## Expressions -/

section Expressions

variable {expression operand : Parse (Expr Unit)} {operator : Kind → Bool} {k : Nat}
  {join : Expr Unit → Token → Expr Unit → Expr Unit}

theorem operandFrom?_writes (he : Takes Expr.Writes expression) {t : Token} {p : Parse (Expr Unit)}
    (hp : operandFrom? expression t = some p) : Takes (fun e us => Within 0 e (t :: us)) p := by
  have literal {v : Literal} (h : t.denotes? = some v) :
      Takes (fun e us => Within 0 e (t :: us)) (pure (.literal v)) := .pure ⟨.literal h, Nat.le_refl 0⟩
  unfold operandFrom? at hp
  split at hp
  all_goals cases hp
  case h_1 hk | h_2 hk | h_3 hk | h_4 hk | h_5 hk => exact literal (by simp [Token.denotes?, hk])
  case h_6 hk => exact .pure ⟨.this hk, Nat.le_refl 0⟩
  case h_7 hk => exact .pure ⟨.name hk, Nat.le_refl 0⟩
  case h_8 hk =>
    refine (expect_takes _ _).bind fun dot us hd => (expect_takes _ _).bind fun method vs hm => .pure ?_
    rw [hd.1, hm.1]
    exact ⟨.super hk hd.2 hm.2, Nat.le_refl 0⟩
  case h_9 hk =>
    refine he.bind fun inner us hi => (expect_takes _ _).bind fun close vs hr => .pure ?_
    rw [hr.1]
    exact ⟨.grouping hk hi hr.2, Nat.le_refl 0⟩

theorem suffixes_writes (he : Takes Expr.Writes expression) :
    ∀ (bound : List Token) (e : Expr Unit) (us : List Token), Within 0 e us →
      Takes (fun e vs => Within 0 e (us ++ vs)) (suffixes expression e bound)
  | [], e, us, h => by
    refine .pure ?_
    rw [List.append_nil]
    exact h
  | _ :: bound, e, us, h => by
    have tight := Nat.le_zero.mp h.2
    refine (take?_takes _).bind fun o ws ho => ?_
    rw [ho.1]
    cases o with
    | some paren =>
      have hl : paren.kind = .leftParen := by simpa using ho.2 paren rfl
      refine (parenthesised_takes .arguments he).bind fun arguments xs ha =>
        (expect_takes _ _).bind fun close ys hr => ?_
      refine (suffixes_writes he bound (.call e close arguments) _
        ⟨.call h.1 tight hl ha hr.2, Nat.le_refl 0⟩).mono fun e zs hz => ?_
      simpa [hr.1] using hz
    | none =>
      refine (take?_takes _).bind fun o ws ho => ?_
      rw [ho.1]
      cases o with
      | some dot =>
        have hd : dot.kind = .dot := by simpa using ho.2 dot rfl
        refine (expect_takes _ _).bind fun property xs hp => ?_
        refine (suffixes_writes he bound (.get e property) _
          ⟨.get h.1 tight hd hp.2, Nat.le_refl 0⟩).mono fun e zs hz => ?_
        simpa [hp.1] using hz
      | none =>
        refine .pure ?_
        simpa using h

theorem call_writes (he : Takes Expr.Writes expression) : Takes (Within 0) (call expression) := by
  have first : Takes (Within 0) (primary expression) :=
    choose_takes (fun _ _ hp => operandFrom?_writes he hp) (reject_takes _)
  exact first.bind fun e us h => Takes.bounded fun bound => suffixes_writes he bound e us h

theorem Within.unary {op : Token} {e : Expr Unit} {us : List Token} (ho : isUnary op.kind = true)
    (h : Within 1 e us) : Within 1 (.unary op e) (op :: us) := ⟨.unary ho h.1 h.2, Nat.le_refl 1⟩

theorem unary_writes (he : Takes Expr.Writes expression) : Takes (Within 1) (unary expression) := by
  refine unaryOperators_takes.bind fun ops us h => (call_writes he).bind fun operand vs hv => .pure ?_
  rw [h.1, List.append_nil]
  have isOperator := h.2
  clear h
  induction ops with
  | nil => exact ⟨hv.1, Nat.le_trans hv.2 (Nat.zero_le 1)⟩
  | cons op rest ih =>
    exact .unary (isOperator op List.mem_cons_self) (ih fun o hm => isOperator o (List.mem_cons_of_mem _ hm))

/-- How a level puts an operator between operands. -/
def Joins (operator : Kind → Bool) (join : Expr Unit → Token → Expr Unit → Expr Unit) (k : Nat) : Prop :=
  ∀ (l r : Expr Unit) (op : Token) (us vs : List Token), operator op.kind = true → Within (k + 1) l us →
    Within k r vs → Within (k + 1) (join l op r) (us ++ op :: vs)

theorem Joins.binary (hb : ∀ kind, operator kind = true → kind.isBinary = true ∧ kind.looseness = k) :
    Joins operator .binary k := by
  intro l r op us vs ho hl hr
  obtain ⟨ho, rfl⟩ := hb _ ho
  exact ⟨.binary ho hl.1 hl.2 hr.1 hr.2, Nat.le_refl _⟩

theorem Joins.logical (hb : ∀ kind, operator kind = true → kind.isLogical = true ∧ kind.looseness = k) :
    Joins operator .logical k := by
  intro l r op us vs ho hl hr
  obtain ⟨ho, rfl⟩ := hb _ ho
  exact ⟨.logical ho hl.1 hl.2 hr.1 hr.2, Nat.le_refl _⟩

theorem joined_writes (hj : Joins operator join k) (ho : Takes (Within k) operand) :
    ∀ (bound : List Token) (left : Expr Unit) (us : List Token), Within (k + 1) left us →
      Takes (fun e vs => Within (k + 1) e (us ++ vs)) (joined operator join operand left bound)
  | [], left, us, h => by
    refine .pure ?_
    rw [List.append_nil]
    exact h
  | _ :: bound, left, us, h => by
    refine (take?_takes operator).bind fun o vs ht => ?_
    rw [ht.1]
    cases o with
    | none =>
      refine .pure ?_
      simpa using h
    | some op =>
      refine ho.bind fun right ws hw => ?_
      refine (joined_writes hj ho bound (join left op right) (us ++ op :: ws)
        (hj _ _ _ _ _ (ht.2 op rfl) h hw)).mono fun e xs he => ?_
      simpa using he

theorem level_writes (hj : Joins operator join k) (ho : Takes (Within k) operand) :
    Takes (Within (k + 1)) (level operator join operand) :=
  ho.bind fun left us h => Takes.bounded fun bound =>
    joined_writes hj ho bound left us ⟨h.1, Nat.le_succ_of_le h.2⟩

theorem disjunction_writes (he : Takes Expr.Writes expression) :
    Takes (Within 7) (disjunction expression) := by
  have factor : Takes (Within 2) (factor expression) :=
    level_writes (.binary fun kind => by cases kind <;> decide) (unary_writes he)
  have term : Takes (Within 3) (term expression) :=
    level_writes (.binary fun kind => by cases kind <;> decide) factor
  have comparison : Takes (Within 4) (comparison expression) :=
    level_writes (.binary fun kind => by cases kind <;> decide) term
  have equality : Takes (Within 5) (equality expression) :=
    level_writes (.binary fun kind => by cases kind <;> decide) comparison
  have conjunction : Takes (Within 6) (conjunction expression) :=
    level_writes (.logical fun kind => by cases kind <;> decide) equality
  exact level_writes (.logical fun kind => by cases kind <;> decide) conjunction

theorem assignment_writes (he : Takes Expr.Writes expression) :
    Takes Expr.Writes (assignment expression) := by
  refine (disjunction_writes he).bind fun target us h => (take?_takes _).bind fun o vs ho => ?_
  rw [ho.1]
  cases o with
  | none =>
    refine .pure ?_
    simpa using h.1
  | some equals =>
    have hq : equals.kind = .equal := by simpa using ho.2 equals rfl
    refine he.bind fun value ws hw => ?_
    split
    · refine .pure ?_
      cases h.1 with
      | name ht => simpa using Expr.Writes.assign ht hq hw
    · refine .pure ?_
      cases h.1 with
      | get hx hk hd hp => simpa using Expr.Writes.set hx hk hd hp hq hw
    · exact (report_takes (Q := fun _ _ => False) _ _).bind fun _ _ h => h.elim

theorem expressionWithin_writes : ∀ bound, Takes Expr.Writes (expressionWithin bound)
  | [] => assignment_writes (reject_takes _)
  | _ :: bound => assignment_writes (expressionWithin_writes bound)

theorem wholeExpression_writes : Takes Expr.Writes wholeExpression :=
  Takes.bounded expressionWithin_writes

end Expressions

end Lox.Parse
