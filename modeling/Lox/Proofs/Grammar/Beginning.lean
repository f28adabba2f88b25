import Lox.Proofs.Grammar.Derivation

/-! # How things begin

The first token tells an expression from a statement with a keyword, and either from
what may follow it. -/

namespace Lox

def Kind.beginsOperand : Kind → Bool
  | .kwTrue | .kwFalse | .kwNil | .kwThis | .kwSuper | .number | .string | .identifier
  | .leftParen => true
  | _ => false

def Kind.beginsExpression (k : Kind) : Bool := k.beginsOperand || k == .bang || k == .minus

def Kind.beginsStatement (k : Kind) : Bool :=
  k.beginsExpression || k == .kwFor || k == .kwIf || k == .kwPrint || k == .kwReturn ||
    k == .kwWhile || k == .leftBrace

def Kind.beginsDeclaration (k : Kind) : Bool :=
  k.beginsStatement || k == .kwClass || k == .kwFun || k == .kwVar

namespace Grammar

/-- Whatever has the form begins with a token of such a kind. -/
def Begins (S : Kind → Bool) (a : Form) : Prop :=
  ∀ ts, Derives a ts → ∃ t rest, ts = t :: rest ∧ S t.kind = true

namespace Begins

variable {S S' : Kind → Bool} {a : Form} {parts choices : List Form} {k : Kind} {r : Rule}

theorem mono (h : Begins S a) (hS : ∀ k, S k = true → S' k = true) : Begins S' a := by
  intro ts hd
  obtain ⟨t, rest, e, ht⟩ := h ts hd
  exact ⟨t, rest, e, hS _ ht⟩

theorem token (h : S k = true) : Begins S (.token k) := by
  intro ts hd
  obtain ⟨t, ht, e⟩ := derives_token.mp hd
  exact ⟨t, [], e, by rw [ht]; exact h⟩

theorem rule (h : Begins S r.form) : Begins S (.rule r) := fun ts hd => h ts (derives_rule.mp hd)

theorem cons (h : Begins S a) : Begins S (.seq (a :: parts)) := by
  intro ts hd
  obtain ⟨us, vs, hu, -, rfl⟩ := derives_seq_cons.mp hd
  obtain ⟨t, rest, rfl, ht⟩ := h us hu
  exact ⟨t, rest ++ vs, rfl, ht⟩

theorem skip (h : Begins S a) (k : Begins S (.seq parts)) :
    Begins S (.seq (.optional a :: parts)) := by
  intro ts hd
  obtain ⟨us, vs, hu, hv, rfl⟩ := derives_seq_cons.mp hd
  rcases derives_optional.mp hu with rfl | hu
  · exact k vs hv
  · obtain ⟨t, rest, rfl, ht⟩ := h us hu
    exact ⟨t, rest ++ vs, rfl, ht⟩

theorem oneOf (h : ∀ a ∈ choices, Begins S a) : Begins S (.oneOf choices) := by
  intro ts hd
  obtain ⟨a, m, ha⟩ := derives_oneOf.mp hd
  exact h a m ts ha

theorem listed (h : Begins S a) {n : Nat} : Begins S (.listed n a) := by
  intro ts hd
  obtain ⟨m, -, hd | ⟨us, t, vs, hu, -, -, rfl⟩⟩ := derives_listed.mp hd
  · exact h ts hd
  · obtain ⟨u, rest, rfl, hS⟩ := h us hu
    exact ⟨u, rest ++ t :: vs, rfl, hS⟩

end Begins

theorem begins_function : Begins (· == .identifier) (.rule .function) := .rule (.cons (.token rfl))

theorem begins_call : Begins Kind.beginsOperand (.rule .call) := by
  refine .rule (.cons (.rule (.oneOf fun a m => ?_)))
  simp only [List.mem_cons, List.not_mem_nil, or_false] at m
  rcases m with rfl | rfl | rfl | rfl | rfl | rfl | rfl | rfl | rfl
  · exact .token rfl
  · exact .token rfl
  · exact .token rfl
  · exact .token rfl
  · exact .token rfl
  · exact .token rfl
  · exact .token rfl
  · exact .cons (.token rfl)
  · exact .cons (.token rfl)

theorem begins_unary : Begins Kind.beginsExpression (.rule .unary) := by
  refine .rule (.oneOf fun a m => ?_)
  simp only [List.mem_cons, List.not_mem_nil, or_false] at m
  rcases m with rfl | rfl
  · refine .cons (.oneOf fun a m => ?_)
    simp only [List.mem_cons, List.not_mem_nil, or_false] at m
    rcases m with rfl | rfl
    · exact .token rfl
    · exact .token rfl
  · exact begins_call.mono fun k h => by simp [Kind.beginsExpression, h]

theorem begins_expression : Begins Kind.beginsExpression (.rule .expression) := by
  have call : Begins Kind.beginsExpression (.rule .call) :=
    begins_call.mono fun k h => by simp [Kind.beginsExpression, h]
  have disjunction : Begins Kind.beginsExpression (.rule .disjunction) :=
    .rule (.cons (.rule (.cons (.rule (.cons (.rule (.cons (.rule (.cons (.rule (.cons begins_unary)))))))))))
  refine .rule (.rule (.oneOf fun a m => ?_))
  simp only [List.mem_cons, List.not_mem_nil, or_false] at m
  rcases m with rfl | rfl
  · exact .skip (.cons call) (.cons (.token rfl))
  · exact disjunction

theorem begins_statement : Begins Kind.beginsStatement (.rule .statement) := by
  have expression : Begins Kind.beginsStatement (.rule .expression) :=
    begins_expression.mono fun k h => by simp [Kind.beginsStatement, h]
  refine .rule (.oneOf fun a m => ?_)
  simp only [List.mem_cons, List.not_mem_nil, or_false] at m
  rcases m with rfl | rfl | rfl | rfl | rfl | rfl | rfl
  · exact .rule (.cons expression)
  · exact .rule (.cons (.token rfl))
  · exact .rule (.cons (.token rfl))
  · exact .rule (.cons (.token rfl))
  · exact .rule (.cons (.token rfl))
  · exact .rule (.cons (.token rfl))
  · exact .rule (.cons (.token rfl))

theorem begins_declaration : Begins Kind.beginsDeclaration (.rule .declaration) := by
  refine .rule (.oneOf fun a m => ?_)
  simp only [List.mem_cons, List.not_mem_nil, or_false] at m
  rcases m with rfl | rfl | rfl | rfl
  · exact .rule (.cons (.token rfl))
  · exact .rule (.cons (.token rfl))
  · exact .rule (.cons (.token rfl))
  · exact begins_statement.mono fun k h => by simp [Kind.beginsDeclaration, h]

end Grammar

end Lox
