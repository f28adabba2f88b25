import Lox.Proofs.Grammar.Beginning

/-! # Where an `else` belongs

The grammar lets an `else` belong to any `if` before it that has none. A statement is
open if it ends in a statement to which another `else` could be added. Every statement
can be derived so that what stands between an `if` and its `else` is not open, which
is the way in which it is read. -/

namespace Lox.Grammar

theorem derives_seq_append {left right : List Form} {ts : List Token} :
    Derives (.seq (left ++ right)) ts ↔
      ∃ us vs, Derives (.seq left) us ∧ Derives (.seq right) vs ∧ ts = us ++ vs := by
  induction left generalizing ts with
  | nil =>
    constructor
    · intro h
      exact ⟨[], ts, .nil, h, rfl⟩
    · intro ⟨us, vs, hu, hv, e⟩
      rw [e, derives_seq_nil.mp hu]
      exact hv
  | cons a left ih =>
    rw [List.cons_append, derives_seq_cons]
    constructor
    · intro ⟨us, vs, hu, hv, e⟩
      obtain ⟨xs, ys, hx, hy, rfl⟩ := ih.mp hv
      exact ⟨us ++ xs, ys, .cons hu hx, hy, by rw [e, List.append_assoc]⟩
    · intro ⟨us, vs, hu, hv, e⟩
      obtain ⟨xs, ys, hx, hy, rfl⟩ := derives_seq_cons.mp hu
      exact ⟨xs, ys ++ vs, hx, ih.mpr ⟨ys, vs, hy, hv, rfl⟩, by rw [e, List.append_assoc]⟩

/-! What stands in front of the body of an `if` or of a loop. -/

def ifHead : List Form :=
  [.token .kwIf, .token .leftParen, .rule .expression, .token .rightParen]

def whileHead : List Form :=
  [.token .kwWhile, .token .leftParen, .rule .expression, .token .rightParen]

def forHead : List Form :=
  [.token .kwFor, .token .leftParen,
    .oneOf [.rule .variableDeclaration, .rule .expressionStatement, .token .semicolon],
    .optional (.rule .expression), .token .semicolon, .optional (.rule .expression),
    .token .rightParen]

/-- Statements that do not end in another one. -/
def Rule.isSimple : Rule → Bool
  | .expressionStatement | .printStatement | .returnStatement | .block => true
  | _ => false

inductive Closed : List Token → Prop
  | simple {r : Rule} {ts : List Token} (hr : r.isSimple = true) (h : Derives (.rule r) ts) : Closed ts
  | branch {head us vs : List Token} {t : Token} (h : Derives (.seq ifHead) head) (hu : Closed us)
      (ht : t.kind = .kwElse) (hv : Closed vs) : Closed (head ++ (us ++ t :: vs))
  | loop {head us : List Token} (h : Derives (.oneOf [.seq whileHead, .seq forHead]) head) (hu : Closed us) : Closed (head ++ us)

inductive Open : List Token → Prop
  | branch {head us : List Token} (h : Derives (.seq ifHead) head) (hu : Closed us) : Open (head ++ us)
  | nested {head us : List Token} (h : Derives (.seq ifHead) head) (hu : Open us) : Open (head ++ us)
  | other {head us vs : List Token} {t : Token} (h : Derives (.seq ifHead) head) (hu : Closed us)
      (ht : t.kind = .kwElse) (hv : Open vs) : Open (head ++ (us ++ t :: vs))
  | loop {head us : List Token} (h : Derives (.oneOf [.seq whileHead, .seq forHead]) head) (hu : Open us) : Open (head ++ us)

variable {us vs : List Token} {t : Token}

theorem branch_shape {head : List Token} (h : Derives (.seq ifHead) head) (hu : Closed us)
    (ht : t.kind = .kwElse) (hv : Closed vs ∨ Open vs) :
    Closed (head ++ (us ++ t :: vs)) ∨ Open (head ++ (us ++ t :: vs)) := by
  rcases hv with hv | hv
  · exact .inl (.branch h hu ht hv)
  · exact .inr (.other h hu ht hv)

theorem loop_shape {head : List Token} (h : Derives (.oneOf [.seq whileHead, .seq forHead]) head) (hu : Closed us ∨ Open us) :
    Closed (head ++ us) ∨ Open (head ++ us) := by
  rcases hu with hu | hu
  · exact .inl (.loop h hu)
  · exact .inr (.loop h hu)

/-- An `else` behind an open statement goes to the last `if` that has none. -/
theorem Open.attach (hu : Open us) (ht : t.kind = .kwElse) (hv : Closed vs ∨ Open vs) :
    Closed (us ++ t :: vs) ∨ Open (us ++ t :: vs) := by
  induction hu with
  | branch h hu =>
    rw [List.append_assoc]
    exact branch_shape h hu ht hv
  | nested h _ ih =>
    rw [List.append_assoc]
    rcases ih with ih | ih
    · exact .inr (.branch h ih)
    · exact .inr (.nested h ih)
  | other h hu ht' _ ih =>
    rw [List.append_assoc, List.append_assoc, List.cons_append]
    exact branch_shape h hu ht' ih
  | loop h _ ih =>
    rw [List.append_assoc]
    exact loop_shape h ih

theorem begins_loopHead : Begins Kind.beginsStatement (.oneOf [.seq whileHead, .seq forHead]) := by
  refine .oneOf fun a m => ?_
  simp only [List.mem_cons, List.not_mem_nil, or_false] at m
  rcases m with rfl | rfl
  · exact .cons (.token rfl)
  · exact .cons (.token rfl)

theorem begins_ifHead : Begins Kind.beginsStatement (.seq ifHead) := .cons (.token rfl)

theorem ne_nil_of_begins {S : Kind → Bool} {a : Form} {head : List Token} (ha : Begins S a)
    (h : Derives a head) (rest : List Token) : head ++ rest ≠ [] := by
  obtain ⟨t, xs, rfl, -⟩ := ha head h
  exact List.cons_ne_nil t _

theorem Closed.ne_nil (h : Closed us) : us ≠ [] := by
  cases h with
  | @simple r _ hr h =>
    have mine : Form.rule r ∈ [Form.rule .expressionStatement, .rule .forStatement, .rule .ifStatement,
        .rule .printStatement, .rule .returnStatement, .rule .whileStatement, .rule .block] := by
      cases r <;> simp_all [Rule.isSimple]
    obtain ⟨t, xs, rfl, -⟩ := begins_statement us (.rule (.oneOf mine h))
    exact List.cons_ne_nil t xs
  | branch h => exact ne_nil_of_begins begins_ifHead h _
  | loop h => exact ne_nil_of_begins begins_loopHead h _

theorem Open.ne_nil (h : Open us) : us ≠ [] := by
  cases h with
  | branch h | nested h | other h => exact ne_nil_of_begins begins_ifHead h _
  | loop h => exact ne_nil_of_begins begins_loopHead h _

/-- Every statement has one of the two shapes. -/
theorem statement_shape (n : Nat) : ∀ ts : List Token, ts.length ≤ n →
    Derives (.rule .statement) ts → Closed ts ∨ Open ts := by
  induction n with
  | zero =>
    intro ts short h
    obtain ⟨t, rest, rfl, -⟩ := begins_statement ts h
    simp at short
  | succ n ih =>
    intro ts short h
    have loop {head : List Form} (hl : Form.seq head ∈ [Form.seq whileHead, .seq forHead])
        (h : Derives (.seq (head ++ [.rule .statement])) ts) : Closed ts ∨ Open ts := by
      obtain ⟨xs, ys, hx, hy, rfl⟩ := derives_seq_append.mp h
      have hx : Derives (.oneOf [.seq whileHead, .seq forHead]) xs := .oneOf hl hx
      obtain ⟨t, xs, rfl, -⟩ := begins_loopHead xs hx
      simp only [List.length_append, List.length_cons] at short
      exact loop_shape hx (ih ys (by omega) (derives_single.mp hy))
    obtain ⟨a, m, h⟩ := derives_oneOf.mp (derives_rule.mp h)
    simp only [List.mem_cons, List.not_mem_nil, or_false] at m
    rcases m with rfl | rfl | rfl | rfl | rfl | rfl | rfl
    · exact .inl (.simple rfl h)
    · have h : Derives (.seq (forHead ++ [.rule .statement])) ts := derives_rule.mp h
      exact loop (List.mem_cons_of_mem _ List.mem_cons_self) h
    · have h : Derives (.seq (ifHead ++ [.rule .statement,
          .optional (.seq [.token .kwElse, .rule .statement])])) ts := derives_rule.mp h
      obtain ⟨head, rest, hh, hr, rfl⟩ := derives_seq_append.mp h
      obtain ⟨us, other, hu, ho, rfl⟩ := derives_seq_cons.mp hr
      obtain ⟨t, head, rfl, -⟩ := begins_ifHead head hh
      simp only [List.length_append, List.length_cons] at short
      have first := ih us (by omega) hu
      rcases derives_optional.mp (derives_single.mp ho) with rfl | ho
      · rw [List.append_nil]
        rcases first with hu | hu
        · exact .inr (.branch hh hu)
        · exact .inr (.nested hh hu)
      · obtain ⟨e, vs, he, hv, rfl⟩ := derives_seq_token.mp ho
        simp only [List.length_cons] at short
        have second := ih vs (by omega) (derives_single.mp hv)
        rcases first with hu | hu
        · exact branch_shape hh hu he second
        · rcases hu.attach he second with all | all
          · exact .inr (.branch hh all)
          · exact .inr (.nested hh all)
    · exact .inl (.simple rfl h)
    · exact .inl (.simple rfl h)
    · have h : Derives (.seq (whileHead ++ [.rule .statement])) ts := derives_rule.mp h
      exact loop List.mem_cons_self h
    · exact .inl (.simple rfl h)

end Lox.Grammar
