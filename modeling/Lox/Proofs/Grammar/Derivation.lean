import Lox.Parse

/-! # The grammar of programs

Its productions are data. Terminals are kinds of tokens, and a token is derived from
its kind whatever its lexeme is. Nothing here refers to a reader: which statement an
`else` belongs to, or how operators group, is left open. -/

namespace Lox.Grammar

inductive Rule where
  | program
  | declaration | classDeclaration | functionDeclaration | function | variableDeclaration
  | statement | expressionStatement | forStatement | ifStatement | printStatement
  | returnStatement | whileStatement | block
  | parameters | arguments
  | expression | assignment | disjunction | conjunction | equality | comparison
  | term | factor | unary | call | primary
deriving DecidableEq, Repr

inductive Form where
  | token (kind : Kind)
  | rule (r : Rule)
  | seq (parts : List Form)
  | oneOf (choices : List Form)
  | optional (a : Form)
  | many (a : Form)
  /-- from one up to a number of times, with commas in between -/
  | listed (count : Nat) (a : Form)

namespace Form

instance : Coe Kind Form := ⟨token⟩

instance : Coe Rule Form := ⟨rule⟩

end Form

section Productions

open Kind Rule

/-- Operands of a tighter level with operators between them. -/
def Form.joined (operand : Rule) (operators : List Kind) : Form :=
  .seq [operand, .many (.seq [.oneOf (operators.map Form.token), operand])]

def Rule.form : Rule → Form
  | .program => .seq [.many declaration, eof]
  | .declaration => .oneOf [classDeclaration, functionDeclaration, variableDeclaration, statement]
  | .classDeclaration =>
    .seq [kwClass, identifier, .optional (.seq [less, identifier]), leftBrace, .many function, rightBrace]
  | .functionDeclaration => .seq [kwFun, function]
  | .function => .seq [identifier, leftParen, .optional parameters, rightParen, block]
  | .variableDeclaration =>
    .seq [kwVar, identifier, .optional (.seq [equal, expression]), semicolon]
  | .statement =>
    .oneOf [expressionStatement, forStatement, ifStatement, printStatement, returnStatement,
      whileStatement, block]
  | .expressionStatement => .seq [expression, semicolon]
  | .forStatement =>
    .seq [kwFor, leftParen, .oneOf [variableDeclaration, expressionStatement, semicolon],
      .optional expression, semicolon, .optional expression, rightParen, statement]
  | .ifStatement =>
    .seq [kwIf, leftParen, expression, rightParen, statement, .optional (.seq [kwElse, statement])]
  | .printStatement => .seq [kwPrint, expression, semicolon]
  | .returnStatement => .seq [kwReturn, .optional expression, semicolon]
  | .whileStatement => .seq [kwWhile, leftParen, expression, rightParen, statement]
  | .block => .seq [leftBrace, .many declaration, rightBrace]
  | .parameters => .listed maxListed identifier
  | .arguments => .listed maxListed expression
  | .expression => assignment
  | .assignment =>
    .oneOf [.seq [.optional (.seq [call, dot]), identifier, equal, assignment], disjunction]
  | .disjunction => .joined conjunction [kwOr]
  | .conjunction => .joined equality [kwAnd]
  | .equality => .joined comparison [bangEqual, equalEqual]
  | .comparison => .joined term [greater, greaterEqual, less, lessEqual]
  | .term => .joined factor [minus, plus]
  | .factor => .joined unary [slash, star]
  | .unary => .oneOf [.seq [.oneOf [bang, minus], unary], call]
  | .call =>
    .seq [primary, .many (.oneOf [.seq [leftParen, .optional arguments, rightParen],
      .seq [dot, identifier]])]
  | .primary =>
    .oneOf [kwTrue, kwFalse, kwNil, kwThis, number, string, identifier,
      .seq [leftParen, expression, rightParen], .seq [kwSuper, dot, identifier]]

end Productions

/-- Tokens that have a form. -/
inductive Derives : Form → List Token → Prop
  | token {t : Token} {k : Kind} (h : t.kind = k) : Derives (.token k) [t]
  | rule {r : Rule} {ts : List Token} (h : Derives r.form ts) : Derives (.rule r) ts
  | nil : Derives (.seq []) []
  | cons {a : Form} {rest : List Form} {us vs : List Token} (h : Derives a us)
      (k : Derives (.seq rest) vs) : Derives (.seq (a :: rest)) (us ++ vs)
  | oneOf {a : Form} {choices : List Form} {ts : List Token} (m : a ∈ choices) (h : Derives a ts) :
      Derives (.oneOf choices) ts
  | absent {a : Form} : Derives (.optional a) []
  | present {a : Form} {ts : List Token} (h : Derives a ts) : Derives (.optional a) ts
  | done {a : Form} : Derives (.many a) []
  | more {a : Form} {us vs : List Token} (h : Derives a us) (k : Derives (.many a) vs) :
      Derives (.many a) (us ++ vs)
  | last {a : Form} {n : Nat} {ts : List Token} (h : Derives a ts) : Derives (.listed (n + 1) a) ts
  | comma {a : Form} {n : Nat} {us vs : List Token} {t : Token} (h : Derives a us)
      (ht : t.kind = .comma) (k : Derives (.listed n a) vs) :
      Derives (.listed (n + 1) a) (us ++ t :: vs)

variable {a : Form} {parts choices : List Form} {ts us vs : List Token} {t : Token} {k : Kind}
  {r : Rule}

@[simp] theorem derives_token : Derives (.token k) ts ↔ ∃ t, t.kind = k ∧ ts = [t] := by
  constructor
  · intro h
    cases h with
    | token h => exact ⟨_, h, rfl⟩
  · intro ⟨t, h, e⟩
    exact e ▸ .token h

theorem derives_rule : Derives (.rule r) ts ↔ Derives r.form ts := by
  constructor
  · intro h
    cases h with
    | rule h => exact h
  · exact .rule

@[simp] theorem derives_seq_nil : Derives (.seq []) ts ↔ ts = [] := by
  constructor
  · intro h
    cases h
    rfl
  · intro h
    exact h ▸ .nil

theorem derives_seq_cons : Derives (.seq (a :: parts)) ts ↔
    ∃ us vs, Derives a us ∧ Derives (.seq parts) vs ∧ ts = us ++ vs := by
  constructor
  · intro h
    cases h with
    | cons h k => exact ⟨_, _, h, k, rfl⟩
  · intro ⟨us, vs, h, k, e⟩
    exact e ▸ .cons h k

/-- A sequence that begins with a terminal. -/
theorem derives_seq_token : Derives (.seq (.token k :: parts)) ts ↔
    ∃ t vs, t.kind = k ∧ Derives (.seq parts) vs ∧ ts = t :: vs := by
  rw [derives_seq_cons]
  constructor
  · intro ⟨us, vs, h, rest, e⟩
    obtain ⟨t, ht, rfl⟩ := derives_token.mp h
    exact ⟨t, vs, ht, rest, e⟩
  · intro ⟨t, vs, ht, rest, e⟩
    exact ⟨[t], vs, .token ht, rest, e⟩

theorem derives_oneOf : Derives (.oneOf choices) ts ↔ ∃ a ∈ choices, Derives a ts := by
  constructor
  · intro h
    cases h with
    | oneOf m h => exact ⟨_, m, h⟩
  · intro ⟨a, m, h⟩
    exact .oneOf m h

theorem derives_optional : Derives (.optional a) ts ↔ ts = [] ∨ Derives a ts := by
  constructor
  · intro h
    cases h with
    | absent => exact .inl rfl
    | present h => exact .inr h
  · intro h
    rcases h with rfl | h
    · exact .absent
    · exact .present h

theorem derives_many : Derives (.many a) ts ↔
    ts = [] ∨ ∃ us vs, Derives a us ∧ Derives (.many a) vs ∧ ts = us ++ vs := by
  constructor
  · intro h
    cases h with
    | done => exact .inl rfl
    | more h k => exact .inr ⟨_, _, h, k, rfl⟩
  · intro h
    rcases h with rfl | ⟨us, vs, h, k, rfl⟩
    · exact .done
    · exact .more h k

theorem derives_listed {n : Nat} : Derives (.listed n a) ts ↔ ∃ m, n = m + 1 ∧ (Derives a ts ∨
    ∃ us t vs, Derives a us ∧ t.kind = .comma ∧ Derives (.listed m a) vs ∧ ts = us ++ t :: vs) := by
  constructor
  · intro h
    cases h with
    | last h => exact ⟨_, rfl, .inl h⟩
    | comma h ht k => exact ⟨_, rfl, .inr ⟨_, _, _, h, ht, k, rfl⟩⟩
  · intro ⟨m, e, h⟩
    subst e
    rcases h with h | ⟨us, t, vs, h, ht, k, rfl⟩
    · exact .last h
    · exact .comma h ht k

/-- A terminal in front of a sequence. -/
theorem Derives.token_cons (ht : t.kind = k) (h : Derives (.seq parts) ts) :
    Derives (.seq (.token k :: parts)) (t :: ts) := .cons (.token ht) h

theorem Derives.single (h : Derives a ts) : Derives (.seq [a]) ts := by
  have e := Derives.cons h .nil
  rwa [List.append_nil] at e

theorem derives_single : Derives (.seq [a]) ts ↔ Derives a ts := by
  constructor
  · intro h
    obtain ⟨us, vs, h, k, e⟩ := derives_seq_cons.mp h
    rw [derives_seq_nil.mp k, List.append_nil] at e
    exact e ▸ h
  · exact .single

end Lox.Grammar
