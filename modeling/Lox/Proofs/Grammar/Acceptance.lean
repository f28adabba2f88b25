import Lox.Proofs.Grammar.Soundness
import Lox.Proofs.Grammar.Statements

/-! # The programs that are accepted are those of the grammar -/

namespace Lox

open Grammar

theorem derives_program {body : List Token} {last : Token} (hl : last.kind = .eof) :
    Derives (.rule .program) (body ++ [last]) ↔ Derives (.many (.rule .declaration)) body := by
  constructor
  · intro h
    obtain ⟨us, vs, hu, hv, e⟩ := derives_seq_cons.mp (derives_rule.mp h)
    obtain ⟨t, -, rfl⟩ := derives_token.mp (derives_single.mp hv)
    obtain ⟨rfl, -⟩ := List.append_inj' e rfl
    exact hu
  · intro h
    exact .rule (.cons h (.token_cons hl .nil))

theorem takeWhile_body {body : List Token} {last : Token} (hb : ∀ t ∈ body, t.kind ≠ .eof)
    (hl : last.kind = .eof) : (body ++ [last]).takeWhile (·.kind != .eof) = body := by
  rw [List.takeWhile_append_of_pos fun t ht => by simpa using hb t ht]
  simp [hl]

namespace Parse

/-- What is assigned to is a name or a property. -/
theorem assigned_target {target rest : List Token} {equals : Token}
    (ht : Derives (.rule .disjunction) target) (hq : equals.kind = .equal)
    (quiet : (wholeExpression (target ++ equals :: rest)).errors = []) :
    Derives (.token .identifier) target ∨
      Derives (.seq [.rule .call, .token .dot, .token .identifier]) target := by
  obtain ⟨first, bound, hfirst⟩ : ∃ first bound, target ++ equals :: rest = first :: bound := by
    cases target with
    | nil => exact ⟨equals, rest, rfl⟩
    | cons t target => exact ⟨t, target ++ equals :: rest, rfl⟩
  have short : target.length ≤ bound.length + 1 := by
    have := congrArg List.length hfirst
    simp only [List.length_append, List.length_cons] at this
    omega
  have nested := expressionWithin_reads bound
  obtain ⟨e, reply⟩ := disjunction_reads nested target (equals :: rest) short ht
    (by simp [hq, Kind.looseness])
  -- the value that was read tells the form of the tokens
  obtain ⟨e', used, value, tokens, -, form⟩ := disjunction_takes (expressionWithin_obeys bound)
    (target ++ equals :: rest) (by rw [reply])
  rw [reply] at value tokens
  cases value
  obtain rfl := List.append_cancel_right tokens
  have whole : wholeExpression (target ++ equals :: rest) =
      assignment (expressionWithin bound) (target ++ equals :: rest) := by
    rw [wholeExpression, bounded, hfirst]
    rfl
  rw [whole, assignment, bind_reply reply, bind_reply (take?_hit (by simp [hq]))] at quiet
  have never (e : Expr Unit) : Takes (fun _ _ => False) (expressionWithin bound >>= fun _ =>
      report .badTarget (some equals) >>= fun _ => pure e) :=
    (expressionWithin_obeys bound).bind fun _ _ _ =>
      (report_takes (Q := fun _ _ => False) _ _).bind fun _ _ h => h.elim
  cases e with
  | name place => exact .inl form
  | get object property => exact .inr form
  | literal | grouping | unary | binary | logical | assign | call | set | this | super =>
    obtain ⟨_, _, _, _, impossible⟩ := never _ rest quiet
    exact impossible.elim

end Parse

theorem parse_quiet_iff {body : List Token} {last : Token} (hb : ∀ t ∈ body, t.kind ≠ .eof)
    (hl : last.kind = .eof) :
    (parse (body ++ [last])).errors = [] ↔ Derives (.rule .program) (body ++ [last]) := by
  rw [derives_program hl]
  have reader : (parse (body ++ [last])).errors = (Parse.program body).errors := by
    rw [parse, takeWhile_body hb hl]
  rw [reader]
  constructor
  · exact Parse.program_obeys hb
  · intro h
    obtain ⟨items, reply⟩ := Parse.program_reads h
    rw [reply]

/-- A program is read without a problem if and only if the grammar derives it. Where an
expression is read, only a name or a property behind a call can stand in front of an
equals sign. -/
theorem parse_accepts {body : List Token} {last : Token} (hb : ∀ t ∈ body, t.kind ≠ .eof)
    (hl : last.kind = .eof) :
    ((parse (body ++ [last])).errors = [] ↔ Derives (.rule .program) (body ++ [last])) ∧
    ∀ (target rest : List Token) (equals : Token), Derives (.rule .disjunction) target →
      equals.kind = .equal → (Parse.wholeExpression (target ++ equals :: rest)).errors = [] →
      Derives (.token .identifier) target ∨
        Derives (.seq [.rule .call, .token .dot, .token .identifier]) target := by
  exact ⟨parse_quiet_iff hb hl, fun _ _ _ ht hq quiet => Parse.assigned_target ht hq quiet⟩

/-- A property is given a value. -/
theorem parse_accepts_property :
    (∀ t ∈ ([.identifier, .dot, .identifier, .equal, .number, .semicolon] : List Kind).map
      (⟨·, "", none, 1⟩ : Kind → Token), t.kind ≠ .eof) ∧
    Derives (.rule .program) ((([.identifier, .dot, .identifier, .equal, .number, .semicolon] : List Kind).map
      (⟨·, "", none, 1⟩ : Kind → Token)) ++ [Token.eof 1]) := by
  have hb : ∀ t ∈ ([.identifier, .dot, .identifier, .equal, .number, .semicolon] : List Kind).map
      (⟨·, "", none, 1⟩ : Kind → Token), t.kind ≠ .eof := by decide
  exact ⟨hb, (parse_accepts hb rfl).1.mp rfl⟩

end Lox
