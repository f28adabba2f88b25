import Lox.Proofs.Grammar.Acceptance
import Lox.Proofs.Printing.Readings
import Lox.Proofs.Printing.Sources
import Lox.Proofs.Printing.Trees

/-! # Reading inverts printing -/

namespace Lox

theorem parse_body {body : List Token} {last : Token} (hb : Inside body) (hl : last.kind = .eof) :
    parse (body ++ [last]) =
      ⟨((Parse.program body).value.getD []).filterMap id, (Parse.program body).errors, last.line⟩ := by
  have stop : (body ++ [last]).find? (·.kind == .eof) = some last := by
    rw [List.find?_append, List.find?_eq_none.mpr fun t m => by simpa using hb t m]
    simp [hl]
  rw [parse, takeWhile_body hb hl, stop]
  rfl

/-- Any row of tokens of trees is read as those trees. -/
theorem parse_row {program : List (Stmt Unit)} {body : List Token} {last : Token}
    (h : Row (Stmt.Writes true) program body) (hb : Inside body) (hl : last.kind = .eof) :
    parse (body ++ [last]) = ⟨program, [], last.line⟩ := by
  rw [parse_body hb hl, Parse.program_reply h]
  simp

/-- What is read without a problem are trees that have these tokens. -/
theorem parse_quiet {body : List Token} {last : Token} (hb : Inside body) (hl : last.kind = .eof)
    (quiet : (parse (body ++ [last])).errors = []) :
    Row (Stmt.Writes true) (parse (body ++ [last])).statements body := by
  rw [parse_body hb hl] at quiet ⊢
  obtain ⟨ds, value, row⟩ := Parse.program_writes hb quiet
  rw [value]
  exact row

/-- A program in normal form is read from what is printed for it. What is printed for the trees
that are read without a problem says the same as their tokens, and so does what is printed
for a source. A counting loop is printed as what it means. -/
theorem parse_inverts_printing :
    (∀ (program : List (Stmt Unit)) (last : Token), Stmt.AllNormal program → last.kind = .eof →
      parse (Stmt.allTokens program ++ [last]) = ⟨program, [], last.line⟩) ∧
    (∀ (body : List Token) (last : Token), Inside body → Printable body → last.kind = .eof →
      (parse (body ++ [last])).errors = [] →
      (Stmt.allTokens (parse (body ++ [last])).statements).map Token.reading = body.map Token.reading) ∧
    ∀ source : String, (∀ t ∈ (scan source).tokens, t.kind ≠ .kwFor) →
      (parse (scan source).tokens).errors = [] →
      (Stmt.allTokens (parse (scan source).tokens).statements ++ [Token.plain .eof]).map Token.reading =
        (scan source).tokens.map Token.reading := by
  have agrees (body : List Token) (last : Token) (hb : Inside body) (hp : Printable body)
      (hl : last.kind = .eof) (quiet : (parse (body ++ [last])).errors = []) :
      Agree body (Stmt.allTokens (parse (body ++ [last])).statements) :=
    Stmt.Writes.agreeAll (parse_quiet hb hl quiet) hp
  refine ⟨fun program last h hl => parse_row (Stmt.AllNormal.writes h) (Stmt.AllNormal.inside h) hl,
    fun body last hb hp hl quiet => (agrees body last hb hp hl quiet).symm, fun source noFor quiet => ?_⟩
  obtain ⟨body, last, e, inside, proper⟩ := scan_tokens source
  rw [e] at noFor quiet ⊢
  have printable : Printable body := fun t m => ⟨proper t m, noFor t (List.mem_append_left _ m)⟩
  have all := agrees body (.eof last) inside printable rfl quiet
  exact (all.append (.cons (t := .eof last) (u := .plain .eof) rfl (.refl []))).symm

/-- An `else` goes to the last `if`, a product stands below a sum on either side of it, and a
property behind a call is assigned to. -/
theorem parse_inverts_printing_branches :
    let name (x : String) : Token := ⟨.identifier, x, none, 1⟩
    let operand (x : String) : Expr Unit := .name ⟨(), name x⟩
    let product : Expr Unit := .binary (operand "a") (.plain .star) (operand "b")
    let sum : Expr Unit := .binary (.binary product (.plain .minus) product) (.plain .plus) product
    let inner : Stmt Unit := .branch sum (.print (operand "a")) (some (.block []))
    let program : List (Stmt Unit) := [.branch (operand "a") inner none]
    let source := "a(1, \"s\").b = !c or d == -2;"
    (Stmt.AllNormal program ∧ parse (Stmt.allTokens program ++ [.eof 7]) = ⟨program, [], 7⟩) ∧
    ((∀ t ∈ (scan source).tokens, t.kind ≠ .kwFor) ∧ (parse (scan source).tokens).errors = [] ∧
      (Stmt.allTokens (parse (scan source).tokens).statements ++ [Token.plain .eof]).map Token.reading =
        (scan source).tokens.map Token.reading) ∧
    (Inside (scan source).tokens.dropLast ∧ Printable (scan source).tokens.dropLast ∧
      (parse ((scan source).tokens.dropLast ++ [.eof 7])).errors = [] ∧
      (Stmt.allTokens (parse ((scan source).tokens.dropLast ++ [.eof 7])).statements).map Token.reading =
        (scan source).tokens.dropLast.map Token.reading) := by
  intro name operand product sum inner program source
  have normal : Stmt.AllNormal program := by
    simp [program, inner, sum, product, operand, name, Stmt.AllNormal, Stmt.Normal, Stmt.NormalElse,
      Expr.Normal, Expr.rank, Stmt.endsOpen, Stmt.declared?, Token.plain, Kind.isBinary, Kind.looseness]
  have noFor : ∀ t ∈ (scan source).tokens, t.kind ≠ .kwFor := by decide +kernel
  have quiet : (parse (scan source).tokens).errors = [] := List.isEmpty_iff.mp (by decide +kernel)
  have inside : Inside (scan source).tokens.dropLast := by
    unfold Inside
    decide +kernel
  have printable : Printable (scan source).tokens.dropLast := fun t m => by
    obtain ⟨body, last, e, -, proper⟩ := scan_tokens source
    refine ⟨proper t ?_, noFor t (List.dropLast_subset _ m)⟩
    rw [e, List.dropLast_concat] at m
    exact m
  have quiet' : (parse ((scan source).tokens.dropLast ++ [.eof 7])).errors = [] :=
    List.isEmpty_iff.mp (by decide +kernel)
  exact ⟨⟨normal, parse_inverts_printing.1 program _ normal rfl⟩,
    ⟨noFor, quiet, parse_inverts_printing.2.2 source noFor quiet⟩,
    inside, printable, quiet', parse_inverts_printing.2.1 _ _ inside printable rfl quiet'⟩

end Lox
