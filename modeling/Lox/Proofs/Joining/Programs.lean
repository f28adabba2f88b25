import Lox.Proofs.Joining.Scanning
import Lox.Proofs.Printing.Inverse
import Lox.Proofs.Resolving
import Lox.Proofs.StaticErrors

/-! # The program of a source behind another

No statement goes on behind the end of a source that is read without an error, and a
name that is declared outside all scopes is not tracked. So a source behind another one
is read and resolved as by itself. -/

namespace Lox

theorem Row.append {α : Type} {P : α → List Token → Prop} {as bs : List α} {ts us : List Token}
    (h : Row P as ts) (k : Row P bs us) : Row P (as ++ bs) (ts ++ us) := by
  induction h with
  | nil => exact k
  | cons h _ ih =>
    rw [List.cons_append, List.append_assoc]
    exact .cons h ih

theorem staticErrors_eq_nil_iff (source : String) : staticErrors source = [] ↔
    (scan source).errors = [] ∧ (parse (scan source).tokens).errors = [] ∧
      (resolution source).errors = [] := by
  rw [← List.isEmpty_iff, staticErrors_isEmpty, earlyErrors_isEmpty, Bool.and_eq_true, Bool.and_eq_true,
    List.isEmpty_iff, List.isEmpty_iff, List.isEmpty_iff, and_assoc]

/-- Behind the statements of one row of tokens come those of the next, even if the first
row ends in an `if` without an `else`. -/
theorem parse_append {first second : List Token} {last last' : Token} (h : Inside first)
    (h' : Inside second) (hl : last.kind = .eof) (hl' : last'.kind = .eof)
    (quiet : (parse (first ++ [last])).errors = []) (quiet' : (parse (second ++ [last'])).errors = []) :
    parse (first ++ second ++ [last']) =
      ⟨(parse (first ++ [last])).statements ++ (parse (second ++ [last'])).statements, [], last'.line⟩ :=
  parse_row ((parse_quiet h hl quiet).append (parse_quiet h' hl' quiet')) (h.append h') hl'

theorem parse_followedBy {a b : String} (quiet : (parse (scan a).tokens).errors = [])
    (quiet' : (parse (scan b).tokens).errors = []) :
    (parse ((scan a).followedBy (scan b)).tokens).statements =
        (parse (scan a).tokens).statements ++ (parse (scan b).tokens).statements ∧
      (parse ((scan a).followedBy (scan b)).tokens).errors = [] := by
  obtain ⟨first, last, e, inside, -⟩ := scan_tokens a
  obtain ⟨second, last', e', inside', -⟩ := scan_tokens b
  have joined : ((scan a).followedBy (scan b)).tokens = first ++ second ++ [.eof last'] := by
    rw [Scan.followedBy, e, e', List.dropLast_concat, List.append_assoc]
  rw [e] at quiet
  rw [e'] at quiet'
  rw [joined, e, e', parse_append inside inside' rfl rfl quiet quiet']
  exact ⟨rfl, rfl⟩

theorem Stmt.numberAll_append (p q : List (Stmt Unit)) (n : Nat) : Stmt.numberAll (p ++ q) n =
    ((Stmt.numberAll p n).1 ++ (Stmt.numberAll q (Stmt.numberAll p n).2).1,
      (Stmt.numberAll q (Stmt.numberAll p n).2).2) := by
  induction p generalizing n with
  | nil => rfl
  | cons s p ih => simp only [List.cons_append, Stmt.numberAll, ih]

theorem Stmt.resolveAll_append (p q : List (Stmt Nat)) (w : Walk) :
    Stmt.resolveAll (p ++ q) w = Stmt.resolveAll q (Stmt.resolveAll p w) := by
  induction p generalizing w with
  | nil => rfl
  | cons s p ih => exact ih (s.resolve w)

/-- Outside all scopes the walk stays outside. -/
theorem Stmt.resolveAll_outside {T : Token → Prop} {program : List (Stmt Nat)}
    (h : Stmt.AllWellFormed T program) {w : Walk} (hw : w.scopes = []) :
    (Stmt.resolveAll program w).scopes = [] := by
  induction program generalizing w with
  | nil => exact hw
  | cons s program ih =>
    refine ih h.2 ?_
    have place := s.resolve_surroundings w h.1
    rw [Walk.surroundings, Walk.surroundings, hw] at place
    refine List.map_eq_nil_iff.mp (place.trans ?_)
    unfold Surroundings.after
    split <;> rfl

/-- What the pass finds out about a program behind another one in which it finds no misuse. -/
theorem resolve_append {T : Token → Token → Prop} {M : Nat → Nat → Prop} {U : Token → Prop}
    (hT : ∀ t u, T t u → t.SameText u) {p q q' : List (Stmt Nat)} (hp : Stmt.AllWellFormed U p)
    (quiet : (resolve p).errors = []) (h : List.Forall₂ (Stmt.Like T M) q q') :
    ∃ new, (resolve (p ++ q')).entries = (resolve p).entries ++ new ∧
      List.Forall₂ (Entry.Like T M) (resolve q).entries new ∧
      List.Forall₂ (MisuseError.Like T) (resolve q).errors (resolve (p ++ q')).errors := by
  let E (es es' : List Entry) : Prop :=
    ∃ new, es' = (resolve p).entries ++ new ∧ List.Forall₂ (Entry.Like T M) es new
  have adds := Stmt.resolveAll_adds p .start
  have start : Walk.Like T E .start (Stmt.resolveAll p .start) :=
    ⟨Stmt.resolveAll_outside hp rfl, ⟨[], (List.append_nil _).symm, .nil⟩,
      (show (Stmt.resolveAll p .start).errors.toList = [] from quiet) ▸ .nil, adds.routine, adds.klass⟩
  have walked := Stmt.resolveAll_like hT (E := E) (fun es es' e e' ⟨new, same, like⟩ he =>
    ⟨new ++ [e'], by rw [same, List.append_assoc], List.rel_append like (.cons he .nil)⟩) q h start
  obtain ⟨new, same, like⟩ := walked.entries
  rw [← Stmt.resolveAll_append] at same
  have errors := walked.errors
  rw [← Stmt.resolveAll_append] at errors
  exact ⟨new, same, like, errors⟩

end Lox
