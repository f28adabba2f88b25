import Lox.Proofs.Likeness.Interpreters

/-! # Layout

Blanks, line breaks and comments between tokens decide nothing but the lines on which
the tokens are. So sources with the same tokens are read, resolved and run alike, and
what is reported about them differs in the numbers of lines alone. -/

namespace Lox

/-- Messages that differ in their lines alone. -/
structure Diagnostic.SameButLine (d d' : Diagnostic) : Prop where
  place : d'.place = d.place
  message : d'.message = d.message

/-- Reported lines that are equal, or that render messages equal but for the line. -/
def Reporter.SameReport (r : Reporter) (line line' : String) : Prop :=
  line' = line ∨ ∃ d d' : Diagnostic, d.SameButLine d' ∧ line = r.rendering d ∧ line' = r.rendering d'

theorem Reporter.sameReport_refl (r : Reporter) (lines : List String) :
    List.Forall₂ r.SameReport lines lines := List.forall₂_same.mpr fun _ _ => .inl rfl

theorem isEmpty_like {α β : Type} {R : α → β → Prop} {as : List α} {bs : List β}
    (h : List.Forall₂ R as bs) : bs.isEmpty = as.isEmpty := by
  cases h <;> rfl

section Diagnostics

variable {T : Token → Token → Prop} (hT : ∀ t u, T t u → t.SameText u)

theorem Token.SameText.unlined {t u : Token} (h : t.SameText u) : t.unlined = u.unlined := by
  rw [Token.unlined, Token.unlined, h.kind, h.lexeme, h.literal]

theorem Token.SameText.place {t u : Token} (h : t.SameText u) : u.place = t.place := by
  rw [Token.place, Token.place, h.kind, h.lexeme]

include hT

theorem SyntaxError.Like.diagnostic {e e' : SyntaxError} (h : e.Like T e') (line line' : Nat) :
    (e.diagnostic line).SameButLine (e'.diagnostic line') := by
  obtain ⟨problem, token⟩ := e
  obtain ⟨problem', token'⟩ := e'
  obtain ⟨rfl, token⟩ := h
  cases token with
  | none => exact ⟨rfl, rfl⟩
  | some ht => exact ⟨(hT _ _ ht).place, rfl⟩

theorem MisuseError.Like.diagnostic {e e' : MisuseError} (h : e.Like T e') :
    e.diagnostic.SameButLine e'.diagnostic :=
  ⟨(hT _ _ h.token).place, congrArg Misuse.message h.misuse⟩

theorem RuntimeError.Like.diagnostic {e e' : RuntimeError} (h : e.Like T e') :
    e.diagnostic.SameButLine e'.diagnostic := by
  have lexeme := (hT _ _ h.token).lexeme
  refine ⟨congrArg Diagnostic.atLexeme lexeme, ?_⟩
  change e'.message = e.message
  unfold RuntimeError.message
  rw [h.problem, lexeme]

/-- Faults that are alike are reported alike and end a run alike. -/
theorem Reporter.closing_like (r : Reporter) {f f' : Option Fault} (h : Option.Rel (Fault.Like T) f f') :
    List.Forall₂ r.SameReport (r.closing (f.map (·.raised))) (r.closing (f'.map (·.raised))) ∧
      Raised.ending (f'.map (·.raised)) = Raised.ending (f.map (·.raised)) := by
  cases h with
  | none => exact ⟨.nil, rfl⟩
  | some h =>
    cases h with
    | runtime h => exact ⟨.cons (.inr ⟨_, _, h.diagnostic hT, rfl, rfl⟩) .nil, rfl⟩
    | _ => exact ⟨r.sameReport_refl _, rfl⟩

end Diagnostics

/-! ## Sources with the same tokens -/

/-- Sources that are read alike but for the lines. -/
structure ReadAlike (a b : String) : Prop where
  errors : List.Forall₂ Diagnostic.SameButLine ((scan a).errors.map (·.diagnostic))
    ((scan b).errors.map (·.diagnostic))
  tokens : List.Forall₂ Token.SameText (scan a).tokens (scan b).tokens

/-- Sources without lexical errors that consist of the same tokens, on whatever lines. -/
structure SameTokens (a b : String) : Prop where
  left : (scan a).errors = []
  right : (scan b).errors = []
  tokens : List.Forall₂ Token.SameText (scan a).tokens (scan b).tokens

theorem SameTokens.readAlike {a b : String} (h : SameTokens a b) : ReadAlike a b where
  errors := by rw [h.left, h.right]; exact .nil
  tokens := h.tokens

namespace ReadAlike

theorem refl (source : String) : ReadAlike source source :=
  ⟨List.forall₂_same.mpr fun _ _ => ⟨rfl, rfl⟩, List.forall₂_same.mpr fun t _ => .refl t⟩

variable {a b : String} (h : ReadAlike a b)
include h

theorem statements : List.Forall₂ (Stmt.Like Token.SameText Eq) (parse (scan a).tokens).statements
    (parse (scan b).tokens).statements :=
  (parse_like (fun _ _ h => h) h.tokens).1

theorem earlyErrors : List.Forall₂ Diagnostic.SameButLine (earlyErrors a) (earlyErrors b) := by
  have errors := (parse_like (fun _ _ h => h) h.tokens).2
  rw [Lox.earlyErrors, Lox.earlyErrors, Parsed.diagnostics, Parsed.diagnostics]
  refine List.rel_append h.errors ?_
  rw [List.forall₂_map_left_iff, List.forall₂_map_right_iff]
  exact errors.imp fun _ _ he => he.diagnostic (fun _ _ h => h) _ _

theorem resolution : (resolution b).entries.length = (resolution a).entries.length ∧
    List.Forall₂ (MisuseError.Like Token.SameText) (resolution a).errors (resolution b).errors := by
  have numbered := (Stmt.numberAll_like (M := Eq) (d := 0) _ h.statements 0).like fun _ _ _ => rfl
  obtain ⟨entries, errors⟩ := resolve_like (fun _ _ h => h) numbered
  exact ⟨entries.length_eq.symm, errors⟩

theorem staticErrors : List.Forall₂ Diagnostic.SameButLine (staticErrors a) (staticErrors b) := by
  have early := h.earlyErrors
  rw [Lox.staticErrors, Lox.staticErrors, isEmpty_like early]
  split
  · rw [List.forall₂_map_left_iff, List.forall₂_map_right_iff]
    exact h.resolution.2.imp fun _ _ he => he.diagnostic fun _ _ h => h
  · exact early

theorem resolvingNote : Session.resolvingNote (Lox.resolution b) =
    Session.resolvingNote (Lox.resolution a) := by
  unfold Session.resolvingNote
  rw [h.resolution.1, h.resolution.2.length_eq]

theorem readingNote (s : Session) : s.readingNote b = s.readingNote a := by
  unfold Session.readingNote
  rw [h.tokens.length_eq, h.statements.length_eq]

theorem bare : (scan b).bare = (scan a).bare := by
  have unlined := h.tokens.imp fun _ _ same => same.unlined
  rw [← List.forall₂_map_right_iff, ← List.forall₂_map_left_iff] at unlined
  exact (List.forall₂_eq_eq_eq ▸ unlined : _ = _).symm

/-- The stack gives out at the same point for both sources, if at all. -/
theorem holds (stack : Stack) : stack.holds b = stack.holds a := by
  have early := isEmpty_like h.earlyErrors
  rw [earlyErrors_isEmpty, earlyErrors_isEmpty] at early
  rw [Stack.holds, Stack.holds, early, h.bare]

end ReadAlike

/-! ## Sessions -/

/-- Interpreters that are equal but for the lines of the tokens in their functions. -/
def Interpreter.SameButLines : Interpreter → Interpreter → Prop :=
  Interpreter.Like Token.SameText Eq Eq

namespace Session

variable {s t : Session} {a b : String}

theorem refusal_like (h : s.Twins Interpreter.SameButLines t) (hs : ReadAlike a b) :
    List.Forall₂ s.reporter.SameReport (s.refusal a) (t.refusal b) := by
  have errors : List.Forall₂ s.reporter.SameReport ((staticErrors a).map s.reporter.rendering)
      ((staticErrors b).map t.reporter.rendering) := by
    rw [Reporter.rendering_congr h.paint, List.forall₂_map_left_iff, List.forall₂_map_right_iff]
    exact hs.staticErrors.imp fun _ _ hd => .inr ⟨_, _, hd, rfl, rfl⟩
  have notes := fun lines => s.reporter.sameReport_refl (s.listed lines)
  unfold refusal
  dsimp only
  rw [isEmpty_like hs.earlyErrors, h.listed, h.listed, h.readingNote, hs.readingNote, hs.resolvingNote]
  split
  · exact List.rel_append (notes _) errors
  · exact List.rel_append errors (notes _)

variable (h : s.Twins Interpreter.SameButLines t) (hs : ReadAlike a b)
include h hs

theorem perform_like :
    Interpreter.SameButLines (s.interpreter.perform a).1 (t.interpreter.perform b).1 ∧
      Option.Rel (Fault.Like Token.SameText) (s.interpreter.perform a).2 (t.interpreter.perform b).2 :=
  h.interpreter.perform (fun _ _ h => h) (fun _ _ _ e => e ▸ rfl) hs.statements
    (fun _ _ _ _ e₁ e₂ => by rw [e₁, e₂]) fun _ _ _ => rfl

theorem account_like : List.Forall₂ s.reporter.SameReport (s.account a) (t.account b) := by
  obtain ⟨after, fault⟩ := perform_like h hs
  have events : (t.interpreter.perform b).1.takeEvents.1 = (s.interpreter.perform a).1.takeEvents.1 := by
    simp only [Interpreter.takeEvents, after.machine.events]
  unfold account
  dsimp only
  rw [h.listed, h.readingNote, hs.readingNote, hs.resolvingNote, events, Reporter.closing_congr h.paint]
  exact List.rel_append (s.reporter.sameReport_refl _) (s.reporter.closing_like (fun _ _ h => h) fault).1

/-- One unit after the other, sessions stay alike. -/
theorem run_like : (s.run a).1.Twins Interpreter.SameButLines (t.run b).1 ∧
    (t.run b).2 = (s.run a).2 ∧
    (t.reporter.hadError = s.reporter.hadError →
      (t.run b).1.reporter.hadError = (s.run a).1.reporter.hadError) ∧
    ∃ lines lines', (s.run a).1.reporter.stream = Reporter.extended s.reporter.stream lines ∧
      (t.run b).1.reporter.stream = Reporter.extended t.reporter.stream lines' ∧
      List.Forall₂ s.reporter.SameReport lines lines' := by
  have same := isEmpty_like hs.staticErrors
  have holds : t.stack.holds b = s.stack.holds a := h.stack ▸ hs.holds s.stack
  cases held : s.stack.holds a with
  | false =>
    have lines : t.dropping b = s.dropping a := by
      rw [dropping, dropping, h.stack, hs.bare, h.listed, h.readingNote, hs.readingNote]
    rw [run_dropped_eq h.left held, run_dropped_eq h.right (holds.trans held), lines]
    exact ⟨{ h with }, rfl, congrArg (· || false), _, _, rfl, rfl, s.reporter.sameReport_refl _⟩
  | true =>
    by_cases he : staticErrors a = []
    · have he' : staticErrors b = [] := List.isEmpty_iff.mp (same.trans (List.isEmpty_iff.mpr he))
      obtain ⟨after, fault⟩ := perform_like h hs
      obtain ⟨closing, ending⟩ := s.reporter.closing_like (fun _ _ h => h) fault
      have lines := account_like h hs
      rw [run_accepted_eq h.left held he, run_accepted_eq h.right (holds.trans held) he']
      generalize s.account a = told at lines ⊢
      generalize t.account b = told' at lines ⊢
      generalize s.interpreter.perform a = ran at after closing ending ⊢
      generalize t.interpreter.perform b = ran' at after closing ending ⊢
      dsimp only
      rw [Reporter.closing_congr h.paint, isEmpty_like closing, h.hadRuntimeError]
      have interpreter := Interpreter.Like.takeEvents after fun _ _ e => congrArg _ e
      exact ⟨{ h with hadRuntimeError := rfl, interpreter }, ending, id, _, _, rfl, rfl, lines⟩
    · have he' : staticErrors b ≠ [] := fun e =>
        he (List.isEmpty_iff.mp (same.symm.trans (List.isEmpty_iff.mpr e)))
      have lines := refusal_like h hs
      rw [run_refused h.left held he, run_refused h.right (holds.trans held) he']
      generalize s.refusal a = told at lines ⊢
      generalize t.refusal b = told' at lines ⊢
      exact ⟨{ h with }, rfl, fun _ => (Bool.or_true _).trans (Bool.or_true _).symm, _, _, rfl, rfl, lines⟩

omit hs

/-- Through any number of units, also where later ones use what earlier ones have left,
sessions stay alike. -/
theorem answerAll_like (requests : List Request) :
    (s.answerAll requests).1.Twins Interpreter.SameButLines (t.answerAll requests).1 ∧
      (t.answerAll requests).2 = (s.answerAll requests).2 := by
  induction requests generalizing s t with
  | nil => exact ⟨h, rfl⟩
  | cons request rest ih =>
    cases request with
    | reset => exact ih h.reset
    | run source =>
      obtain ⟨after, ending, -⟩ := run_like h (.refl source)
      obtain ⟨last, endings⟩ := ih after
      simp only [answerAll]
      exact ⟨last, by rw [ending, endings]⟩

omit h

theorem twins_refl (h : s.reporter.fatal = false) : s.Twins Interpreter.SameButLines s :=
  ⟨rfl, rfl, rfl, rfl, h, h, rfl, .refl .refl (fun _ => rfl) _⟩

/-- A unit does the same in every layout of its tokens, and what is reported about it differs
in the numbers of lines alone. So it is down to what it leaves in the session, of which no
later unit can tell in which layout it was. -/
theorem layout_decides_nothing {a b : String} (h : s.reporter.fatal = false) (hs : SameTokens a b) :
    (s.run b).2 = (s.run a).2 ∧
    (s.run b).1.reporter.hadError = (s.run a).1.reporter.hadError ∧
    (s.run b).1.reporter.hadRuntimeError = (s.run a).1.reporter.hadRuntimeError ∧
    (s.run b).1.interpreter.machine.output = (s.run a).1.interpreter.machine.output ∧
    Interpreter.SameButLines (s.run a).1.interpreter (s.run b).1.interpreter ∧
    List.Forall₂ Diagnostic.SameButLine (staticErrors a) (staticErrors b) ∧
    (∃ lines lines', (s.run a).1.reporter.stream = Reporter.extended s.reporter.stream lines ∧
      (s.run b).1.reporter.stream = Reporter.extended s.reporter.stream lines' ∧
      List.Forall₂ s.reporter.SameReport lines lines') ∧
    ∀ later, ((s.run b).1.answerAll later).2 = ((s.run a).1.answerAll later).2 ∧
      Interpreter.SameButLines ((s.run a).1.answerAll later).1.interpreter
        ((s.run b).1.answerAll later).1.interpreter := by
  obtain ⟨after, ending, hadError, lines⟩ := run_like (twins_refl h) hs.readAlike
  refine ⟨ending, hadError rfl, after.hadRuntimeError, after.interpreter.machine.output,
    after.interpreter, hs.readAlike.staticErrors, lines, fun later => ?_⟩
  obtain ⟨last, endings⟩ := answerAll_like after later
  exact ⟨endings, last.interpreter⟩

/-- A use of a variable that is not there, in one line and in three. -/
theorem layout_decides_nothing_lines :
    let s := Session.start interactiveName false false fun _ => 0
    s.reporter.fatal = false ∧ SameTokens "a;" "\n a // a\n;" ∧
      (s.run "\n a // a\n;").1.reporter.hadRuntimeError = (s.run "a;").1.reporter.hadRuntimeError ∧
      Interpreter.SameButLines (s.run "a;").1.interpreter (s.run "\n a // a\n;").1.interpreter := by
  intro s
  have left : (scan "a;").tokens =
    [⟨.identifier, "a", none, 1⟩, ⟨.semicolon, ";", none, 1⟩, .eof 1] := rfl
  have right : (scan "\n a // a\n;").tokens =
    [⟨.identifier, "a", none, 2⟩, ⟨.semicolon, ";", none, 3⟩, .eof 3] := rfl
  have hs : SameTokens "a;" "\n a // a\n;" := by
    refine ⟨by decide +kernel, by decide +kernel, ?_⟩
    rw [left, right]
    exact .cons ⟨rfl, rfl, rfl⟩ (.cons ⟨rfl, rfl, rfl⟩ (.cons ⟨rfl, rfl, rfl⟩ .nil))
  obtain ⟨-, -, failed, -, interpreter, -⟩ := layout_decides_nothing (s := s) rfl hs
  exact ⟨rfl, hs, failed, interpreter⟩

end Session

end Lox
