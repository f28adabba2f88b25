import Lox.Proofs.Recovery.Dropping

/-! # A syntax error is the only thing that is lost

What stands in front of a statement that cannot be read, and what stands behind the semicolon
that closes it, is read as if it were not there. -/

namespace Lox

/-- Tokens in which at most one statement begins, and in which none comes to an end. -/
structure Fragment (ts : List Token) : Prop where
  plain : ∀ t ∈ ts, t.kind ≠ .semicolon ∧ t.kind ≠ .leftBrace ∧ t.kind ≠ .rightBrace
  single : ∀ t ∈ ts.tail, Parse.startsStatement t.kind = false

open Parse (Run Trial Drops startsStatement)

theorem Fragment.trial {ts : List Token} (h : Fragment ts) (close : Token)
    (hf : close.kind = .semicolon → ∀ t ∈ ts, t.kind ≠ .kwFor) : Trial close (ts ++ [close]) := by
  have run : ∀ us : List Token, (∀ t ∈ us, t.kind.IsInner) → Run close (us ++ [close]) := by
    intro us inner
    induction us with
    | nil => exact .last
    | cons t us ih =>
      obtain ⟨ht, inner⟩ := List.forall_mem_cons.mp inner
      exact .cons ht (ih inner)
  cases ts with
  | nil => exact .plain (run [] nofun)
  | cons t ts =>
    have inner : ∀ u ∈ ts, u.kind.IsInner := fun u m =>
      have plain := h.plain u (List.mem_cons_of_mem t m)
      ⟨plain.1, plain.2.1, plain.2.2, h.single u m⟩
    cases ht : startsStatement t.kind with
    | true => exact .keyword ht (fun e => hf e t List.mem_cons_self) (run ts inner)
    | false =>
      have plain := h.plain t List.mem_cons_self
      exact .plain (.cons ⟨plain.1, plain.2.1, plain.2.2, ht⟩ (run ts inner))

namespace Parse

variable {close : Token} {us vs : List Token} {ss qs : List (Stmt Unit)} {errors : List SyntaxError}

theorem resumeAfter_semicolon (h : close.kind = .semicolon) (ts : List Token) : resumeAfter close ts = ts := by
  cases ts with
  | nil => rfl
  | cons t ts => rw [resumeAfter, if_pos (by simp [h])]

/-- The body of a block in which a statement is dropped. -/
theorem block_drops (row : Row (Stmt.Writes true) ss us) (row' : Row (Stmt.Writes true) qs vs) {ts : List Token}
    (h : Drops close ts errors) (hc : close.kind = .semicolon) (apart : Ahead (fun k => k ≠ .rightBrace ∧ k ≠ .kwElse) ts)
    {bound : List Token} (long : (us ++ (ts ++ vs)).length ≤ bound.length) {r : Token} (hr : r.kind = .rightBrace)
    (rest : List Token) : block (innerWithin bound) (us ++ (ts ++ (vs ++ r :: rest))) = ⟨some (ss ++ qs), rest, errors⟩ := by
  simp only [List.length_append] at long
  have dropped := h.declaration bound (by omega) (vs ++ r :: rest)
  rw [resumeAfter_semicolon hc] at dropped
  obtain ⟨bound', long', list⟩ := untilKind_drops .rightBrace (innerWithin_restores bound) rfl row (by omega) dropped
    h.ne_nil apart (Nat.le_refl _) (Nat.le_refl _)
  have others := untilKind_restores .rightBrace (innerWithin_restores bound) (fun _ _ h => Declares.starts h)
    (fun k => by cases k <;> decide) (by decide) rfl (Declares.row row') bound' (r :: rest) (by omega)
    (by simp only [List.length_append] at long'; omega) (ahead_cons.mpr hr)
  rw [others] at list
  have items : bounded (untilKind .rightBrace (innerWithin bound).declaration) (us ++ (ts ++ (vs ++ r :: rest))) =
      ⟨some (ss.map some ++ none :: qs.map some), r :: rest, errors⟩ := by
    refine list.trans ?_
    simp [Reply.map, Reply.reporting]
  rw [block, bind_reporting items, bind_reply (expect_reply _ hr)]
  simp [Reply.reporting, pure]

/-- A body behind its heading, in front of the rest of a program. -/
theorem program_heading {make : List (Stmt Unit) → Stmt Unit} {head : List Token}
    (body rest : List Token) (h : Heading make head) (read : ∀ bound : List Token, body.length + rest.length ≤ bound.length →
      block (innerWithin bound) (body ++ rest) = ⟨some ss, rest, errors⟩) :
    program (head ++ (body ++ rest)) = ((program rest).map (some (make ss) :: ·)).reporting errors := by
  have inside := h.inside
  have reads := h.reads
  obtain ⟨t, head, rfl⟩ := List.exists_cons_of_ne_nil h.ne_nil
  refine program_cons (inside t List.mem_cons_self) ?_
  change recover (core (innerWithin (head ++ (body ++ rest)))) (t :: head ++ (body ++ rest)) = _
  have whole := read (head ++ (body ++ rest)) (by simp only [List.length_append]; omega)
  simp only [recover, reads, whole, Reply.map, Option.map_some]

end Parse

open Parse (program Heading)

section Isolation

variable {P Q M R : List Token} {last s : Token}

theorem parse_program (h : Inside P) (hl : last.kind = .eof) :
    (parse (P ++ [last])).statements = ((program P).value.getD []).filterMap id ∧
      (parse (P ++ [last])).errors = (program P).errors := by
  rw [parse_body h hl]
  exact ⟨rfl, rfl⟩

/-- What has been read in front, with the problems that have been met there. -/
theorem parse_reporting (front : List (Option (Stmt Unit))) {errors : List SyntaxError} (hl : last.kind = .eof)
    (hP : Inside P) (hQ : Inside Q) (h : program P = ((program Q).map (front ++ ·)).reporting errors) :
    (parse (P ++ [last])).statements = front.filterMap id ++ (parse (Q ++ [last])).statements ∧
      (parse (P ++ [last])).errors = errors ++ (parse (Q ++ [last])).errors := by
  obtain ⟨os, hos⟩ := Option.isSome_iff_exists.mp (Parse.program_isSome Q)
  rw [(parse_program hP hl).1, (parse_program hP hl).2, (parse_program hQ hl).1, (parse_program hQ hl).2, h]
  simp [Reply.reporting, Reply.map, hos]

theorem parse_behind (hl : last.kind = .eof) (hP : Inside P) (hQ : Inside Q)
    (quiet : (parse (P ++ [last])).errors = []) (follows : ∀ t ∈ Q.head?, t.kind ≠ .kwElse) :
    (parse (P ++ Q ++ [last])).statements = (parse (P ++ [last])).statements ++ (parse (Q ++ [last])).statements ∧
      (parse (P ++ Q ++ [last])).errors = (parse (Q ++ [last])).errors := by
  have row := parse_quiet hP hl quiet
  have behind : program (P ++ Q) =
      ((program Q).map ((parse (P ++ [last])).statements.map some ++ ·)).reporting [] := Parse.program_behind row follows
  have whole := parse_reporting _ hl (hP.append hQ) hQ behind
  simpa using whole

/-- Tokens that come to no statement are given up with the same problems everywhere. -/
theorem Fragment.drops (h : Fragment M) (hM : Inside M) (hl : last.kind = .eof) (hs : s.kind = .semicolon)
    (noFor : ∀ t ∈ M, t.kind ≠ .kwFor) (nothing : (parse (M ++ [s] ++ [last])).statements = []) :
    Drops s (M ++ [s]) (parse (M ++ [s] ++ [last])).errors := by
  have inside : Inside (M ++ [s]) := hM.append (.cons hs .nil)
  have head : Parse.Ahead (· ≠ .eof) (M ++ [s]) := fun t m => inside t (List.mem_of_mem_head? m)
  have trial := h.trial s fun _ => noFor
  have isClose : Parse.IsClose s.kind := .inl hs
  obtain ⟨errors, drops⟩ := trial.drops isClose fun _ =>
    trial.nothing isClose head ((parse_program inside hl).1.symm.trans nothing)
  rw [(parse_program inside hl).2, drops.alone head]
  exact drops

/-- Between statements, tokens that are dropped leave their problems only. -/
theorem parse_dropped {D : List Token} {errors : List SyntaxError} (drops : Drops s D errors) (hs : s.kind = .semicolon)
    (hD : Inside D) (apart : Parse.Ahead (· ≠ .kwElse) D) (hP : Inside P) (hQ : Inside Q) (hl : last.kind = .eof)
    (quiet : (parse (P ++ [last])).errors = []) :
    (parse (P ++ (D ++ Q) ++ [last])).statements =
        (parse (P ++ [last])).statements ++ (parse (Q ++ [last])).statements ∧
      (parse (P ++ (D ++ Q) ++ [last])).errors = errors ++ (parse (Q ++ [last])).errors := by
  have dropped := drops.program (fun t m => hD t (List.mem_of_mem_head? m)) Q
  rw [Parse.resumeAfter_semicolon hs] at dropped
  have follows : Parse.Ahead (· ≠ .kwElse) (D ++ Q) := by
    obtain ⟨t, ts, rfl⟩ := List.exists_cons_of_ne_nil drops.ne_nil
    exact Parse.ahead_cons.mpr (Parse.ahead_cons.mp apart)
  obtain ⟨front, frontErrors⟩ := parse_behind hl hP (hD.append hQ) quiet follows
  obtain ⟨back, backErrors⟩ := parse_reporting [none] hl (hD.append hQ) hQ dropped
  exact ⟨front.trans (congrArg _ back), frontErrors.trans backErrors⟩

/-- A body behind its heading is one statement of the program. -/
theorem parse_heading {make : List (Stmt Unit) → Stmt Unit} {head body : List Token} {ss : List (Stmt Unit)}
    {errors : List SyntaxError} (heading : Heading make head) (hl : last.kind = .eof) (hB : Inside body) (hR : Inside R)
    (read : ∀ bound : List Token, body.length + R.length ≤ bound.length →
      Parse.block (Parse.innerWithin bound) (body ++ R) = ⟨some ss, R, errors⟩) :
    (parse (head ++ (body ++ R) ++ [last])).statements = make ss :: (parse (R ++ [last])).statements ∧
      (parse (head ++ (body ++ R) ++ [last])).errors = errors ++ (parse (R ++ [last])).errors :=
  parse_reporting [some (make ss)] hl (heading.inside.append (hB.append hR)) hR
    (Parse.program_heading body R heading read)

/-- Statements in front are read, and so is what follows. The same holds on both sides of tokens
that come to no statement, up to a semicolon, and the problems in these are reported. It
holds in a body as well, wherever one is read, if there are no problems behind. -/
theorem syntax_errors_are_isolated (hP : Inside P) (hQ : Inside Q) (hl : last.kind = .eof)
    (quiet : (parse (P ++ [last])).errors = []) (follows : ∀ t ∈ Q.head?, t.kind ≠ .kwElse) :
    let statements (ts : List Token) := (parse (ts ++ [last])).statements
    let errors (ts : List Token) := (parse (ts ++ [last])).errors
    (statements (P ++ Q) = statements P ++ statements Q ∧ errors (P ++ Q) = errors Q) ∧
    ∀ (M : List Token) (s : Token), Inside M → Fragment M → (∀ t ∈ M, t.kind ≠ .kwFor) →
      (∀ t ∈ M.head?, t.kind ≠ .kwElse) → s.kind = .semicolon → statements (M ++ [s]) = [] →
      (statements (P ++ M ++ [s] ++ Q) = statements P ++ statements Q ∧
        errors (P ++ M ++ [s] ++ Q) = errors (M ++ [s]) ++ errors Q) ∧
      (errors Q = [] → ∀ (r : Token) (R : List Token), r.kind = .rightBrace → Inside R →
        (∀ make head, Heading make head →
          statements (head ++ (P ++ M ++ [s] ++ Q) ++ [r] ++ R) = make (statements P ++ statements Q) :: statements R ∧
          errors (head ++ (P ++ M ++ [s] ++ Q) ++ [r] ++ R) = errors (M ++ [s]) ++ errors R) ∧
        ∀ bound : List Token, (P ++ M ++ [s] ++ Q).length ≤ bound.length →
          Parse.block (Parse.innerWithin bound) (P ++ M ++ [s] ++ Q ++ [r] ++ R) =
            ⟨some (statements P ++ statements Q), R, errors (M ++ [s])⟩) := by
  intro statements errors
  refine ⟨parse_behind hl hP hQ quiet follows, fun M s hM fragment noFor noElse hs nothing => ?_⟩
  have inside : Inside (M ++ [s]) := hM.append (.cons hs .nil)
  have drops := fragment.drops hM hl hs noFor nothing
  have ahead : Parse.Ahead (fun k => k ≠ .rightBrace ∧ k ≠ .kwElse) (M ++ [s]) := by
    cases M with
    | nil => exact Parse.ahead_cons.mpr (by rw [hs]; decide)
    | cons t M => exact Parse.ahead_cons.mpr ⟨(fragment.plain t List.mem_cons_self).2.2, noElse t rfl⟩
  constructor
  · rw [show P ++ M ++ [s] ++ Q = P ++ (M ++ [s] ++ Q) by simp]
    exact parse_dropped drops hs inside (ahead.mono fun _ h => h.2) hP hQ hl quiet
  · intro quiet' r R hr hR
    have read (bound : List Token) (long : (P ++ M ++ [s] ++ Q).length ≤ bound.length) :
        Parse.block (Parse.innerWithin bound) (P ++ M ++ [s] ++ Q ++ [r] ++ R) =
          ⟨some (statements P ++ statements Q), R, errors (M ++ [s])⟩ := by
      have body := Parse.block_drops (parse_quiet hP hl quiet) (parse_quiet hQ hl quiet') drops hs ahead
        (by simpa using long) hr R
      rw [show P ++ M ++ [s] ++ Q ++ [r] ++ R = P ++ (M ++ [s] ++ (Q ++ r :: R)) by simp]
      exact body
    refine ⟨fun make head heading => ?_, read⟩
    have insideBody : Inside (P ++ M ++ [s] ++ Q ++ [r]) :=
      (((hP.append hM).append (.cons hs .nil)).append hQ).append (.cons hr .nil)
    rw [show head ++ (P ++ M ++ [s] ++ Q) ++ [r] ++ R = head ++ (P ++ M ++ [s] ++ Q ++ [r] ++ R) by simp]
    refine parse_heading heading hl insideBody hR fun bound long => read bound ?_
    simp only [List.length_append] at long ⊢
    omega

/-- A condition that is not closed, between two statements. -/
theorem syntax_errors_are_isolated_condition :
    let body (source : String) := (scan source).tokens.dropLast
    let P := body "if (a) print 1;"
    let M := body "while (a b"
    let Q := body "print 2;"
    let s : Token := .plain .semicolon
    let statements (ts : List Token) := (parse (ts ++ [.eof 1])).statements
    let errors (ts : List Token) := (parse (ts ++ [.eof 1])).errors
    statements (M ++ [s]) = [] ∧ statements (P ++ M ++ [s] ++ Q) = statements P ++ statements Q ∧
      errors (P ++ M ++ [s] ++ Q) = errors (M ++ [s]) ++ errors Q := by
  intro body P M Q s statements errors
  have hP : Inside P := by
    unfold Inside
    decide +kernel
  have hQ : Inside Q := by
    unfold Inside
    decide +kernel
  have hM : Inside M := by
    unfold Inside
    decide +kernel
  have quiet : errors P = [] := List.isEmpty_iff.mp (by decide +kernel)
  have nothing : statements (M ++ [s]) = [] := List.isEmpty_iff.mp (by decide +kernel)
  have isolated := (syntax_errors_are_isolated hP hQ (show (Token.eof 1).kind = .eof from rfl) quiet (by decide +kernel)).2 M s hM
    ⟨by decide +kernel, by decide +kernel⟩ (by decide +kernel) (by decide +kernel) rfl nothing
  exact ⟨nothing, isolated.1⟩

end Isolation

end Lox
