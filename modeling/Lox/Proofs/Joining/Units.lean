import Lox.Proofs.Joining.Runs
import Lox.Proofs.Likeness.Layout

/-! # Units that are joined

Two sources that are run one after the other do the same as one source in which the
second stands behind the first, but that its tokens are on lines further down. -/

namespace Lox

/-- Tokens that are equal, or that are a token of a source and the same token that many
lines further down. -/
def Token.LoweredIn (source : String) (k : Nat) (t u : Token) : Prop :=
  u = t ∨ t ∈ (scan source).tokens ∧ u = t.lowered k

theorem Token.LoweredIn.sameText {source : String} {k : Nat} (t u : Token) (h : t.LoweredIn source k u) :
    t.SameText u := by
  rcases h with rfl | ⟨-, rfl⟩
  · exact .refl _
  · exact ⟨rfl, rfl, rfl⟩

/-- Two sources without static errors, the first of which leaves no comment open. -/
structure Joinable (a b : String) : Prop where
  first : staticErrors a = []
  second : staticErrors b = []
  closed : endsInComment a = false

/-- The second of two sources, on the lines on which it is in both together. -/
def below (a b : String) : String := underLines (lineBreaks a) b

namespace Joinable

variable {a b : String} (h : Joinable a b)
include h

theorem scan_joint : scan (a ++ "\n" ++ b) = (scan a).followedBy (scan (below a b)) :=
  scan_joined (by simp [((staticErrors_eq_nil_iff a).mp h.first).1]) h.closed

omit h in
theorem tokens (a b : String) :
    List.Forall₂ (Token.LoweredIn b (lineBreaks a)) (scan b).tokens (scan (below a b)).tokens := by
  rw [below, scan_underLines, Scan.lowered, List.forall₂_map_right_iff]
  exact List.forall₂_same.mpr fun t m => .inr ⟨m, rfl⟩

theorem sameTokens : SameTokens b (below a b) where
  left := ((staticErrors_eq_nil_iff b).mp h.second).1
  right := by
    rw [below, scan_underLines, Scan.lowered, ((staticErrors_eq_nil_iff b).mp h.second).1]
    rfl
  tokens := (tokens a b).imp Token.LoweredIn.sameText

theorem staticErrors_below : staticErrors (below a b) = [] := by
  have same := h.sameTokens.readAlike.staticErrors
  rw [h.second] at same
  exact List.forall₂_nil_left_iff.mp same

theorem statements : (parse (scan (a ++ "\n" ++ b)).tokens).statements =
    (parse (scan a).tokens).statements ++ (parse (scan (below a b)).tokens).statements := by
  rw [h.scan_joint]
  exact (parse_followedBy ((staticErrors_eq_nil_iff a).mp h.first).2.1
    ((staticErrors_eq_nil_iff _).mp h.staticErrors_below).2.1).1

theorem staticErrors_joint : staticErrors (a ++ "\n" ++ b) = [] := by
  obtain ⟨scanA, parseA, resolveA⟩ := (staticErrors_eq_nil_iff a).mp h.first
  obtain ⟨scanB, parseB, resolveB⟩ := (staticErrors_eq_nil_iff _).mp h.staticErrors_below
  refine (staticErrors_eq_nil_iff _).mpr ⟨?scanning, ?parsing, ?resolving⟩
  case scanning => rw [h.scan_joint, Scan.followedBy, scanA, scanB, List.append_nil]
  case parsing => rw [h.scan_joint]; exact (parse_followedBy parseA parseB).2
  case resolving =>
    have wellFormed : Stmt.AllWellFormed (fun _ => True) (parse (scan a).tokens).statements :=
      parse_wellFormed fun _ _ => trivial
    unfold resolution at resolveA resolveB ⊢
    rw [h.statements]
    generalize (parse (scan a).tokens).statements = p at *
    generalize (parse (scan (below a b)).tokens).statements = q at *
    rw [Stmt.numberAll_append]
    obtain ⟨-, -, -, errors⟩ := resolve_append (T := Eq) (M := Eq) Token.sameText_of_eq
      (Stmt.numberAll_wellFormed p 0 wellFormed) resolveA
      (Stmt.allLike_same (Stmt.numberAll q (Stmt.numberAll p 0).2).1)
    rw [(resolve_number q _).1, resolveB] at errors
    exact List.forall₂_nil_left_iff.mp errors

end Joinable

namespace Session

/-- A session that is given one source does what it does when it is given two others one after
the other, up to related tokens. What is reported differs in the lines of those and in the
notes on internals, which are made for each unit. -/
structure Joins (T : Token → Token → Prop) (s : Session) (first second joint : String) : Prop where
  ending : (s.run joint).2 = ((s.run first).1.run second).2
  hadError : (s.run joint).1.reporter.hadError = ((s.run first).1.run second).1.reporter.hadError
  hadRuntimeError : (s.run joint).1.reporter.hadRuntimeError =
    ((s.run first).1.run second).1.reporter.hadRuntimeError
  output : (s.run joint).1.interpreter.machine.output =
    ((s.run first).1.run second).1.interpreter.machine.output
  globals : (s.run joint).1.interpreter.globals = ((s.run first).1.run second).1.interpreter.globals
  interpreter : Interpreter.Like T Eq Eq ((s.run first).1.run second).1.interpreter
    (s.run joint).1.interpreter
  fault : Option.Rel (Fault.Like T) ((s.run first).1.interpreter.perform second).2
    (s.interpreter.perform joint).2
  reports : ∃ notes notes',
    ((s.run first).1.run second).1.reporter.stream = Reporter.extended s.reporter.stream
      (s.listed notes ++ s.reporter.closing (((s.run first).1.interpreter.perform second).2.map (·.raised))) ∧
    (s.run joint).1.reporter.stream = Reporter.extended s.reporter.stream
      (s.listed notes' ++ s.reporter.closing ((s.interpreter.perform joint).2.map (·.raised)))

variable {s : Session} {a b : String}

/-- What has become of a session that has run a unit, after notes on internals. -/
structure Ran (s : Session) (ran : Interpreter × Option Fault) (notes : List String)
    (result : Session × Ending) : Prop where
  verbose : result.1.verbose = s.verbose
  paint : result.1.reporter.paint = s.reporter.paint
  fatal : result.1.reporter.fatal = false
  stack : result.1.stack = s.stack
  ending : result.2 = Raised.ending (ran.2.map (·.raised))
  interpreter : result.1.interpreter = ran.1.takeEvents.2
  hadError : result.1.reporter.hadError = s.reporter.hadError
  hadRuntimeError : result.1.reporter.hadRuntimeError =
    (s.reporter.hadRuntimeError || !(s.reporter.closing (ran.2.map (·.raised))).isEmpty)
  stream : result.1.reporter.stream = Reporter.extended s.reporter.stream
    (s.listed notes ++ s.reporter.closing (ran.2.map (·.raised)))

theorem run_ran (h : s.reporter.fatal = false) (held : s.stack.holds a = true) (he : staticErrors a = []) :
    ∃ notes, s.Ran (s.interpreter.perform a) notes (s.run a) := by
  rw [run_accepted_eq h held he]
  unfold account
  dsimp only
  generalize s.interpreter.perform a = ran
  exact ⟨_, rfl, rfl, h, rfl, rfl, rfl, rfl, rfl, rfl⟩

theorem joins_of {T : Token → Token → Prop} (hT : ∀ t u, T t u → t.SameText u) (refl : ∀ t, T t t)
    (hs : s.Reachable) {joint : String} {program : List (Stmt Unit)}
    (held : s.stack.holds a = true) (heldB : s.stack.holds b = true) (heldJ : s.stack.holds joint = true)
    (ha : staticErrors a = [])
    (hb : staticErrors b = []) (hj : staticErrors joint = [])
    (statements : (parse (scan joint).tokens).statements = (parse (scan a).tokens).statements ++ program)
    (like : List.Forall₂ (Stmt.Like T Eq) (parse (scan b).tokens).statements program)
    (ran : (s.interpreter.perform a).2 = none) : s.Joins T a b joint := by
  have calm := hs.fatal
  obtain ⟨after, fault⟩ := hs.idle.perform_joined hT refl statements like
    ((staticErrors_eq_nil_iff a).mp ha).2.2 ran
  have interpreter := after.takeEvents (F := Eq) fun _ _ h => h.forgotten.symm
  obtain ⟨early, first⟩ := run_ran calm held ha
  obtain ⟨late, second⟩ := run_ran first.fatal (first.stack ▸ heldB) hb
  obtain ⟨notes, whole⟩ := run_ran calm heldJ hj
  rw [← first.interpreter] at fault interpreter
  rw [← second.interpreter, ← whole.interpreter] at interpreter
  obtain ⟨closing, ending⟩ := s.reporter.closing_like hT fault
  have quiet : s.reporter.closing ((s.interpreter.perform a).2.map (·.raised)) = [] := by rw [ran]; rfl
  have stream := first.stream
  have flag := first.hadRuntimeError
  rw [quiet, List.append_nil] at stream
  rw [quiet, List.isEmpty_nil, Bool.not_true, Bool.or_false] at flag
  constructor
  case ending => rw [whole.ending, second.ending, ending]
  case hadError => rw [whole.hadError, second.hadError, first.hadError]
  case hadRuntimeError =>
    rw [whole.hadRuntimeError, second.hadRuntimeError, flag, Reporter.closing_congr first.paint, isEmpty_like closing]
  case output => exact interpreter.machine.output
  case globals => rw [Interpreter.globals, Interpreter.globals, interpreter.machine.scopes]
  case interpreter => exact interpreter
  case fault => exact fault
  case reports =>
    refine ⟨early ++ late, notes, ?_, whole.stream⟩
    rw [second.stream, stream, Reporter.closing_congr first.paint, listed_congr first.verbose, listed_append,
      List.append_assoc]
    exact List.foldl_append.symm

/-- Joined by a line break, two units are accepted if they are accepted one by one, and do the
same as the one and then the other, with the same names, values and reports. In the joint
unit the second one is on lines further down, and is run as on those lines. -/
theorem joined_units_agree (hs : s.Reachable) (h : Joinable a b) (ran : (s.interpreter.perform a).2 = none)
    (held : s.stack.holds a ∧ s.stack.holds b ∧ s.stack.holds (a ++ "\n" ++ b)) :
    staticErrors (a ++ "\n" ++ b) = [] ∧
    (scan (below a b)).tokens = (scan b).tokens.map (·.lowered (lineBreaks a)) ∧
    (scan (a ++ "\n" ++ b)).tokens = (scan a).tokens.dropLast ++ (scan (below a b)).tokens ∧
    s.Joins Eq a (below a b) (a ++ "\n" ++ b) ∧
    s.Joins (Token.LoweredIn b (lineBreaks a)) a b (a ++ "\n" ++ b) := by
  obtain ⟨holdsA, holdsB, holdsJoint⟩ := held
  have holdsBelow : s.stack.holds (below a b) := (h.sameTokens.readAlike.holds s.stack).trans holdsB
  refine ⟨h.staticErrors_joint, ?below, ?joint, ?exact, ?lowered⟩
  case below => rw [below, scan_underLines]; rfl
  case joint => rw [h.scan_joint]; rfl
  case exact =>
    exact joins_of Token.sameText_of_eq (fun _ => rfl) hs holdsA holdsBelow holdsJoint h.first
      h.staticErrors_below h.staticErrors_joint h.statements (Stmt.allLike_same _) ran
  case lowered =>
    exact joins_of Token.LoweredIn.sameText (fun _ => .inl rfl) hs holdsA holdsB holdsJoint h.first h.second
      h.staticErrors_joint h.statements (parse_like Token.LoweredIn.sameText (Joinable.tokens a b)).1 ran

/-- A unit that leaves an `if` without an `else`, and one that fails in its second line, which
is the third one of both together. -/
theorem joined_units_agree_failing :
    let s := Session.startOn (.ofLimits ⟨4, 4⟩) interactiveName false false fun _ => 0
    let first := "if (nil) {}"
    let second := "{}\ny;"
    s.Reachable ∧ Joinable first second ∧ (s.interpreter.perform first).2 = none ∧
      (s.stack.holds first ∧ s.stack.holds second ∧ s.stack.holds (first ++ "\n" ++ second)) ∧
      s.Joins Eq first (below first second) (first ++ "\n" ++ second) ∧
      s.Joins (Token.LoweredIn second (lineBreaks first)) first second (first ++ "\n" ++ second) := by
  intro s first second
  have reachable : s.Reachable := .start _ _ _ _ _
  have joinable : Joinable first second := by
    refine ⟨List.isEmpty_iff.mp ?_, List.isEmpty_iff.mp ?_, ?_⟩
    · decide +kernel
    · decide +kernel
    · decide +kernel
  have ran : (s.interpreter.perform first).2 = none := Option.isNone_iff_eq_none.mp (by decide +kernel)
  have held (source : String) : s.stack.holds source = true := Stack.ample_holds source
  obtain ⟨-, -, -, exact, lowered⟩ := joined_units_agree reachable joinable ran
    ⟨held _, held _, held _⟩
  exact ⟨reachable, joinable, ran, ⟨held _, held _, held _⟩, exact, lowered⟩

end Session

end Lox
