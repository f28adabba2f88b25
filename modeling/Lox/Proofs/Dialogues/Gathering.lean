import Lox.Proofs.Dialogues.Commands
import Lox.Proofs.Refusals

/-! # Lines that are gathered to units

Between two lines a dialogue waits for a brace to be closed, or for nothing. No line is
lost, and no unit sees the flags of another one. -/

namespace Lox

namespace Session

variable {s : Session}

/-- After a reset the flags of a session are those of its next unit. -/
theorem run_reset_flags (h : s.reporter.fatal = false) (source : String) :
    (s.reset.run source).1.reporter.hadError = (s.stack.holds source && !(staticErrors source).isEmpty) ∧
      (s.reset.run source).1.reporter.hadRuntimeError = (s.stack.holds source &&
        (staticErrors source).isEmpty && (s.interpreter.perform source).2.isSome) := by
  cases held : s.stack.holds source with
  | false =>
    rw [run_dropped_eq (s := s.reset) h held]
    exact ⟨rfl, rfl⟩
  | true =>
    by_cases he : staticErrors source = []
    · rw [run_accepted_eq (s := s.reset) h held he, he]
      dsimp only
      rw [Reporter.closing_isEmpty, Option.not_isNone, show s.reset.interpreter = s.interpreter from rfl]
      generalize s.interpreter.perform source = ran
      exact ⟨rfl, Bool.false_or _⟩
    · have refuses := run_refuses (s := s.reset) h held he
      rw [refuses.hadError, refuses.hadRuntimeError, List.isEmpty_eq_false_iff.mpr he]
      exact ⟨rfl, rfl⟩

end Session

namespace Dialogue

open Command (stripped IsSource)

variable {d : Dialogue} {result : Dialogue × Reaction}

/-- What is gathered is not complete, and the prompt tells whether anything is. -/
structure Waits (d : Dialogue) : Prop where
  pending : d.pending = "" ∨ isComplete d.pending = false
  prompt : d.prompt = .continuation ↔ d.pending ≠ ""

theorem gathered_ne_empty (d : Dialogue) (line : String) : d.gathered line ≠ "" := by
  intro h
  have size := congrArg String.length h
  simp [gathered] at size

theorem Waits.start (session : Session) : (start session).Waits where
  pending := .inl rfl
  prompt := iff_of_false Prompt.noConfusion fun h => h rfl

theorem Takes.waits {line : String} (h : d.Takes line result) : result.1.Waits := by
  cases h with
  | held open_ => exact ⟨.inr open_, iff_of_true rfl (d.gathered_ne_empty line)⟩
  | run _ => exact ⟨.inl rfl, by simp⟩

theorem Waits.line (h : d.Waits) (text : String) : (d.line text).1.Waits := by
  cases asked : d.sourceOf? (.ofLine text) with
  | none =>
    have idles := line_idles asked
    exact ⟨by rw [idles.pending]; exact h.pending, by rw [idles.prompt, idles.pending]; exact h.prompt⟩
  | some line => exact (line_takes asked).waits

/-- The dialogue after some lines, also if one of them has ended its run. -/
def after (d : Dialogue) (lines : List String) : Dialogue := lines.foldl (fun d text => (d.line text).1) d

theorem Waits.after (h : d.Waits) (lines : List String) : (d.after lines).Waits := by
  induction lines generalizing d with
  | nil => exact h
  | cons text rest ih => exact ih (h.line text)

/-- The unit that a line completes. -/
def unit? (d : Dialogue) (text : String) : Option String :=
  ((d.sourceOf? (.ofLine text)).map d.gathered).filter isComplete

def units (d : Dialogue) : List String → List String
  | [] => []
  | text :: rest => (d.unit? text).toList ++ (d.line text).1.units rest

/-- What a session is asked for: a reset and then the run of a unit, for each of them. -/
def requests (units : List String) : List Request := units.flatMap fun source => [.reset, .run source]

theorem answerAll_requests (session : Session) (source : String) :
    (session.answerAll (requests [source])).1 = (session.reset.run source).1 := by
  rw [requests, List.flatMap_singleton, Session.answerAll, Session.answerAll_run, Session.answerAll]

/-- What a line adds to what is gathered. -/
def added (d : Dialogue) (text : String) : String := ((d.sourceOf? (.ofLine text)).map (· ++ "\n")).getD ""

def additions (d : Dialogue) : List String → List String
  | [] => []
  | text :: rest => d.added text :: (d.line text).1.additions rest

/-- The line completes a unit, which is run after a reset. Its flags are those of this unit, and
there are none if the stack does not hold it. -/
structure Completes (d : Dialogue) (text source : String) : Prop where
  session : (d.line text).1.session = (d.session.reset.run source).1
  pending : (d.line text).1.pending = ""
  reaction : (d.line text).2 = (d.session.reset.run source).2.reaction
  hadError : (d.line text).1.session.reporter.hadError =
    (d.session.stack.holds source && !(staticErrors source).isEmpty)
  hadRuntimeError : (d.line text).1.session.reporter.hadRuntimeError = (d.session.stack.holds source &&
    (staticErrors source).isEmpty && (d.session.interpreter.perform source).2.isSome)

theorem unit?_eq {text line : String} (asked : d.sourceOf? (.ofLine text) = some line) :
    d.unit? text = if isComplete (d.gathered line) then some (d.gathered line) else none := by
  rw [unit?, asked, Option.map_some, Option.filter_some]

theorem line_unfinished {text : String} (h : d.unit? text = none) :
    (d.line text).1.session = d.session ∧ (d.line text).1.pending = d.pending ++ d.added text := by
  cases asked : d.sourceOf? (.ofLine text) with
  | none =>
    have idles := line_idles asked
    rw [added, asked]
    exact ⟨idles.session, idles.pending.trans String.append_empty.symm⟩
  | some line =>
    have takes := line_takes asked
    rw [unit?_eq asked] at h
    rw [added, asked]
    generalize d.line text = result at takes ⊢
    cases takes with
    | held _ => exact ⟨rfl, String.append_assoc⟩
    | run complete => rw [if_pos complete] at h; cases h

theorem line_completes (fatal : d.session.reporter.fatal = false) {text source : String}
    (h : d.unit? text = some source) : d.Completes text source ∧ source = d.pending ++ d.added text := by
  cases asked : d.sourceOf? (.ofLine text) with
  | none => rw [unit?, asked] at h; cases h
  | some line =>
    rw [unit?_eq asked] at h
    obtain ⟨complete, e⟩ := Option.ite_none_right_eq_some.mp h
    obtain rfl := Option.some.inj e
    have same := (line_takes asked).eq_run complete
    obtain ⟨error, runtime⟩ := Session.run_reset_flags fatal (d.gathered line)
    rw [added, asked]
    refine ⟨⟨?session, ?pending, ?reaction, ?hadError, ?hadRuntimeError⟩, String.append_assoc⟩ <;> rw [same]
    case hadError => dsimp only; rw [error]
    case hadRuntimeError => dsimp only; rw [runtime]

theorem line_session (fatal : d.session.reporter.fatal = false) (text : String) :
    (d.line text).1.session = (d.session.answerAll (requests (d.unit? text).toList)).1 := by
  cases unit : d.unit? text with
  | none => exact (line_unfinished unit).1
  | some source => rw [(line_completes fatal unit).1.session, Option.toList_some, answerAll_requests]

theorem line_keeps (fatal : d.session.reporter.fatal = false) (text : String) :
    (d.unit? text).getD "" ++ (d.line text).1.pending = d.pending ++ d.added text := by
  cases unit : d.unit? text with
  | none => exact String.empty_append.trans (line_unfinished unit).2
  | some source =>
    obtain ⟨completes, rfl⟩ := line_completes fatal unit
    rw [completes.pending]
    exact String.append_empty

/-- A session that a dialogue has come by remains one that can be reached. -/
theorem line_reachable (h : d.session.Reachable) (text : String) : (d.line text).1.session.Reachable := by
  rw [line_session h.fatal]
  exact h.answerAll _

theorem after_session (h : d.session.Reachable) (lines : List String) :
    (d.after lines).session.Reachable ∧
      (d.after lines).session = (d.session.answerAll (requests (d.units lines))).1 := by
  induction lines generalizing d with
  | nil => exact ⟨h, rfl⟩
  | cons text rest ih =>
    obtain ⟨reachable, session⟩ := ih (line_reachable h text)
    refine ⟨reachable, session.trans ?_⟩
    rw [line_session h.fatal, ← Session.answerAll_append, units, requests, requests, requests, List.flatMap_append]

/-- Units and what waits for its end are together what has been added. -/
theorem after_keeps (h : d.session.Reachable) (lines : List String) :
    String.join (d.units lines) ++ (d.after lines).pending = d.pending ++ String.join (d.additions lines) := by
  induction lines generalizing d with
  | nil => rw [units, additions, String.join_nil, String.empty_append, String.append_empty]; rfl
  | cons text rest ih =>
    have first : String.join (d.unit? text).toList = (d.unit? text).getD "" := by
      cases d.unit? text with
      | none => rfl
      | some source => rw [Option.toList_some, String.join_cons, String.join_nil, String.append_empty]; rfl
    calc
      String.join (d.units (text :: rest)) ++ (d.after (text :: rest)).pending
      _ = (d.unit? text).getD "" ++ (String.join ((d.line text).1.units rest) ++
            ((d.line text).1.after rest).pending) := by
        rw [units, String.join_append, first, String.append_assoc]
        rfl
      _ = ((d.unit? text).getD "" ++ (d.line text).1.pending) ++
            String.join ((d.line text).1.additions rest) := by
        rw [ih (line_reachable h text), String.append_assoc]
      _ = d.pending ++ String.join (d.additions (text :: rest)) := by
        rw [line_keeps h.fatal, additions, String.join_cons, String.append_assoc]

/-- Lines of source are added as they are, but for the blanks around them. -/
theorem added_of_source {text : String} (h : stripped text = [] ∨ IsSource (stripped text)) :
    d.added text = match stripped text with
      | [] => ""
      | line => .ofList line ++ "\n" := by
  have asks := Command.ofLine_asks text
  rw [added]
  generalize stripped text = line at *
  generalize Command.ofLine text = c at *
  have word : Command.word line ∉ ["help", "exit", "EOF"] := by
    rcases h with rfl | own
    · decide
    · exact own.word
  cases asks with
  | nothing => rfl
  | source filled _ =>
    cases line with
    | nil => exact absurd rfl filled
    | cons _ _ => rfl
  | question rest =>
    rcases h with h | own
    · cases h
    · exact absurd rfl own.mark
  | help h | exit h | endOfInput h => exact absurd (by simp [h]) word

theorem additions_of_source {lines : List String}
    (h : ∀ text ∈ lines, stripped text = [] ∨ IsSource (stripped text)) (d : Dialogue) :
    String.join (d.additions lines) =
      String.join (((lines.map stripped).filter (!·.isEmpty)).map fun line => .ofList line ++ "\n") := by
  induction lines generalizing d with
  | nil => rfl
  | cons text rest ih =>
    obtain ⟨first, rest⟩ := List.forall_mem_cons.mp h
    rw [additions, String.join_cons, added_of_source first, ih rest, List.map_cons, List.filter_cons]
    cases stripped text with
    | nil => exact String.empty_append
    | cons _ _ => exact String.join_cons.symm

/-- Whatever has been typed in, a dialogue waits with an incomplete unit or with nothing. Each
line leaves the session alone or has a unit run that it completes, after a reset. If no
line begins with a word of the dialogue, the units and what waits are together the lines. -/
theorem lines_are_kept {session : Session} (h : session.Reachable) (lines : List String) :
    let d := (start session).after lines
    let units := (start session).units lines
    d.Waits ∧
    d.session = (session.answerAll (requests units)).1 ∧
    (∀ text, d.unit? text = none → (d.line text).1.session = d.session) ∧
    (∀ text source, d.unit? text = some source → d.Completes text source) ∧
    ((∀ text ∈ lines, stripped text = [] ∨ IsSource (stripped text)) →
      String.join units ++ d.pending =
        String.join (((lines.map stripped).filter (!·.isEmpty)).map fun line => .ofList line ++ "\n")) := by
  intro d units
  obtain ⟨reachable, asked⟩ := after_session (d := start session) h lines
  refine ⟨(Waits.start session).after lines, asked, fun text none => (line_unfinished none).1,
    fun text source some => (line_completes reachable.fatal some).1, fun own => ?_⟩
  exact (after_keeps (d := start session) h lines).trans
    (String.empty_append.trans (additions_of_source own _))

/-- A block is typed in over three lines, with an empty one before its end. -/
theorem lines_are_kept_block :
    let session := Session.startOn (.ofLimits ⟨4, 4⟩) Session.interactiveName false false fun _ => 0
    let lines := ["\x7b", " print 1; ", "", "\x7d"]
    session.Reachable ∧ (∀ text ∈ lines, stripped text = [] ∨ IsSource (stripped text)) ∧
      String.join ((start session).units lines) ++ ((start session).after lines).pending =
        "\x7b\nprint 1;\n\x7d\n" := by
  intro session lines
  have reachable : session.Reachable := .start _ _ _ _ _
  have own : ∀ text ∈ lines, stripped text = [] ∨ IsSource (stripped text) := by
    intro text m
    have marked : (stripped text).isEmpty = true ∨
        (stripped text).head? ≠ some '?' ∧ Command.word (stripped text) ∉ ["help", "exit", "EOF"] := by
      revert text
      decide +kernel
    exact marked.imp List.isEmpty_iff.mp fun ⟨mark, word⟩ => ⟨mark, word⟩
  refine ⟨reachable, own, ?_⟩
  rw [(lines_are_kept reachable lines).2.2.2.2 own]
  decide +kernel

end Dialogue

end Lox
