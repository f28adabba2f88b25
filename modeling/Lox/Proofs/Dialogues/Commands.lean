import Lox.Dialogue

/-! # What a line asks for, and what a dialogue does about it

A dialogue has a few words of its own. Every other line is source, and so are the lines
in which one of these words has an argument or stands in a continuation. -/

namespace Lox

namespace Command

/-- The characters of a line without the blanks around it. -/
def stripped (text : String) : List Char := Text.trim text.toList

/-- The word that a line begins with. -/
def word (line : List Char) : String := .ofList (line.takeWhile Piece.isWordChar)

/-- What follows the word that a line begins with. -/
def argument (line : List Char) : String := .ofList (Text.trim (line.dropWhile Piece.isWordChar))

/-- A line that begins with no word of the dialogue. -/
structure IsSource (line : List Char) : Prop where
  mark : line.head? ≠ some '?'
  word : word line ∉ ["help", "exit", "EOF"]

/-- What a line without blanks around it asks for. -/
inductive Asks : List Char → Command → Prop
  | nothing : Asks [] .nothing
  | source {line : List Char} (filled : line ≠ []) (own : IsSource line) : Asks line (.source (.ofList line))
  | question (rest : List Char) : Asks ('?' :: rest) (.help (.ofList (Text.trim rest)))
  | help {line : List Char} (h : word line = "help") : Asks line (.help (argument line))
  | exit {line : List Char} (h : word line = "exit") : Asks line (.exit (argument line))
  | endOfInput {line : List Char} (h : word line = "EOF") : Asks line .endOfInput

theorem ofWords_asks {line : List Char} (filled : line ≠ []) (mark : line.head? ≠ some '?') :
    Asks line (ofWords line) := by
  rw [ofWords, ← word, ← argument]
  split
  case isTrue h => exact .help (eq_of_beq h)
  case isFalse help =>
    split
    case isTrue h => exact .exit (eq_of_beq h)
    case isFalse exit =>
      split
      case isTrue h => exact .endOfInput (eq_of_beq h)
      case isFalse endOfInput =>
        refine .source filled ⟨mark, ?_⟩
        simp only [beq_iff_eq] at help exit endOfInput
        simp only [List.mem_cons, help, exit, endOfInput, List.not_mem_nil, or_self, not_false_eq_true]

theorem ofLine_asks (text : String) : Asks (stripped text) (ofLine text) := by
  rw [ofLine, ← stripped]
  generalize stripped text = line
  split
  · exact .nothing
  · refine .source (List.cons_ne_nil _ _) ⟨by simp, ?_⟩
    rw [word, List.takeWhile_cons_of_neg (by decide)]
    decide
  · exact .question _
  · rename_i filled _ mark
    refine ofWords_asks filled fun h => ?_
    obtain ⟨_, rfl⟩ := List.head?_eq_some_iff.mp h
    exact mark _ rfl

end Command

namespace Dialogue

variable {d : Dialogue} {line : String} {c : Command}

/-- The line of source that a command comes to. -/
def sourceOf? (d : Dialogue) : Command → Option String
  | .nothing | .endOfInput => none
  | .source line => some line
  | .help argument => if argument.isEmpty && d.pending.isEmpty then none else some ("help " ++ argument)
  | .exit argument =>
    if d.pending.isEmpty && (argument.isEmpty || argument == ";") then none else some ("exit " ++ argument)

/-- What has been gathered once a line has been added. -/
def gathered (d : Dialogue) (line : String) : String := d.pending ++ line ++ "\n"

/-- A line of source is held back, or completes what is run as a unit after a reset. -/
inductive Takes (d : Dialogue) (line : String) : Dialogue × Reaction → Prop
  | held (h : isComplete (d.gathered line) = false) :
      Takes d line ({ d with pending := d.gathered line, prompt := .continuation }, .more)
  | run (h : isComplete (d.gathered line) = true) :
      Takes d line ({ d with
          session := (d.session.reset.run (d.gathered line)).1
          pending := ""
          prompt := .primary },
        (d.session.reset.run (d.gathered line)).2.reaction)

theorem feed_takes (d : Dialogue) (line : String) : d.Takes line (d.feed line) := by
  rw [feed, ← gathered]
  split
  case isTrue h =>
    have ran := Takes.run h
    generalize d.session.reset.run (d.gathered line) = result at ran ⊢
    exact ran
  case isFalse h => exact .held (Bool.eq_false_iff.mpr h)

theorem Takes.eq_run {result : Dialogue × Reaction} (h : d.Takes line result)
    (complete : isComplete (d.gathered line) = true) :
    result = ({ d with
      session := (d.session.reset.run (d.gathered line)).1
      pending := ""
      prompt := .primary }, (d.session.reset.run (d.gathered line)).2.reaction) := by
  cases h with
  | held unfinished => rw [complete] at unfinished; cases unfinished
  | run _ => rfl

/-- A command that comes to no source leaves everything but the writing of the dialogue. -/
structure Idles (d : Dialogue) (after : Dialogue × Reaction) : Prop where
  session : after.1.session = d.session
  pending : after.1.pending = d.pending
  prompt : after.1.prompt = d.prompt
  reaction : after.2 = .more ∨ after.2 = .stop

theorem react_spec (d : Dialogue) (c : Command) :
    match d.sourceOf? c with
    | none => d.Idles (d.react c)
    | some line => d.Takes line (d.react c) := by
  cases c with
  | nothing => exact ⟨rfl, rfl, rfl, .inl rfl⟩
  | source line => exact d.feed_takes line
  | help argument =>
    rw [sourceOf?, react]
    by_cases own : (argument.isEmpty && d.pending.isEmpty) = true
    · rw [if_pos own, if_pos own]
      exact ⟨rfl, rfl, rfl, .inl rfl⟩
    · rw [if_neg own, if_neg own]
      exact d.feed_takes _
  | exit argument =>
    rw [sourceOf?, react]
    by_cases own : (d.pending.isEmpty && (argument.isEmpty || argument == ";")) = true
    · rw [if_pos own, if_pos own]
      exact ⟨rfl, rfl, rfl, .inr rfl⟩
    · rw [if_neg own, if_neg own]
      exact d.feed_takes _
  | endOfInput => exact ⟨rfl, rfl, rfl, .inr rfl⟩

/-- What a line is that asks for no source, and what one that does comes to. -/
theorem line_idles {text : String} (h : d.sourceOf? (.ofLine text) = none) : d.Idles (d.line text) := by
  have spec := d.react_spec (.ofLine text)
  rw [h] at spec
  exact spec

theorem line_takes {text : String} (h : d.sourceOf? (.ofLine text) = some line) :
    d.Takes line (d.line text) := by
  have spec := d.react_spec (.ofLine text)
  rw [h] at spec
  exact spec

end Dialogue

end Lox
