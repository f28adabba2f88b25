import Lox.Proofs.Dialogues.Commands
import Mathlib.Data.List.DropRight

/-! # Lines that stop a dialogue

Every line that begins with the word for the end of the input stops a dialogue, whatever
follows the word. The word for leaving does so only if nothing waits and it stands alone. -/

namespace Lox

namespace Text

theorem trim_closed (l : List Char) (h : trim l ≠ []) : ¬ isBlank ((trim l).getLast h) = true :=
  List.rdropWhile_last_not isBlank (trimStart l) h

/-- There is nothing to be taken away at the end. -/
theorem trim_eq_trimStart {l : List Char} (h : ∀ hl : l ≠ [], ¬ isBlank (l.getLast hl) = true) :
    trim l = trimStart l := by
  refine List.rdropWhile_eq_self_iff.mpr fun filled => ?_
  have last : (trimStart l).getLast filled = l.getLast _ := (List.dropWhile_suffix isBlank).getLast filled
  rw [last]
  exact h _

theorem isWordChar_of_blank {c : Char} (h : isBlank c = true) : Piece.isWordChar c = false := by
  refine Bool.eq_false_iff.mpr fun word => ?_
  simp only [isBlank, Piece.isWordChar, Piece.isLetter, Number.isDigit, Bool.or_eq_true, Bool.and_eq_true,
    decide_eq_true_eq, beq_iff_eq, Char.le_def, UInt32.le_iff_toNat_le, Char.ext_iff,
    ← UInt32.toNat_inj] at h word
  simp only [Char.toNat, Char.reduceVal, UInt32.reduceToNat] at h word
  omega

end Text

namespace Command

open Text (isBlank)

variable {line : List Char}

/-- The word for leaving by itself, or with a semicolon. -/
def Quits (line : List Char) : Prop :=
  line = "exit".toList ∨ ∃ gap, (∀ c ∈ gap, isBlank c = true) ∧ line = "exit".toList ++ gap ++ [';']

theorem word_eq_iff {text : String} : word line = text ↔ line.takeWhile Piece.isWordChar = text.toList := by
  rw [word, ← String.toList_inj, String.toList_ofList]

theorem trim_suffix {text : String} {rest : List Char} (h : rest <:+ stripped text) :
    Text.trim rest = Text.trimStart rest := by
  refine Text.trim_eq_trimStart fun filled => ?_
  rw [h.getLast filled]
  exact Text.trim_closed _ _

/-- The end of a line is not all blank. -/
theorem trim_suffix_eq_nil {text : String} {rest : List Char} (h : rest <:+ stripped text) :
    Text.trim rest = [] ↔ rest = [] := by
  constructor
  · intro empty
    rw [trim_suffix h] at empty
    have blanks := List.dropWhile_eq_nil_iff.mp empty
    by_contra filled
    have last := blanks _ (List.getLast_mem filled)
    rw [h.getLast filled] at last
    exact Text.trim_closed _ _ last
  · rintro rfl
    rfl

theorem argument_eq_empty (text : String) :
    argument (stripped text) = "" ↔ stripped text = (word (stripped text)).toList := by
  rw [argument, String.ofList_eq_empty_iff, trim_suffix_eq_nil (List.dropWhile_suffix _), word,
    String.toList_ofList]
  nth_rewrite 2 [← List.takeWhile_append_dropWhile (p := Piece.isWordChar) (l := stripped text)]
  rw [List.append_right_eq_self]

theorem word_exit {gap : List Char} (blanks : ∀ c ∈ gap, isBlank c = true) :
    word ("exit".toList ++ gap ++ [';']) = "exit" ∧ argument ("exit".toList ++ gap ++ [';']) = ";" := by
  have letters : ∀ c ∈ "exit".toList, Piece.isWordChar c = true := List.all_eq_true.mp (by decide)
  have stops : (gap ++ [';']).takeWhile Piece.isWordChar = [] ∧
      (gap ++ [';']).dropWhile Piece.isWordChar = gap ++ [';'] := by
    cases gap with
    | nil => decide
    | cons c rest =>
      have apart := Text.isWordChar_of_blank (blanks c List.mem_cons_self)
      simp only [List.cons_append, List.takeWhile_cons, List.dropWhile_cons, apart, Bool.false_eq_true,
        if_false, and_self]
  have trimmed : Text.trim (gap ++ [';']) = [';'] := by
    rw [Text.trim_eq_trimStart fun _ => by rw [List.getLast_concat]; decide, Text.trimStart,
      List.dropWhile_append_of_pos blanks]
    decide
  rw [List.append_assoc, word, argument, List.takeWhile_append_of_pos letters,
    List.dropWhile_append_of_pos letters, stops.1, stops.2, trimmed, List.append_nil]
  exact ⟨String.ofList_toList, rfl⟩

theorem quits_iff (text : String) : Quits (stripped text) ↔
    word (stripped text) = "exit" ∧ (argument (stripped text) = "" ∨ argument (stripped text) = ";") := by
  constructor
  · rintro (e | ⟨gap, blanks, e⟩)
    · rw [e]
      exact ⟨by decide, .inl (by decide)⟩
    · rw [e]
      exact ⟨(word_exit blanks).1, .inr (word_exit blanks).2⟩
  · rintro ⟨word, empty | semicolon⟩
    · exact .inl (word ▸ (argument_eq_empty text).mp empty)
    · have behind : Text.trimStart ((stripped text).dropWhile Piece.isWordChar) = [';'] := by
        rw [argument, trim_suffix (List.dropWhile_suffix _)] at semicolon
        exact String.ofList_inj.mp semicolon
      refine .inr ⟨((stripped text).dropWhile Piece.isWordChar).takeWhile isBlank,
        fun _ => List.mem_takeWhile_imp, ?_⟩
      rw [List.append_assoc, ← word_eq_iff.mp word, ← behind, Text.trimStart, List.takeWhile_append_dropWhile,
        List.takeWhile_append_dropWhile]

/-- A line of source as it is gathered. Where a word of the dialogue is source after all, one
blank stands behind it, and a question mark is the word for help. -/
def spelled (line : List Char) : String :=
  if line.head? = some '?' then "help " ++ String.ofList (Text.trim line.tail)
  else if word line = "help" ∨ word line = "exit" then word line ++ " " ++ argument line
  else .ofList line

theorem IsSource.spelled (h : IsSource line) : spelled line = .ofList line := by
  have own := h.word
  simp only [List.mem_cons, not_or] at own
  rw [Command.spelled, if_neg h.mark, if_neg fun either => either.elim own.1 own.2.1]

theorem spelled_word {text : String} (h : word line = text) (own : text = "help" ∨ text = "exit") :
    spelled line = text ++ " " ++ argument line := by
  have mark : line.head? ≠ some '?' := by
    intro mark
    obtain ⟨rest, rfl⟩ := List.head?_eq_some_iff.mp mark
    rw [word, List.takeWhile_cons_of_neg (by decide)] at h
    rcases own with rfl | rfl <;> exact absurd h (by decide)
  rw [spelled, if_neg mark, if_pos (h.symm ▸ own), h]

end Command

namespace Dialogue

open Command

variable {d : Dialogue} {text : String}

/-- The lines that a dialogue in which nothing waits takes for a question for help. -/
def AsksHelp (line : List Char) : Prop := line = "help".toList ∨ line = "?".toList

theorem Takes.not_stop {line : String} {result : Dialogue × Reaction} (h : d.Takes line result) :
    result.2 ≠ .stop := by
  cases h with
  | held _ => exact Reaction.noConfusion
  | run _ =>
    dsimp only
    generalize (d.session.reset.run (d.gathered line)).2 = ending
    cases ending <;> exact Reaction.noConfusion

theorem react_help_not_stop (d : Dialogue) (argument : String) : (d.react (.help argument)).2 ≠ .stop := by
  rw [react]
  split
  · exact Reaction.noConfusion
  · exact (d.feed_takes _).not_stop

theorem react_exit_stop_iff (d : Dialogue) (argument : String) :
    (d.react (.exit argument)).2 = .stop ↔ d.pending = "" ∧ (argument = "" ∨ argument = ";") := by
  rw [react]
  split
  case isTrue h =>
    simp only [Bool.and_eq_true, Bool.or_eq_true, String.isEmpty_iff, beq_iff_eq] at h
    exact iff_of_true rfl h
  case isFalse h =>
    simp only [Bool.and_eq_true, Bool.or_eq_true, String.isEmpty_iff, beq_iff_eq] at h
    exact iff_of_false (d.feed_takes _).not_stop h

theorem line_stop_iff (d : Dialogue) (text : String) :
    (d.line text).2 = .stop ↔
      word (stripped text) = "EOF" ∨ d.pending = "" ∧ Quits (stripped text) := by
  have asks := ofLine_asks text
  rw [quits_iff, Dialogue.line]
  generalize stripped text = line at asks ⊢
  generalize ofLine text = c at asks ⊢
  have apart {w : String} (h : word line = w) (notEnd : w ≠ "EOF") (notExit : w ≠ "exit") :
      ¬ (word line = "EOF" ∨
        d.pending = "" ∧ word line = "exit" ∧ (argument line = "" ∨ argument line = ";")) := by
    rw [h]
    exact fun either => either.elim notEnd fun quits => notExit quits.2.1
  cases asks with
  | nothing => exact iff_of_false Reaction.noConfusion (apart rfl (by decide) (by decide))
  | source filled own =>
    have words := own.word
    simp only [List.mem_cons, not_or] at words
    exact iff_of_false (d.feed_takes _).not_stop (apart rfl words.2.2.1 words.2.1)
  | question rest =>
    refine iff_of_false (d.react_help_not_stop _) (apart (w := "") ?_ (by decide) (by decide))
    rw [word, List.takeWhile_cons_of_neg (by decide)]
  | help h => exact iff_of_false (d.react_help_not_stop _) (apart h (by decide) (by decide))
  | exit h =>
    rw [react_exit_stop_iff, h]
    simp only [String.reduceEq, false_or, true_and]
  | endOfInput h => exact iff_of_true rfl (.inl h)

/-- A question for help that has no argument is the word or the mark by itself. -/
theorem asksHelp_of_empty {argument : String} (asked : ofLine text = .help argument) (empty : argument = "") :
    AsksHelp (stripped text) := by
  have asks := ofLine_asks text
  rw [asked] at asks
  generalize same : stripped text = line at asks
  cases asks with
  | question rest =>
    have suffix : rest <:+ stripped text := same ▸ List.suffix_cons '?' rest
    rw [(trim_suffix_eq_nil suffix).mp (String.ofList_eq_empty_iff.mp empty)]
    exact .inr rfl
  | help h =>
    rw [← same] at h empty
    rw [← same, (argument_eq_empty text).mp empty, h]
    exact .inl rfl

theorem sourceOf?_spelled (filled : stripped text ≠ []) (goesOn : (d.line text).2 ≠ .stop)
    (noHelp : ¬ (d.pending = "" ∧ AsksHelp (stripped text))) :
    d.sourceOf? (ofLine text) = some (spelled (stripped text)) := by
  have asks := ofLine_asks text
  have help (argument : String) (asked : ofLine text = .help argument) :
      ¬ (argument.isEmpty && d.pending.isEmpty) = true := by
    simp only [Bool.and_eq_true, String.isEmpty_iff]
    exact fun ⟨empty, calm⟩ => noHelp ⟨calm, asksHelp_of_empty asked empty⟩
  rw [Dialogue.line] at goesOn
  generalize stripped text = line at *
  generalize asked : ofLine text = c at *
  cases asks with
  | nothing => exact absurd rfl filled
  | source _ own => rw [own.spelled, sourceOf?]
  | question rest => rw [sourceOf?, if_neg (help _ rfl), spelled, List.head?_cons, if_pos rfl, List.tail_cons]
  | help h =>
    rw [sourceOf?, if_neg (help _ rfl), spelled_word h (.inl rfl)]
    rfl
  | exit h =>
    rw [Ne, react_exit_stop_iff] at goesOn
    rw [sourceOf?, if_neg (by simpa using goesOn), spelled_word h (.inr rfl)]
    rfl
  | endOfInput _ => exact absurd rfl goesOn

/-- A line stops a dialogue if it begins with the word for the end of the input, or if nothing
waits and it is the word for leaving. Of the other lines, empty ones do nothing, and
questions for help are answered where nothing waits. All the rest is gathered as source. -/
theorem line_stops_or_is_taken (d : Dialogue) (text : String) :
    let line := stripped text
    ((d.line text).2 = .stop ↔ word line = "EOF" ∨ d.pending = "" ∧ Quits line) ∧
    (line = [] → d.line text = (d, .more)) ∧
    (d.pending = "" ∧ AsksHelp line → d.line text = (d.write helpText, .more)) ∧
    (line ≠ [] → (d.line text).2 ≠ .stop → ¬ (d.pending = "" ∧ AsksHelp line) →
      d.Takes (spelled line) (d.line text)) ∧
    (IsSource line → spelled line = .ofList line) := by
  intro line
  refine ⟨d.line_stop_iff text, ?empty, ?help, ?taken, IsSource.spelled⟩
  case empty =>
    intro empty
    rw [Dialogue.line, ofLine, ← stripped, show stripped text = [] from empty]
    rfl
  case help =>
    rintro ⟨calm, bare⟩
    have asked : ofLine text = .help "" := by
      rw [ofLine, ← stripped]
      rcases bare with word | mark
      · rw [show stripped text = _ from word]
        decide
      · rw [show stripped text = _ from mark]
        decide
    rw [Dialogue.line, asked, react, calm, if_pos (by decide)]
  case taken =>
    intro filled goesOn noHelp
    exact line_takes (sourceOf?_spelled filled goesOn noHelp)

/-- An assignment to a variable with the name of the word for leaving. -/
theorem line_stops_or_is_taken_assignment :
    let d := start (.start Session.interactiveName false false fun _ => 0)
    stripped " exit  = 1; " ≠ [] ∧ (d.line " exit  = 1; ").2 ≠ .stop ∧
      ¬ (d.pending = "" ∧ AsksHelp (stripped " exit  = 1; ")) ∧
      d.Takes "exit = 1;" (d.line " exit  = 1; ") := by
  intro d
  obtain ⟨stops, -, -, taken, -⟩ := line_stops_or_is_taken d " exit  = 1; "
  have filled : stripped " exit  = 1; " ≠ [] := by decide +kernel
  have noHelp : ¬ (d.pending = "" ∧ AsksHelp (stripped " exit  = 1; ")) := by
    unfold AsksHelp
    decide +kernel
  have goesOn : (d.line " exit  = 1; ").2 ≠ .stop := by
    rw [Ne, stops, quits_iff]
    decide +kernel
  have spelling : spelled (stripped " exit  = 1; ") = "exit = 1;" := by decide +kernel
  exact ⟨filled, goesOn, noHelp, spelling ▸ taken filled goesOn noHelp⟩

/-- An assignment to a variable with the name of the end of the input, which stops a dialogue
although it is neither that word nor the one for leaving. -/
theorem line_stops_at_assignment : ∃ (d : Dialogue) (text : String),
    (d.line text).2 = .stop ∧ ¬ (stripped text = "EOF".toList ∨ d.pending = "" ∧ Quits (stripped text)) := by
  refine ⟨start (.start Session.interactiveName false false fun _ => 0), "EOF = 1;", rfl, ?_⟩
  rw [quits_iff]
  decide +kernel

end Dialogue

end Lox
