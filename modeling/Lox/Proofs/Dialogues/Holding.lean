import Lox.Proofs.Dialogues.Braces
import Lox.Proofs.Dialogues.Breaks
import Lox.Proofs.Dialogues.Commands
import Lox.Proofs.Segmentation.Tokens

/-! # What a dialogue holds back

A program that can be read is never held back as a whole. Of its beginnings, up to some line
break, those are held back that end between a brace and the one that closes it. -/

namespace Lox

namespace Piece

open Kind (depth)

/-- A brace and the one that closes it, each with the number of characters in front of it. -/
inductive Enclose : List Piece → Nat → Nat → Prop
  | intro {before inner after : List Piece} {l r : List Char} (balanced : depth 0 (kinds inner) = some 0) :
      Enclose (before ++ .lexeme .leftBrace l :: (inner ++ .lexeme .rightBrace r :: after))
        (size before) (size before + l.length + size inner)

theorem exists_of_kinds {ps : List Piece} {k : Kind} {as bs : List Kind} (h : kinds ps = as ++ k :: bs) :
    ∃ before text after, ps = before ++ .lexeme k text :: after ∧ kinds before = as ∧ kinds after = bs := by
  obtain ⟨front, back, rfl, hf, hb⟩ := List.filterMap_eq_append_iff.mp h
  obtain ⟨skipped, p, after, rfl, none, hp, ha⟩ := List.filterMap_eq_cons_iff.mp hb
  obtain ⟨text, rfl⟩ : ∃ text, p = .lexeme k text := by
    cases p with
    | lexeme kind text => exact ⟨text, by rw [Option.some.inj hp]⟩
    | blank | lineComment | blockComment | openString | stray => cases hp
  refine ⟨front ++ skipped, text, after, by simp, ?_, ha⟩
  rw [kinds_append, show kinds front = as from hf, kinds, List.filterMap_eq_nil_iff.mpr none, List.append_nil]

/-- A piece of a row stands in front of another place in it, or behind it, or there. -/
theorem row_order {before after ps later : List Piece} {p torn : Piece}
    (h : before ++ p :: after = ps ++ torn :: later) :
    (∃ mid, ps = before ++ p :: mid ∧ after = mid ++ torn :: later) ∨ p = torn ∨
      ∃ mid, before = ps ++ torn :: mid := by
  rcases List.append_eq_append_iff.mp h with ⟨mid, rfl, e⟩ | ⟨mid, rfl, e⟩
  · cases mid with
    | nil => exact .inr (.inl (List.cons.inj e).1)
    | cons q mid =>
      obtain ⟨rfl, rfl⟩ := List.cons.inj e
      exact .inl ⟨mid, rfl, rfl⟩
  · cases mid with
    | nil => exact .inr (.inl (List.cons.inj e).1.symm)
    | cons q mid =>
      obtain ⟨rfl, rfl⟩ := List.cons.inj e
      exact .inr (.inr ⟨mid, rfl⟩)

section Enclosed

variable {ps later : List Piece} {torn : Piece} {cut : Nat}

/-- A brace in front of a plain piece, and the one behind it that closes it, enclose each place
in the piece. -/
theorem Enclose.of_kinds (plain : torn.IsPlain) (solid : ∀ p ∈ ps ++ torn :: later, p.text ≠ [])
    (low : size ps ≤ cut) (high : cut ≤ size ps + torn.text.length) {before inner inner' after : List Kind}
    (opens : kinds ps = before ++ .leftBrace :: inner)
    (closes : kinds (torn :: later) = inner' ++ .rightBrace :: after)
    (balanced : depth 0 (inner ++ inner') = some 0) :
    ∃ i j, Enclose (ps ++ torn :: later) i j ∧ i < cut ∧ cut ≤ j := by
  obtain ⟨before, l, inner, rfl, -, rfl⟩ := exists_of_kinds opens
  obtain ⟨inner', r, after, e, rfl, -⟩ := exists_of_kinds closes
  rw [List.append_assoc, List.cons_append, e, ← List.append_assoc inner]
  refine ⟨_, _, .intro (by rw [kinds_append]; exact balanced), ?_, ?_⟩
  · have filled := List.length_pos_iff.mpr (solid (.lexeme .leftBrace l) (by simp))
    rw [size_append, size_cons] at low
    omega
  · cases inner' with
    | nil => exact absurd (congrArg kind? (List.cons.inj e).1) plain.2
    | cons p inner' =>
      obtain ⟨rfl, rfl⟩ := List.cons.inj e
      simp only [size_append, size_cons, text] at high ⊢
      omega

/-- What encloses a place in a plain piece opens in front of the piece and closes behind it. -/
theorem Enclose.splits (plain : torn.IsPlain) (solid : ∀ p ∈ ps ++ torn :: later, p.text ≠ [])
    (low : size ps ≤ cut) (high : cut ≤ size ps + torn.text.length) {i j : Nat}
    (enclose : Enclose (ps ++ torn :: later) i j) (front : i < cut) (back : cut ≤ j) :
    ∃ before inner inner' after, kinds ps = before ++ .leftBrace :: inner ∧
      kinds (torn :: later) = inner' ++ .rightBrace :: after ∧ depth 0 (inner ++ inner') = some 0 := by
  generalize row : ps ++ torn :: later = all at enclose solid
  obtain @⟨before, inner, after, l, r, balanced⟩ := enclose
  rcases row_order row.symm with ⟨mid, rfl, e⟩ | rfl | ⟨mid, rfl⟩
  · rcases row_order e with ⟨mid', rfl, -⟩ | rfl | ⟨mid', rfl⟩
    · have filled := List.length_pos_iff.mpr (solid (.lexeme .rightBrace r) (by simp))
      simp only [size_append, size_cons, text] at low back filled
      omega
    · exact absurd rfl plain.2
    · obtain rfl : mid' ++ .lexeme .rightBrace r :: after = later := by simpa using e
      refine ⟨kinds before, kinds mid, kinds (torn :: mid'), kinds after, ?_, ?_, ?_⟩
      · rw [kinds_append]
        rfl
      · rw [← List.cons_append, kinds_append]
        rfl
      · rw [← kinds_append]
        exact balanced
  · exact absurd rfl plain.1
  · simp only [size_append, size_cons] at high front
    omega

/-- In a row that closes what it opens, a brace is open in front of a plain piece if and only if
the piece stands between a brace and the one that closes it. -/
theorem enclosed_iff (plain : torn.IsPlain) (solid : ∀ p ∈ ps ++ torn :: later, p.text ≠ [])
    (whole : depth 0 (kinds (ps ++ torn :: later)) = some 0)
    (low : size ps ≤ cut) (high : cut ≤ size ps + torn.text.length) :
    ∃ n, depth 0 (kinds ps) = some n ∧
      (n ≠ 0 ↔ ∃ i j, Enclose (ps ++ torn :: later) i j ∧ i < cut ∧ cut ≤ j) := by
  rw [kinds_append] at whole
  obtain ⟨n, hn, open_⟩ := Kind.depth_split whole
  refine ⟨n, hn, open_.trans ⟨?_, ?_⟩⟩
  · rintro ⟨before, inner, inner', after, opens, closes, balanced⟩
    exact Enclose.of_kinds plain solid low high opens closes balanced
  · rintro ⟨i, j, enclose, front, back⟩
    exact enclose.splits plain solid low high front back

end Enclosed

end Piece

open Piece (segment kinds Enclose AtBreak)

theorem scan_kinds (source : String) : ∃ body last, (scan source).tokens = body ++ [.eof last] ∧
    (∀ t ∈ body, t.kind ≠ .eof) ∧ body.map (·.kind) = kinds (segment source.toList) := by
  obtain ⟨body, last, tokens, lexemes, lexical⟩ := scan_lexical source
  refine ⟨body, last, tokens, fun t m => (lexical t m).spells.ne_eof, ?_⟩
  calc
    body.map (·.kind) = (body.map fun t => (t.kind, t.lexeme.toList)).map Prod.fst := by
      rw [List.map_map]
      rfl
    _ = kinds (segment source.toList) := by
      rw [lexemes, List.map_filterMap, kinds]
      congr 1
      funext p
      cases p <;> rfl

namespace Dialogue

theorem isComplete_eq (source : String) : isComplete source =
    decide ((kinds (segment source.toList)).count .leftBrace ≤ (kinds (segment source.toList)).count .rightBrace) := by
  obtain ⟨body, last, tokens, -, same⟩ := scan_kinds source
  simp [isComplete, tokens, same, Token.eof]

theorem isComplete_of_depth {source : String} {ks more : List Kind} {n : Nat}
    (same : kinds (segment source.toList) = ks ++ more) (depth : Kind.depth 0 ks = some n)
    (plain : ∀ k ∈ more, k ≠ .leftBrace ∧ k ≠ .rightBrace) : isComplete source = false ↔ n ≠ 0 := by
  have count := Kind.depth_count depth
  have left : more.count .leftBrace = 0 := List.count_eq_zero.mpr fun m => (plain _ m).1 rfl
  have right : more.count .rightBrace = 0 := List.count_eq_zero.mpr fun m => (plain _ m).2 rfl
  rw [isComplete_eq, same, decide_eq_false_iff_not, List.count_append, List.count_append, left, right]
  omega

/-- A program that is read without a problem is complete. One that is cut at a line break is so
in front of the break unless a brace there is closed behind it. So a dialogue that is given
its lines holds them back in between, and runs the whole. -/
theorem readable_is_not_held {source : String} (quiet : (parse (scan source).tokens).errors = []) :
    isComplete source = true ∧
    (∀ front back, source = front ++ back → AtBreak front.toList back.toList →
      (isComplete front = false ↔ ∃ i j, Enclose (segment source.toList) i j ∧ i < front.length ∧ front.length ≤ j)) ∧
    (∀ d line, gathered d line = source →
      (d.feed line).1.pending = "" ∧ (d.feed line).1.session = (d.session.reset.run source).1) ∧
    (∀ d line rest, gathered d line ++ rest = source →
      ((d.feed line).1.pending = gathered d line ↔
        ∃ i j, Enclose (segment source.toList) i j ∧ i < (gathered d line).length ∧ (gathered d line).length ≤ j)) := by
  obtain ⟨body, last, tokens, inside, same⟩ := scan_kinds source
  have balanced : Kind.depth 0 (kinds (segment source.toList)) = some 0 := by
    rw [tokens] at quiet
    exact same ▸ parse_balanced inside rfl quiet
  have complete : isComplete source = true := by
    rw [← Bool.not_eq_false, isComplete_of_depth (List.append_nil _).symm balanced nofun]
    exact fun h => h rfl
  have cut : ∀ front back, source = front ++ back → AtBreak front.toList back.toList →
      (isComplete front = false ↔
        ∃ i j, Enclose (segment source.toList) i j ∧ i < front.length ∧ front.length ≤ j) := by
    rintro front back rfl atBreak
    obtain ⟨ps, torn, later, more, row, plain, ⟨front_, none⟩, low, high⟩ := Piece.segment_atBreak atBreak
    rw [String.toList_append, row] at balanced ⊢
    have solid : ∀ p ∈ ps ++ torn :: later, p.text ≠ [] := row ▸ fun p m => Piece.text_ne_nil m
    obtain ⟨n, hn, open_⟩ := Piece.enclosed_iff plain solid balanced low high
    exact (isComplete_of_depth front_ hn none).trans open_
  refine ⟨complete, cut, ?_, ?_⟩
  · rintro d line rfl
    rw [(d.feed_takes line).eq_run complete]
    exact ⟨rfl, rfl⟩
  · rintro d line rest rfl
    have atBreak : AtBreak (d.gathered line).toList rest.toList := .inl (by simp [gathered])
    rw [← cut _ rest rfl atBreak]
    have filled : d.gathered line ≠ "" := fun h => by simpa [gathered] using congrArg String.length h
    have takes := d.feed_takes line
    generalize d.feed line = result at takes ⊢
    cases takes with
    | held h => exact iff_of_true rfl h
    | run h => exact iff_of_false (fun e => filled e.symm) (by simp [h])

/-- The break is inside a string, in which a brace stands as well. -/
theorem readable_is_not_held_string :
    let front := "\x7b \"a\n"
    let back := "\x7d\"; \x7d"
    (parse (scan (front ++ back)).tokens).errors = [] ∧ isComplete front = false := by
  intro front back
  have quiet : (parse (scan (front ++ back)).tokens).errors = [] := by decide +kernel
  let inner : List Piece := [.blank ' ', .lexeme .string ['"', 'a', '\n', '\x7d', '"'],
    .lexeme .semicolon [';'], .blank ' ']
  have row : segment (front ++ back).toList =
      [] ++ .lexeme .leftBrace ['\x7b'] :: (inner ++ .lexeme .rightBrace ['\x7d'] :: []) := by
    rw [show (front ++ back).toList = ['\x7b', ' ', '"', 'a', '\n', '\x7d', '"', ';', ' ', '\x7d'] by
      decide +kernel]
    rfl
  refine ⟨quiet, ((readable_is_not_held quiet).2.1 front back rfl (.inl (by decide))).mpr ?_⟩
  rw [row]
  exact ⟨_, _, .intro (by decide), by decide, by decide⟩

end Dialogue

end Lox
