import Mathlib.Data.List.Count
import Lox.Dialogue
import Lox.Proofs.Dialogues.Braces

/-! # Which brace closes which

A right brace closes the nearest left brace that is still open, and nothing if there is none.
A source counts as complete when it has no fewer right braces than left ones. So right braces
that close nothing are set off against left ones behind them that nothing closes. -/

namespace Lox

open Kind (depth)

/-- The braces of a row of tokens, by their positions in the row. -/
structure Matching where
  /-- the left braces that nothing has closed, the nearest one first -/
  unclosed : List Nat
  /-- the other left braces, each with the right brace that closes it -/
  pairs : List (Nat × Nat)
  /-- the right braces that close nothing -/
  surplus : List Nat

namespace Matching

/-- Goes on over one more token. -/
def take (m : Matching) (position : Nat) : Kind → Matching
  | .leftBrace => { m with unclosed := position :: m.unclosed }
  | .rightBrace =>
    match m.unclosed with
    | [] => { m with surplus := position :: m.surplus }
    | nearest :: others => { m with unclosed := others, pairs := (nearest, position) :: m.pairs }
  | _ => m

def of (kinds : List Kind) : Matching :=
  kinds.zipIdx.foldl (fun m e => m.take e.2 e.1) ⟨[], [], []⟩

/-- A left brace and the right brace that closes it. All that is opened between them is closed
between them. -/
structure Closes (kinds : List Kind) (i j : Nat) : Prop where
  left : kinds[i]? = some .leftBrace
  right : kinds[j]? = some .rightBrace
  before : i < j
  between : depth 0 ((kinds.take j).drop (i + 1)) = some 0

/-- Every left brace has a right brace that closes it. -/
def AllClosed (kinds : List Kind) : Prop :=
  ∀ i, kinds[i]? = some .leftBrace → ∃ j, Closes kinds i j

variable {m : Matching} {kinds : List Kind} {i j j' : Nat}

theorem of_concat (kinds : List Kind) (k : Kind) : of (kinds ++ [k]) = (of kinds).take kinds.length k := by
  simp [of, List.zipIdx_append]

theorem take_cases (m : Matching) (position : Nat) (k : Kind) :
    (k = .leftBrace ∧ m.take position k = ⟨position :: m.unclosed, m.pairs, m.surplus⟩) ∨
    (k = .rightBrace ∧ m.unclosed = [] ∧ m.take position k = ⟨[], m.pairs, position :: m.surplus⟩) ∨
    (k = .rightBrace ∧ ∃ nearest others, m.unclosed = nearest :: others ∧
      m.take position k = ⟨others, (nearest, position) :: m.pairs, m.surplus⟩) ∨
    (k ≠ .leftBrace ∧ k ≠ .rightBrace ∧ m.take position k = m) := by
  obtain ⟨unclosed, pairs, surplus⟩ := m
  cases k <;> cases unclosed <;> simp [take]

/-! ## What each token adds -/

/-- Each brace is in its place. The left braces that wait are nested in one another, with only
closed ones between them, and they all stand behind the right braces that close nothing. -/
structure Sorts (m : Matching) (kinds : List Kind) : Prop where
  left : (m.unclosed ++ m.pairs.map (·.1)).Perm (kinds.idxsOf .leftBrace)
  right : (m.surplus ++ m.pairs.map (·.2)).Perm (kinds.idxsOf .rightBrace)
  waiting : ∀ n i, m.unclosed[n]? = some i → i < kinds.length ∧ depth 0 (kinds.drop (i + 1)) = some n
  closed : ∀ e ∈ m.pairs, e.1 < e.2 ∧ e.2 < kinds.length ∧ depth 0 ((kinds.take e.2).drop (e.1 + 1)) = some 0
  apart : ∀ i ∈ m.surplus, ∀ j ∈ m.unclosed, i < j

theorem mem_positions {k : Kind} : i ∈ kinds.idxsOf k ↔ kinds[i]? = some k := by
  rw [List.mem_idxsOf_iff_exists_getElem_pos, List.getElem?_eq_some_iff]
  simp only [beq_iff_eq]

theorem positions_more {k : Kind} {xs : List Nat} (h : xs.Perm (kinds.idxsOf k)) :
    (kinds.length :: xs).Perm ((kinds ++ [k]).idxsOf k) := by
  simpa [List.idxsOf_append] using (h.cons _).trans (List.perm_append_singleton _ _).symm

theorem positions_same {k other : Kind} (ne : other ≠ k) {xs : List Nat} (h : xs.Perm (kinds.idxsOf k)) :
    xs.Perm ((kinds ++ [other]).idxsOf k) := by
  simpa [List.idxsOf_append, ne] using h

namespace Sorts

theorem lt_length (h : m.Sorts kinds) (surplus : i ∈ m.surplus) : i < kinds.length :=
  (List.getElem?_eq_some_iff.mp (mem_positions.mp (h.right.subset (List.mem_append_left _ surplus)))).1

/-- What is open behind a brace that waits changes with the next token. -/
theorem waits (h : m.Sorts kinds) {n n' : Nat} {k : Kind} (nth : m.unclosed[n]? = some i)
    (step : k.nest n = some n') :
    i < (kinds ++ [k]).length ∧ depth 0 ((kinds ++ [k]).drop (i + 1)) = some n' := by
  obtain ⟨inside, nested⟩ := h.waiting n i nth
  refine ⟨by rw [List.length_append]; exact Nat.lt_add_right _ inside, ?_⟩
  rw [List.drop_append_of_le_length inside, Kind.depth_append, nested]
  simpa using step

theorem stays (h : m.Sorts kinds) (k : Kind) : ∀ e ∈ m.pairs, e.1 < e.2 ∧ e.2 < (kinds ++ [k]).length ∧
    depth 0 (((kinds ++ [k]).take e.2).drop (e.1 + 1)) = some 0 := by
  intro e me
  obtain ⟨before, inside, between⟩ := h.closed e me
  rw [List.take_append_of_le_length (Nat.le_of_lt inside), List.length_append]
  exact ⟨before, Nat.lt_add_right _ inside, between⟩

/-- Each token leaves every brace in its place. -/
theorem take (h : m.Sorts kinds) (k : Kind) : (m.take kinds.length k).Sorts (kinds ++ [k]) := by
  rcases take_cases m kinds.length k with ⟨rfl, e⟩ | ⟨rfl, none, e⟩ | ⟨rfl, nearest, others, some, e⟩ |
    ⟨noLeft, noRight, e⟩ <;> rw [e]
  · have waiting (n i : Nat) (nth : (kinds.length :: m.unclosed)[n]? = some i) :
        i < (kinds ++ [Kind.leftBrace]).length ∧ depth 0 ((kinds ++ [Kind.leftBrace]).drop (i + 1)) = some n := by
      cases n with
      | zero =>
        cases nth
        simp
      | succ n => exact h.waits nth rfl
    exact {
      left := positions_more h.left
      right := positions_same Kind.noConfusion h.right
      waiting := waiting
      closed := h.stays _
      apart := fun i mi => List.forall_mem_cons.mpr ⟨h.lt_length mi, h.apart i mi⟩ }
  · have left := h.left
    rw [none] at left
    exact {
      left := positions_same Kind.noConfusion left
      right := positions_more h.right
      waiting := fun n i nth => by cases nth
      closed := h.stays _
      apart := fun _ _ _ m => absurd m List.not_mem_nil }
  · have left := h.left
    -- nothing is open behind the nearest brace, so it is the one that this token closes
    have inner := h.waiting 0 nearest (by rw [some]; rfl)
    rw [some] at left
    exact {
      left := positions_same Kind.noConfusion (List.perm_middle.trans left)
      right := List.perm_middle.trans (positions_more h.right)
      waiting := fun n i nth => h.waits (n := n + 1) (by rw [some]; exact nth) rfl
      closed := List.forall_mem_cons.mpr ⟨by simpa using inner, h.stays _⟩
      apart := fun i mi j mj => h.apart i mi j (some ▸ List.mem_cons_of_mem _ mj) }
  · have plain (n : Nat) : k.nest n = .some n := by
      rcases Kind.nest_cases k with ⟨rfl, -⟩ | ⟨rfl, -⟩ | ⟨-, -, step⟩
      · exact absurd rfl noLeft
      · exact absurd rfl noRight
      · exact step n
    exact {
      left := positions_same noLeft h.left
      right := positions_same noRight h.right
      waiting := fun n i nth => h.waits nth (plain n)
      closed := h.stays _
      apart := h.apart }

end Sorts

theorem of_sorts (kinds : List Kind) : (of kinds).Sorts kinds := by
  induction kinds using List.reverseRecOn with
  | nil => constructor <;> simp [of]
  | append_singleton kinds k ih =>
    rw [of_concat]
    exact ih.take k

/-! ## What comes of it -/

/-- Nothing is nested in a brace any more behind the one that closes it. -/
theorem Closes.ends (h : Closes kinds i j) {l : Nat} (hl : j < l) :
    depth 0 ((kinds.take l).drop (i + 1)) = none := by
  obtain ⟨inside, right⟩ := List.getElem?_eq_some_iff.mp h.right
  have reaches : j < (kinds.take l).length := by
    rw [List.length_take]
    exact Nat.lt_min.mpr ⟨hl, inside⟩
  have front : (kinds.take l).take j = kinds.take j := by rw [List.take_take, Nat.min_eq_left (Nat.le_of_lt hl)]
  have back : (kinds.take l).drop j = .rightBrace :: (kinds.take l).drop (j + 1) := by
    rw [List.drop_eq_getElem_cons reaches, List.getElem_take, right]
  have behind : i + 1 ≤ (kinds.take j).length := by
    rw [List.length_take]
    exact Nat.le_min.mpr ⟨h.before, Nat.le_trans h.before (Nat.le_of_lt inside)⟩
  rw [← List.take_append_drop j (kinds.take l), front, back, List.drop_append_of_le_length behind,
    Kind.depth_append, h.between]
  rfl

theorem Closes.unique (h : Closes kinds i j) (h' : Closes kinds i j') : j = j' := by
  rcases Nat.lt_trichotomy j j' with less | same | more
  · cases (h.ends less).symm.trans h'.between
  · exact same
  · cases (h'.ends more).symm.trans h.between

/-- To go by the nearest brace that waits, and to go by what stands between two braces, is the same. -/
theorem mem_pairs_iff : (i, j) ∈ (of kinds).pairs ↔ Closes kinds i j := by
  have sorts := of_sorts kinds
  have closes {i j : Nat} (h : (i, j) ∈ (of kinds).pairs) : Closes kinds i j := by
    obtain ⟨before, -, between⟩ := sorts.closed _ h
    refine ⟨?left, ?right, before, between⟩
    case left => exact mem_positions.mp (sorts.left.subset (List.mem_append_right _ (List.mem_map_of_mem h)))
    case right => exact mem_positions.mp (sorts.right.subset (List.mem_append_right _ (List.mem_map_of_mem h)))
  refine ⟨closes, fun h => ?_⟩
  -- a left brace waits or is in a pair, and behind one that waits there is no end of its nesting
  rcases List.mem_append.mp (sorts.left.symm.subset (mem_positions.mpr h.left)) with waits | paired
  · obtain ⟨n, nth⟩ := List.getElem?_of_mem waits
    obtain ⟨-, nested⟩ := sorts.waiting n i nth
    have ended := h.ends (List.getElem?_eq_some_iff.mp h.right).1
    rw [List.take_length, nested] at ended
    cases ended
  · obtain ⟨⟨i, j'⟩, found, rfl⟩ := List.mem_map.mp paired
    exact h.unique (closes found) ▸ found

theorem allClosed_iff : AllClosed kinds ↔ (of kinds).unclosed = [] := by
  have sorts := of_sorts kinds
  constructor
  · intro all
    refine List.eq_nil_iff_forall_not_mem.mpr fun i waits => ?_
    obtain ⟨j, closes⟩ := all i (mem_positions.mp (sorts.left.subset (List.mem_append_left _ waits)))
    obtain ⟨-, -, apart⟩ := List.nodup_append.mp (sorts.left.nodup_iff.mpr List.nodup_idxsOf)
    exact apart i waits i (List.mem_map_of_mem (mem_pairs_iff.mpr closes)) rfl
  · intro none i left
    have found := sorts.left.symm.subset (mem_positions.mpr left)
    rw [none] at found
    obtain ⟨⟨i, j⟩, pair, rfl⟩ := List.mem_map.mp found
    exact ⟨j, mem_pairs_iff.mp pair⟩

theorem count_leftBrace (kinds : List Kind) :
    kinds.count .leftBrace = (of kinds).unclosed.length + (of kinds).pairs.length := by
  rw [← List.length_idxsOf, ← (of_sorts kinds).left.length_eq, List.length_append, List.length_map]

theorem count_rightBrace (kinds : List Kind) :
    kinds.count .rightBrace = (of kinds).surplus.length + (of kinds).pairs.length := by
  rw [← List.length_idxsOf, ← (of_sorts kinds).right.length_eq, List.length_append, List.length_map]

end Matching

namespace Dialogue

/-- A source is complete if it has no more left braces that nothing closes than right braces that
close nothing. So it is whenever all its left braces are closed, and where each right brace
closes one it is only then. The right braces that make up for others all stand before them. -/
theorem isComplete_by_matching (source : String) :
    let kinds := (scan source).tokens.map (·.kind)
    let braces := Matching.of kinds
    (isComplete source = true ↔ braces.unclosed.length ≤ braces.surplus.length) ∧
      (Matching.AllClosed kinds → isComplete source = true) ∧
      (braces.surplus = [] → (isComplete source = true ↔ Matching.AllClosed kinds)) ∧
      ∀ i ∈ braces.surplus, ∀ j ∈ braces.unclosed, i < j := by
  intro kinds braces
  have complete : isComplete source = true ↔ braces.unclosed.length ≤ braces.surplus.length := by
    rw [isComplete, decide_eq_true_iff, Matching.count_leftBrace, Matching.count_rightBrace]
    exact Nat.add_le_add_iff_right
  refine ⟨complete, fun all => ?_, fun none => ?_, (Matching.of_sorts kinds).apart⟩
  · rw [complete, Matching.allClosed_iff.mp all]
    exact Nat.zero_le _
  · rw [complete, none, Matching.allClosed_iff, List.length_nil, Nat.le_zero, List.length_eq_zero_iff]

/-- The brace is open, but a brace that closes nothing makes up for it. -/
theorem isComplete_before_closing :
    isComplete "\x7d \x7b" = true ∧ ¬ Matching.AllClosed ((scan "\x7d \x7b").tokens.map (·.kind)) := by
  have kinds : (scan "\x7d \x7b").tokens.map (·.kind) = [.rightBrace, .leftBrace, .eof] := by decide +kernel
  refine ⟨by decide +kernel, fun all => ?_⟩
  rw [kinds] at all
  cases Matching.allClosed_iff.mp all

end Dialogue

end Lox
