import Lox.Parse.Program

/-! # How readers reply

What comes of the ways in which readers are put together, where the parts reply
without a problem. -/

namespace Lox.Parse

variable {α β : Type} {p : Parse α} {tokens rest : List Token} {a : α}

theorem bind_reply {f : α → Parse β} (h : p tokens = ⟨some a, rest, []⟩) :
    (p >>= f) tokens = f a rest := by
  change Parse.bind p f tokens = _
  simp only [Parse.bind, h, List.nil_append]

theorem map_reply {f : α → β} (h : p tokens = ⟨some a, rest, []⟩) :
    (f <$> p) tokens = ⟨some (f a), rest, []⟩ := bind_reply h

theorem bind_quiet {f : α → Parse β} (h : ((p >>= f) tokens).errors = []) :
    (p tokens).errors = [] := by
  change (Parse.bind p f tokens).errors = [] at h
  unfold Parse.bind at h
  split at h
  · rename_i hp
    rw [hp]
    exact h
  · rename_i hp
    rw [hp]
    exact (List.append_eq_nil_iff.mp h).1

/-- Changing the value leaves the rest of the reply. -/
theorem bind_pure_reply (f : α → β) :
    ((p >>= fun a => pure (f a)) tokens).rest = (p tokens).rest ∧
      ((p >>= fun a => pure (f a)) tokens).errors = (p tokens).errors := by
  change (Parse.bind p _ tokens).rest = _ ∧ (Parse.bind p _ tokens).errors = _
  unfold Parse.bind
  split
  · rename_i h
    rw [h]
    exact ⟨rfl, rfl⟩
  · rename_i h
    rw [h]
    exact ⟨rfl, List.append_nil _⟩

section Tokens

variable {t : Token} {kind : Kind}

theorem take?_hit {test : Kind → Bool} (h : test t.kind = true) :
    take? test (t :: rest) = ⟨some (some t), rest, []⟩ := if_pos h

theorem take?_miss {test : Kind → Bool} (h : ∀ t ∈ rest.head?, test t.kind = false) :
    take? test rest = ⟨some none, rest, []⟩ := by
  cases rest with
  | nil => rfl
  | cons t rest =>
    simp only [take?, h t rfl]
    rfl

theorem expect_reply (problem : SyntaxProblem) (h : t.kind = kind) :
    expect kind problem (t :: rest) = ⟨some t, rest, []⟩ :=
  bind_reply (take?_hit (by simp [h]))

theorem choose_reply {reader? : Token → Option (Parse α)} {otherwise : Parse α}
    (h : reader? t = some p) : choose reader? otherwise (t :: rest) = p rest := by
  simp only [choose, h]

theorem choose_otherwise {reader? : Token → Option (Parse α)} {otherwise : Parse α}
    (h : reader? t = none) : choose reader? otherwise (t :: rest) = otherwise (t :: rest) := by
  simp only [choose, h]

theorem unlessKind_absent (h : t.kind = kind) :
    unlessKind kind p (t :: rest) = ⟨some none, t :: rest, []⟩ := by
  have here : atKind kind (t :: rest) = ⟨some true, t :: rest, []⟩ := by simp [atKind, h]
  rw [unlessKind, bind_reply here]
  rfl

theorem unlessKind_present (h : ∀ t ∈ tokens.head?, t.kind ≠ kind)
    (hp : p tokens = ⟨some a, rest, []⟩) : unlessKind kind p tokens = ⟨some (some a), rest, []⟩ := by
  have elsewhere : atKind kind tokens = ⟨some false, tokens, []⟩ := by
    cases tokens with
    | nil => rfl
    | cons t rest => simp [atKind, h t rfl]
  rw [unlessKind, bind_reply elsewhere]
  exact map_reply hp

end Tokens

section Lists

variable {kind : Kind} {item : Parse α} {b : Token} {bound : List Token}

theorem untilKind_end (h : ∀ t ∈ tokens.head?, t.kind = kind) :
    untilKind kind item bound tokens = ⟨some [], tokens, []⟩ := by
  cases bound with
  | nil => rfl
  | cons b bound =>
    have here : endsAt kind tokens = ⟨some true, tokens, []⟩ := by
      cases tokens with
      | nil => rfl
      | cons t rest => simp [endsAt, h t rfl]
    rw [untilKind, bind_reply here]
    rfl

theorem untilKind_item {t : Token} (h : t.kind ≠ kind)
    (hi : item (t :: tokens) = ⟨some a, rest, []⟩) :
    untilKind kind item (b :: bound) (t :: tokens) =
      (untilKind kind item bound >>= fun as => pure (a :: as)) rest := by
  have elsewhere : endsAt kind (t :: tokens) = ⟨some false, t :: tokens, []⟩ := by simp [endsAt, h]
  rw [untilKind, bind_reply elsewhere]
  exact bind_reply hi

end Lists

end Lox.Parse
