import Mathlib.Data.List.Induction
import Lox.Proofs.Grammar.Acceptance

/-! # Braces

Every brace that a program opens it closes again, and it closes no other ones. So where a
program is cut in two, what is open behind the first part is closed in the second. -/

namespace Lox

namespace Kind

/-- How many braces are open behind a token, unless it closes one that is not open. -/
def nest : Kind → Nat → Option Nat
  | .leftBrace, d => some (d + 1)
  | .rightBrace, 0 => none
  | .rightBrace, d + 1 => some d
  | _, d => some d

/-- How many braces are open behind a row of tokens. -/
def depth (d : Nat) (kinds : List Kind) : Option Nat := kinds.foldlM (fun d k => k.nest d) d

variable {k : Kind} {ks ls : List Kind} {d e m n : Nat}

@[simp] theorem depth_nil : depth d [] = some d := rfl

@[simp] theorem depth_cons : depth d (k :: ks) = (k.nest d).bind (depth · ks) := rfl

theorem depth_append : depth d (ks ++ ls) = (depth d ks).bind (depth · ls) := List.foldlM_append

theorem depth_cons_some : depth d (k :: ks) = some e ↔ ∃ c, k.nest d = some c ∧ depth c ks = some e :=
  Option.bind_eq_some_iff

theorem depth_append_some :
    depth d (ks ++ ls) = some e ↔ ∃ c, depth d ks = some c ∧ depth c ls = some e := by
  rw [depth_append, Option.bind_eq_some_iff]

/-- The three ways in which a token matters. -/
theorem nest_cases (k : Kind) : (k = .leftBrace ∧ ∀ d, k.nest d = some (d + 1)) ∨
    (k = .rightBrace ∧ k.nest 0 = none ∧ ∀ d, k.nest (d + 1) = some d) ∨
    (k ≠ .leftBrace ∧ k ≠ .rightBrace ∧ ∀ d, k.nest d = some d) := by
  cases k <;> simp [nest]

theorem depth_count (h : depth d ks = some e) :
    ks.count .leftBrace + d = ks.count .rightBrace + e := by
  induction ks generalizing d with
  | nil => simpa using h
  | cons k ks ih =>
    obtain ⟨c, hc, h⟩ := depth_cons_some.mp h
    have rest := ih h
    rcases nest_cases k with ⟨rfl, step⟩ | ⟨rfl, zero, step⟩ | ⟨open_, close, step⟩
    · rw [step] at hc
      cases hc
      simp only [List.count_cons_self, List.count_cons_of_ne (show Kind.leftBrace ≠ .rightBrace by decide)]
      omega
    · cases d with
      | zero => rw [zero] at hc; cases hc
      | succ d =>
        rw [step] at hc
        cases hc
        simp only [List.count_cons_self, List.count_cons_of_ne (show Kind.rightBrace ≠ .leftBrace by decide)]
        omega
    · rw [step] at hc
      cases hc
      rw [List.count_cons_of_ne open_, List.count_cons_of_ne close]
      exact rest

/-- Braces that are open in front of a row of tokens stay open. -/
theorem depth_raise (m : Nat) (h : depth d ks = some e) : depth (d + m) ks = some (e + m) := by
  induction ks generalizing d with
  | nil => cases h; rfl
  | cons k ks ih =>
    obtain ⟨c, hc, h⟩ := depth_cons_some.mp h
    have rest := ih h
    have step : k.nest (d + m) = some (c + m) := by
      rcases nest_cases k with ⟨-, step⟩ | ⟨-, zero, step⟩ | ⟨-, -, step⟩
      · rw [step] at hc ⊢
        cases hc
        rw [Nat.add_right_comm]
      · cases d with
        | zero => rw [zero] at hc; cases hc
        | succ d =>
          rw [step] at hc
          cases hc
          rw [Nat.add_right_comm, step]
      · rw [step] at hc ⊢
        cases hc
        rfl
    rw [depth_cons, step]
    exact rest

/-! ## The brace that another one closes -/

/-- Of the braces that are open at the end, the one behind which `m` others are. -/
theorem depth_opened (h : depth 0 ks = some (m + n + 1)) :
    ∃ before inner, ks = before ++ .leftBrace :: inner ∧ depth 0 inner = some m := by
  induction ks using List.reverseRecOn generalizing m n with
  | nil => cases h
  | append_singleton ks k ih =>
    obtain ⟨c, hc, h⟩ := depth_append_some.mp h
    obtain ⟨last, hl, e⟩ := depth_cons_some.mp h
    obtain rfl : last = m + n + 1 := Option.some.inj e
    have further {m' : Nat} (n' : Nat) (same : c = m' + n' + 1) (step : k.nest m' = some m) :
        ∃ before inner, ks ++ [k] = before ++ .leftBrace :: inner ∧ depth 0 inner = some m := by
      obtain ⟨before, inner, rfl, hi⟩ := ih (same ▸ hc)
      refine ⟨before, inner ++ [k], by simp, ?_⟩
      rw [depth_append, hi]
      simpa using step
    rcases nest_cases k with ⟨rfl, step⟩ | ⟨rfl, zero, step⟩ | ⟨-, -, step⟩
    · rw [step] at hl
      have same := Option.some.inj hl
      cases m with
      | zero => exact ⟨ks, [], rfl, rfl⟩
      | succ m => exact further n (by omega) (step m)
    · cases c with
      | zero => rw [zero] at hl; cases hl
      | succ c =>
        rw [step] at hl
        have same := Option.some.inj hl
        exact further n (by omega) (step m)
    · rw [step] at hl
      exact further n (Option.some.inj hl) (step m)

/-- The token that closes a brace on which `m` others are. -/
theorem depth_closed (h : depth (m + n + 1) ks = some e) (short : e ≤ n) :
    ∃ inner after, ks = inner ++ .rightBrace :: after ∧ depth m inner = some 0 := by
  induction ks generalizing m with
  | nil =>
    have := Option.some.inj h
    omega
  | cons k ks ih =>
    obtain ⟨c, hc, h⟩ := depth_cons_some.mp h
    have further {m' : Nat} (same : c = m' + n + 1) (step : k.nest m = some m') :
        ∃ inner after, k :: ks = inner ++ .rightBrace :: after ∧ depth m inner = some 0 := by
      obtain ⟨inner, after, rfl, hi⟩ := ih (same ▸ h)
      exact ⟨k :: inner, after, rfl, by rw [depth_cons, step]; exact hi⟩
    rcases nest_cases k with ⟨rfl, step⟩ | ⟨rfl, zero, step⟩ | ⟨-, -, step⟩
    · rw [step] at hc
      have same := Option.some.inj hc
      exact further (by omega) (step m)
    · cases m with
      | zero => exact ⟨[], ks, rfl, rfl⟩
      | succ m =>
        rw [show m + 1 + n + 1 = m + n + 1 + 1 by omega, step] at hc
        exact further (Option.some.inj hc).symm (step m)
    · rw [step] at hc
      exact further (Option.some.inj hc).symm (step m)

/-- Where tokens are cut that close what they open, a brace is open if and only if the one
that closes it stands behind the cut. -/
theorem depth_split (whole : depth 0 (ks ++ ls) = some 0) : ∃ n, depth 0 ks = some n ∧
    (n ≠ 0 ↔ ∃ before inner inner' after, ks = before ++ .leftBrace :: inner ∧
      ls = inner' ++ .rightBrace :: after ∧ depth 0 (inner ++ inner') = some 0) := by
  obtain ⟨n, hn, rest⟩ := depth_append_some.mp whole
  refine ⟨n, hn, fun some => ?_, ?_⟩
  · obtain ⟨n, rfl⟩ := Nat.exists_eq_succ_of_ne_zero some
    obtain ⟨before, inner, eb, hi⟩ := depth_opened (m := 0) (n := n) (by simpa using hn)
    obtain ⟨inner', after, ea, hi'⟩ := depth_closed (m := 0) (n := n) (by simpa using rest) (Nat.zero_le n)
    refine ⟨before, inner, inner', after, eb, ea, ?_⟩
    rw [depth_append, hi]
    exact hi'
  · rintro ⟨before, inner, inner', after, rfl, -, balanced⟩
    obtain ⟨b, -, reached⟩ := depth_append_some.mp hn
    obtain ⟨i, hi, -⟩ := depth_append_some.mp balanced
    have raised := depth_raise (b + 1) hi
    rw [Nat.zero_add] at raised
    obtain ⟨c, hc, reached⟩ := depth_cons_some.mp reached
    obtain rfl : b + 1 = c := Option.some.inj hc
    rw [raised] at reached
    have := Option.some.inj reached
    omega

end Kind

/-! ## The grammar -/

namespace Grammar

open Kind (depth depth_append)

mutual

/-- How far tokens of a form lead in and out of braces. Rules lead back to where they began. -/
def Form.Moves : Form → Nat → Nat → Prop
  | .token k, d, e => k.nest d = some e
  | .rule _, d, e => e = d
  | .seq parts, d, e => Form.AllMove parts d e
  | .oneOf choices, d, e => Form.EachMoves choices d e
  | .optional a, d, e | .many a, d, e | .listed _ a, d, e => a.Moves d d ∧ e = d

def Form.AllMove : List Form → Nat → Nat → Prop
  | [], d, e => e = d
  | a :: parts, d, e => ∃ c, a.Moves d c ∧ Form.AllMove parts c e

def Form.EachMoves : List Form → Nat → Nat → Prop
  | [], _, _ => True
  | a :: choices, d, e => a.Moves d e ∧ Form.EachMoves choices d e

end

theorem Form.EachMoves.choice {a : Form} {choices : List Form} {d e : Nat}
    (h : Form.EachMoves choices d e) (m : a ∈ choices) : a.Moves d e := by
  induction choices with
  | nil => exact absurd m List.not_mem_nil
  | cons b choices ih =>
    rcases List.mem_cons.mp m with rfl | m
    · exact h.1
    · exact ih h.2 m

theorem Rule.moves (r : Rule) (d : Nat) : r.form.Moves d d := by
  cases r <;>
    simp [Rule.form, Form.joined, Form.Moves, Form.AllMove, Form.EachMoves, Kind.nest]

theorem Derives.depth {a : Form} {ts : List Token} (h : Derives a ts) : ∀ {d e : Nat}, a.Moves d e →
    Kind.depth d (ts.map (·.kind)) = some e := by
  induction h with
  | token hk =>
    intro d e moves
    rw [List.map_cons, hk, Kind.depth_cons, show _ = some e from moves]
    rfl
  | @rule r _ _ ih =>
    intro d e moves
    obtain rfl : e = d := moves
    exact ih (r.moves e)
  | nil =>
    intro d e moves
    obtain rfl : e = d := moves
    rfl
  | cons _ _ first rest =>
    intro d e moves
    obtain ⟨c, here, there⟩ := moves
    rw [List.map_append, depth_append, first here]
    exact rest there
  | oneOf m _ ih =>
    intro d e moves
    exact ih (Form.EachMoves.choice moves m)
  | absent | done =>
    intro d e moves
    obtain ⟨-, rfl⟩ := moves
    rfl
  | present _ ih | last _ ih =>
    intro d e moves
    obtain ⟨here, rfl⟩ := moves
    exact ih here
  | more _ _ first rest =>
    intro d e moves
    obtain ⟨here, rfl⟩ := moves
    rw [List.map_append, depth_append, first here]
    exact rest ⟨here, rfl⟩
  | comma _ ht _ first rest =>
    intro d e moves
    obtain ⟨here, rfl⟩ := moves
    rw [List.map_append, depth_append, first here, List.map_cons, ht]
    exact rest ⟨here, rfl⟩

end Grammar

open Grammar

/-- A program that is read without a problem closes what it opens. -/
theorem parse_balanced {body : List Token} {last : Token} (hb : ∀ t ∈ body, t.kind ≠ .eof)
    (hl : last.kind = .eof) (quiet : (parse (body ++ [last])).errors = []) :
    Kind.depth 0 (body.map (·.kind)) = some 0 := by
  have program := (parse_quiet_iff hb hl).mp quiet
  have whole := program.depth (d := 0) (e := 0) rfl
  rw [List.map_append] at whole
  obtain ⟨n, hn, rest⟩ := Kind.depth_append_some.mp whole
  have last : Kind.depth n [Kind.eof] = some 0 := by simpa [hl] using rest
  obtain rfl : n = 0 := Option.some.inj last
  exact hn

end Lox
