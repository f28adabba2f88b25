import Lox.Proofs.Grammar.Beginning
import Lox.Proofs.Grammar.Replies

/-! # What is read without a problem has its form

A reader that reports no problem has a value, and the tokens it has taken have the
form that the reader is for. Readers are put together as forms are. -/

namespace Lox.Parse

open Grammar

variable {α β : Type}

/-- Without a problem, a reader yields a value that suits the tokens that it takes. -/
def Takes (Q : α → List Token → Prop) (p : Parse α) : Prop :=
  ∀ tokens, (p tokens).errors = [] →
    ∃ a used, (p tokens).value = some a ∧ tokens = used ++ (p tokens).rest ∧ Q a used

/-- What a reader takes without a problem has the form. -/
def Obeys (F : Form) (p : Parse α) : Prop := Takes (fun _ us => Derives F us) p

namespace Takes

variable {Q : α → List Token → Prop} {R : β → List Token → Prop} {p : Parse α}

theorem pure {a : α} (h : Q a []) : Takes Q (Pure.pure a : Parse α) :=
  fun _ _ => ⟨a, [], rfl, rfl, h⟩

theorem mono {Q' : α → List Token → Prop} (hp : Takes Q p) (h : ∀ a us, Q a us → Q' a us) :
    Takes Q' p := by
  intro tokens quiet
  obtain ⟨a, us, hv, e, hQ⟩ := hp tokens quiet
  exact ⟨a, us, hv, e, h a us hQ⟩

theorem bind {f : α → Parse β} (hp : Takes Q p)
    (hf : ∀ a us, Q a us → Takes (fun b vs => R b (us ++ vs)) (f a)) : Takes R (p >>= f) := by
  intro tokens quiet
  change (Parse.bind p f tokens).errors = [] at quiet
  change ∃ b used, (Parse.bind p f tokens).value = some b ∧
    tokens = used ++ (Parse.bind p f tokens).rest ∧ R b used
  unfold Parse.bind at quiet ⊢
  split at quiet
  · rename_i he
    obtain ⟨a, us, hv, -⟩ := hp tokens (by rw [he]; exact quiet)
    rw [he] at hv
    cases hv
  · rename_i a rest errors he
    obtain ⟨first, second⟩ := List.append_eq_nil_iff.mp quiet
    obtain ⟨a', us, hv, e, hQ⟩ := hp tokens (by rw [he]; exact first)
    rw [he] at hv e
    cases hv
    obtain ⟨b, vs, hv', e', hR⟩ := hf a us hQ rest second
    refine ⟨b, us ++ vs, ?_, ?_, hR⟩
    · simpa [he] using hv'
    · have e' : rest = vs ++ (f a rest).rest := e'
      rw [List.append_assoc, ← e']
      exact e

/-- A reader that takes nothing only chooses what goes on. -/
theorem look {f : α → Parse β} (hp : Takes (fun _ us => us = []) p) (hf : ∀ a, Takes R (f a)) :
    Takes R (p >>= f) := by
  refine hp.bind fun a us e => ?_
  rw [e]
  exact hf a

theorem map {f : α → β} (hp : Takes Q p) (hf : ∀ a us, Q a us → R (f a) us) : Takes R (f <$> p) := by
  refine hp.bind fun a us hQ => pure ?_
  rw [List.append_nil]
  exact hf a us hQ

theorem bounded {p : List Token → Parse α} (h : ∀ bound, Takes Q (p bound)) :
    Takes Q (Parse.bounded p) := fun tokens => h tokens tokens

end Takes

theorem report_takes {Q : Unit → List Token → Prop} (problem : SyntaxProblem) (token : Option Token) :
    Takes Q (report problem token) := fun _ quiet => by cases quiet

theorem reject_takes {Q : α → List Token → Prop} (problem : SyntaxProblem) :
    Takes Q (reject problem) := fun _ quiet => by cases quiet

theorem atKind_takes (kind : Kind) : Takes (fun _ us => us = []) (atKind kind) :=
  fun _ _ => ⟨_, [], rfl, rfl, rfl⟩

theorem endsAt_takes (kind : Kind) : Takes (fun _ us => us = []) (endsAt kind) :=
  fun _ _ => ⟨_, [], rfl, rfl, rfl⟩

/-- What an attempt to take a token takes. -/
def Taken (test : Kind → Bool) (o : Option Token) (us : List Token) : Prop :=
  us = o.toList ∧ ∀ t ∈ o, test t.kind = true

theorem take?_takes (test : Kind → Bool) : Takes (Taken test) (take? test) := by
  intro tokens _
  cases tokens with
  | nil => exact ⟨none, [], rfl, rfl, rfl, fun t h => by cases h⟩
  | cons t rest =>
    simp only [take?]
    split
    · rename_i ht
      exact ⟨some t, [t], rfl, rfl, rfl, fun u h => by cases h; exact ht⟩
    · exact ⟨none, [], rfl, rfl, rfl, fun u h => by cases h⟩

theorem expect_takes (kind : Kind) (problem : SyntaxProblem) :
    Takes (fun t us => us = [t] ∧ t.kind = kind) (expect kind problem) := by
  refine (take?_takes _).bind fun o us h => ?_
  cases o with
  | none => exact reject_takes _
  | some t =>
    refine .pure ⟨?_, by simpa using h.2 t rfl⟩
    rw [h.1]
    rfl

theorem unaryOperators_takes :
    Takes (fun ops us => us = ops ∧ ∀ op ∈ ops, isUnary op.kind = true) unaryOperators := by
  intro tokens _
  refine ⟨_, _, rfl, List.takeWhile_append_dropWhile.symm, rfl, ?_⟩
  intro op hm
  exact List.all_eq_true.mp List.all_takeWhile op hm

namespace Obeys

variable {F a b : Form} {parts : List Form} {p : Parse α} {kind : Kind}

theorem expect (problem : SyntaxProblem) : Obeys (.token kind) (expect kind problem) :=
  (expect_takes kind problem).mono fun t us h => by
    rw [h.1]
    exact .token h.2

theorem pure {x : α} : Obeys (.seq []) (Pure.pure x : Parse α) := Takes.pure .nil

theorem seq {f : α → Parse β} (hp : Obeys a p) (hf : ∀ x, Obeys (.seq parts) (f x)) :
    Obeys (.seq (a :: parts)) (p >>= f) :=
  Takes.bind hp fun x _ h => (hf x).mono fun _ _ k => .cons h k

theorem map {f : α → β} (hp : Obeys F p) : Obeys F (f <$> p) := Takes.map hp fun _ _ h => h

theorem rule {r : Rule} (hp : Obeys r.form p) : Obeys (.rule r) p := hp.mono fun _ _ h => .rule h

/-- A part that is there if a token stands in front of it. Either way the same goes on. -/
theorem clause {γ : Type} {q : Parse γ} {x : γ} {g : γ → Parse α} {f : Option Token → Parse α}
    (hq : Obeys F q) (hg : ∀ c, Obeys (.seq parts) (g c)) (present : ∀ t, f (some t) = q >>= g)
    (absent : f none = Pure.pure x >>= g) :
    Obeys (.seq (.optional (.seq [.token kind, F]) :: parts)) (take? (· == kind) >>= f) := by
  refine (take?_takes _).bind fun o us h => ?_
  rw [h.1]
  cases o with
  | none =>
    rw [absent]
    exact (hg x).mono fun _ vs k => .cons .absent k
  | some t =>
    rw [present]
    have ht : t.kind = kind := by simpa using h.2 t rfl
    refine Takes.bind hq fun c vs hv => (hg c).mono fun _ ws k => ?_
    have mine : Derives (.optional (.seq [.token kind, F])) (t :: vs) := .present (.token_cons ht hv.single)
    have all : Derives (.seq (.optional (.seq [.token kind, F]) :: parts)) ((t :: vs) ++ ws) := .cons mine k
    exact all

end Obeys

theorem choose_takes {Q : α → List Token → Prop} {reader? : Token → Option (Parse α)}
    {otherwise : Parse α} (hr : ∀ t p, reader? t = some p → Takes (fun a us => Q a (t :: us)) p)
    (ho : Takes Q otherwise) : Takes Q (choose reader? otherwise) := by
  intro tokens quiet
  cases tokens with
  | nil => exact ho [] quiet
  | cons t rest =>
    simp only [choose] at quiet ⊢
    split at quiet
    · rename_i p hp
      obtain ⟨a, us, hv, e, hQ⟩ := hr t p hp rest quiet
      exact ⟨a, t :: us, hv, congrArg (t :: ·) e, hQ⟩
    · exact ho _ quiet

section Lists

variable {F : Form} {item : Parse α}

theorem unlessKind_obeys (kind : Kind) (hi : Obeys F item) :
    Obeys (.optional F) (unlessKind kind item) := by
  refine (atKind_takes kind).look fun b => ?_
  split
  · exact .pure .absent
  · exact hi.map.mono fun _ _ h => .present h

theorem untilKind_obeys (kind : Kind) (hi : Obeys F item) :
    ∀ bound, Obeys (.many F) (untilKind kind item bound)
  | [] => Takes.pure .done
  | _ :: bound => by
    refine (endsAt_takes kind).look fun b => ?_
    split
    · exact .pure .done
    · refine Takes.bind hi fun x us h => (Takes.bind (untilKind_obeys kind hi bound) fun xs vs k => ?_)
      refine .pure ?_
      simpa using Derives.more h k

/-- A list of items goes on until the kind is met, or the tokens end. -/
theorem untilKind_stops {kind : Kind} (hi : Takes (fun _ us => us ≠ []) item) :
    ∀ (bound tokens : List Token), tokens.length ≤ bound.length →
      (untilKind kind item bound tokens).errors = [] →
      ∀ t ∈ (untilKind kind item bound tokens).rest.head?, t.kind = kind := by
  intro bound
  induction bound with
  | nil =>
    intro tokens short _ t ht
    rw [List.eq_nil_of_length_eq_zero (Nat.le_zero.mp short)] at ht
    cases ht
  | cons b bound ih =>
    intro tokens short quiet
    by_cases ended : ∀ t ∈ tokens.head?, t.kind = kind
    · rw [untilKind_end ended]
      exact ended
    · cases tokens with
      | nil => exact absurd (fun t h => by cases h) ended
      | cons t tokens =>
        have ht : t.kind ≠ kind := fun e => ended fun u h => by cases h; exact e
        have elsewhere : endsAt kind (t :: tokens) = ⟨some false, t :: tokens, []⟩ := by
          simp [endsAt, ht]
        have all := quiet
        rw [untilKind, bind_reply elsewhere] at all
        have first : (item (t :: tokens)).errors = [] := bind_quiet all
        obtain ⟨a, us, hv, e, hu⟩ := hi (t :: tokens) first
        have reply : item (t :: tokens) = ⟨some a, (item (t :: tokens)).rest, []⟩ := by
          rw [← hv, ← first]
        rw [untilKind_item ht reply, (bind_pure_reply (a :: ·)).1]
        rw [untilKind_item ht reply, (bind_pure_reply (a :: ·)).2] at quiet
        refine ih _ ?_ quiet
        · have := congrArg List.length e
          have := List.length_pos_iff.mpr hu
          simp only [List.length_append, List.length_cons] at *
          omega

theorem checkRoom_takes (what : Listed) (seen : Nat) :
    Takes (fun _ us => us = [] ∧ seen < maxListed) (checkRoom what seen) := by
  unfold checkRoom
  split
  · exact fun tokens quiet => by cases quiet
  · exact .pure ⟨rfl, by omega⟩

theorem commaList_obeys (what : Listed) (hi : Obeys F item) :
    ∀ (bound : List Token) (seen : Nat),
      Obeys (.listed (maxListed - seen) F) (commaList what item seen bound)
  | [], seen => by
    refine (checkRoom_takes what seen).bind fun _ us h => Takes.bind hi fun x vs hx => .pure ?_
    have hn : maxListed - seen = maxListed - (seen + 1) + 1 := by omega
    rw [h.1, hn]
    simpa using Derives.last hx
  | _ :: bound, seen => by
    refine (checkRoom_takes what seen).bind fun _ us h => Takes.bind hi fun x vs hx =>
      (take?_takes _).bind fun o ws ho => ?_
    have hn : maxListed - seen = maxListed - (seen + 1) + 1 := by omega
    rw [h.1, hn, ho.1]
    cases o with
    | none =>
      refine .pure ?_
      simpa using Derives.last hx
    | some t =>
      refine Takes.bind (commaList_obeys what hi bound (seen + 1)) fun xs us k => .pure ?_
      have ht : t.kind = .comma := by simpa using ho.2 t rfl
      simpa using Derives.comma hx ht k

theorem parenthesised_obeys (what : Listed) (hi : Obeys F item) :
    Obeys (.optional (.listed maxListed F)) (parenthesised what item) := by
  refine (atKind_takes .rightParen).look fun b => ?_
  split
  · exact .pure .absent
  · exact Takes.bounded fun bound => (commaList_obeys what hi bound 0).mono fun _ _ h => .present h

end Lists

end Lox.Parse
