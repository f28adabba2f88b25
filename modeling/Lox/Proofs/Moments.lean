import Lox.Proofs.Visiting
import Lox.Proofs.Growth
import Lox.Proofs.Refusals

/-! # What comes after a moment of a run

A run goes through the state of each deed that it comes to. What there is in such a state
there is at the end of the run, and so in all that follows in the same session. -/

namespace Lox

namespace Run

variable {α β : Type}

/-- A run that adds to a machine, and adds to each of the states that it goes through. -/
structure Tracing (x : Watch → Run α) : Prop where
  visiting : Visiting x
  adds (w : Watch) : (x w).Adds
  leads {m m' : Machine} {d : Deed} (h : ∀ stop, ∃ after, x (.only d m' stop) m = .error stop after) :
    m'.Precedes ((x .idle).after m)

/-- No run ends with every fault. -/
theorem not_all_faults {r : EStateM.Result Fault Machine α} (h : ∀ stop, ∃ after, r = .error stop after) :
    False := by
  obtain ⟨_, one⟩ := h .dangling
  obtain ⟨_, other⟩ := h .tooDeep
  rw [one] at other
  cases other

/-- A moment of a sequence is one of the first part, or one of the rest. -/
theorem Tracing.bind {x : Watch → Run α} {f : Watch → α → Run β} (hx : Tracing x)
    (hf : ∀ a, Tracing fun w => f w a) : Tracing fun w => x w >>= f w where
  visiting := hx.visiting.bind fun a => (hf a).visiting
  adds w := (hx.adds w).bind fun a => (hf a).adds w
  leads {m m' d} h := by
    obtain ⟨V, visits⟩ := hx.visiting m
    have rest : (x .idle).after m |>.Precedes ((x .idle >>= f .idle).after m) := by
      cases plain : x .idle m with
      | error fault m₁ =>
        rw [after_error plain, after_error (bind_error plain)]
        exact .refl m₁
      | ok a m₁ =>
        rw [after_ok plain, after_bind plain]
        exact (hf a).adds .idle m₁
    by_cases early : V d m'
    · have here : ∀ stop, ∃ after, x (.only d m' stop) m = .error stop after := by
        obtain ⟨c, error⟩ := visits.stopped_only early
        exact fun stop => ⟨_, error stop⟩
      exact (hx.leads here).trans rest
    · have before : ∀ stop, x (.only d m' stop) m = x .idle m := fun stop => visits.passed_only stop early
      cases plain : x .idle m with
      | error fault m₁ =>
        refine (not_all_faults (α := β) (r := .error fault m₁) fun stop => ?_).elim
        obtain ⟨after, error⟩ := h stop
        rw [bind_error ((before stop).trans plain)] at error
        exact ⟨after, error⟩
      | ok a m₁ =>
        rw [after_bind plain]
        refine (hf a).leads (m := m₁) (d := d) fun stop => ?_
        obtain ⟨after, error⟩ := h stop
        rw [bind_ok ((before stop).trans plain)] at error
        exact ⟨after, error⟩

theorem Tracing.within {x : Watch → Run α} (h : Tracing x) (scope : Ref .scope) :
    Tracing fun w => within scope (x w) where
  visiting := closed_visiting.within scope h.visiting
  adds w := adds_within scope (h.adds w)
  leads {m m' d} hs := by
    have inner : m'.Precedes ((x .idle).after { m with current := scope }) := by
      refine h.leads (d := d) fun stop => ?_
      obtain ⟨after, error⟩ := hs stop
      rw [within_eq, ensuring] at error
      cases result : x (.only d m' stop) { m with current := scope } with
      | ok a m₁ => rw [result] at error; cases error
      | error fault m₁ =>
        rw [result] at error
        cases error
        exact ⟨m₁, rfl⟩
    rw [after_within]
    exact inner.trans (.of_eq rfl rfl rfl rfl)

/-- A run that stops in front of a deed has come to its state. -/
theorem Tracing.before {x : Watch → Run α} (d : Deed) (h : Tracing x) : Tracing fun w => w.before d (x w) where
  visiting := h.visiting.before d
  adds w := closed_adds.before w d (x := fun _ => x w) (h.adds w)
  leads {m m' y} hs := by
    rw [Watch.before_idle]
    by_cases now : d = y ∧ m = m'
    · exact now.2 ▸ h.adds .idle m
    · refine h.leads (d := y) fun stop => ?_
      obtain ⟨after, error⟩ := hs stop
      have passed : ¬ (Watch.only y m' stop).stops d m := fun stops => now (Watch.of_stops.mp stops)
      exact ⟨after, (Watch.before_passed passed).symm.trans error⟩

end Run

section Programs

open Run

variable {limits : Limits} {code : List (Stmt Nat)} {start m : Machine} {d : Deed}

/-- Stopped in front of a deed, a program has come to the state of it. -/
theorem ComesTo.reached (h : ComesTo limits code start d m) : ∃ (w : Watch) (c : Ref .scope),
    (Run.statements (w.level limits.rounds limits.depth) code).after start = { m with current := c } := by
  obtain ⟨c, error⟩ := h.stopped
  exact ⟨_, c, after_error (error .dangling)⟩

end Programs

end Lox
