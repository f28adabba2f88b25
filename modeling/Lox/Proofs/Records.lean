import Mathlib.Data.List.Induction
import Lox.Proofs.Reports

/-! # What a reporter remembers

Whatever is asked of a reporter, and in whatever order, its stream holds a line for each
error that has been reported, and its flags tell which sorts of errors there have been since
it was last reset. A fatal reporter gets no further than one error in a call. -/

namespace Lox

/-- Whether the program is at its end. -/
def Ending.Exits : Ending → Prop
  | .exit _ => True
  | .done | .passedOn _ => False

namespace Reporter

/-- An error on its way to the stream. -/
inductive Report where
  | static (d : Diagnostic)
  | runtime (d : Diagnostic)
  | internal (text : String)

namespace Report

def isStatic : Report → Bool
  | static _ => true
  | runtime _ | internal _ => false

/-- The exit code of a program that an error ends. -/
def code (e : Report) : Nat := if e.isStatic then 65 else 70

/-- The line of an error where nothing is styled. -/
def text : Report → String
  | static d | runtime d => d.text
  | internal text => "[internal] " ++ text

end Report

/-- The line that a reporter writes for an error. -/
def line (r : Reporter) : Report → String
  | .static d | .runtime d => r.rendering d
  | .internal text => r.internalRendering text

/-- What can be asked of a reporter: `watch` is work under its eyes, with what cut it short. -/
inductive Call where
  | report (d : Diagnostic)
  | reportAll (ds : List Diagnostic)
  | reportRuntime (d : Diagnostic)
  | reportInternal (text : String)
  | reset
  | watch (raised : Option Raised)

namespace Call

/-- The errors that a call is about, in order. -/
def reports : Call → List Report
  | report d => [.static d]
  | reportAll ds => ds.map .static
  | reportRuntime d | watch (some (.runtime d)) => [.runtime d]
  | reportInternal text => [.internal text]
  | watch (some .interrupt) => [.internal "keyboard interrupt"]
  | watch (some .stackExhausted) => [.internal "Stack overflow."]
  | watch (some (.other name text)) => [.internal ("unknown error: '" ++ name ++ ": " ++ text ++ "'")]
  | reset | watch none | watch (some (.exit _)) => []

/-- A fatal reporter stops at the first error. -/
def written (fatal : Bool) (c : Call) : List Report := if fatal then c.reports.take 1 else c.reports

/-- How a call ends where no report ends the program. -/
def ending : Call → Ending
  | watch raised => Raised.ending raised
  | report _ | reportAll _ | reportRuntime _ | reportInternal _ | reset => .done

/-- How a call ends. -/
def ended (fatal : Bool) (c : Call) : Ending :=
  match c.reports with
  | e :: _ => if fatal then .exit (some e.code) else c.ending
  | [] => c.ending

theorem written_reset (fatal : Bool) : reset.written fatal = [] := by cases fatal <;> rfl

theorem ended_false (c : Call) : c.ended false = c.ending := by
  unfold ended
  split <;> rfl

end Call

/-- Answers one call. -/
def take (r : Reporter) : Call → Reporter × Ending
  | .report d => r.report d
  | .reportAll ds => r.reportAll ds
  | .reportRuntime d => r.reportRuntime d
  | .reportInternal text => r.reportInternal text
  | .reset => (r.reset, .done)
  | .watch raised => r.handle raised

/-- Answers calls one after the other, whatever comes of them. -/
def takeAll (r : Reporter) : List Call → Reporter × List Ending
  | [] => (r, [])
  | c :: rest =>
    let (r, ending) := r.take c
    let (r, endings) := r.takeAll rest
    (r, ending :: endings)

/-! ## One call -/

/-- A reporter with some more errors on its stream. -/
def record (r : Reporter) (es : List Report) : Reporter :=
  { r with
    stream := extended r.stream (es.map r.line)
    hadError := r.hadError || es.any (·.isStatic)
    hadRuntimeError := r.hadRuntimeError || es.any (!·.isStatic) }

variable {r : Reporter} {c : Call} {calls : List Call}

theorem record_nil (r : Reporter) : r.record [] = r := by
  simp only [record, extended, List.map_nil, List.foldl_nil, List.any_nil, Bool.or_false]

theorem line_record (es : List Report) : (r.record es).line = r.line := by
  have rendering : (r.record es).rendering = r.rendering := rendering_congr rfl
  funext e
  cases e with
  | static d | runtime d => exact congrFun rendering d
  | internal text => rfl

theorem record_record (es more : List Report) : (r.record es).record more = r.record (es ++ more) := by
  rw [record, line_record]
  simp only [record, extended, List.map_append, List.foldl_append, List.any_append, Bool.or_assoc]

theorem report_eq_record (d : Diagnostic) : r.report d = (r.record [.static d], r.ending 65) := by
  simp [report, record, write, extended, line, Report.isStatic, ExitCode.static]

theorem reportRuntime_eq_record (d : Diagnostic) :
    r.reportRuntime d = (r.record [.runtime d], r.ending 70) := by
  simp [reportRuntime, record, write, extended, line, Report.isStatic, ExitCode.runtime]

theorem reportInternal_eq_record (text : String) :
    r.reportInternal text = (r.record [.internal text], r.ending 70) := by
  simp [reportInternal, record, write, extended, line, Report.isStatic, ExitCode.runtime]

theorem reportAll_eq_record (ds : List Diagnostic) : r.reportAll ds =
    if r.fatal then (r.record ((ds.map .static).take 1), if ds.isEmpty then .done else .exit (some 65))
    else (r.record (ds.map .static), .done) := by
  induction ds generalizing r with
  | nil => simp only [reportAll, List.map_nil, List.take_nil, record_nil, List.isEmpty_nil, if_true, ite_self]
  | cons d rest ih =>
    rw [reportAll, report_eq_record, ending]
    cases fatal : r.fatal with
    | true => rfl
    | false =>
      have calm : (r.record [.static d]).fatal = false := fatal
      simp only [Bool.false_eq_true, if_false, ih, calm, record_record, List.map_cons, List.singleton_append]

/-- What is recorded of a call, and how it ends. -/
theorem take_eq (c : Call) (keeps : c ≠ .reset) : r.take c =
    (r.record (c.written r.fatal), c.ended r.fatal) := by
  cases c with
  | report d =>
    rw [take, report_eq_record, ending]
    cases r.fatal <;> rfl
  | reportAll ds =>
    rw [take, reportAll_eq_record]
    cases r.fatal <;> cases ds <;> rfl
  | reportRuntime d =>
    rw [take, reportRuntime_eq_record, ending]
    cases r.fatal <;> rfl
  | reportInternal text =>
    rw [take, reportInternal_eq_record, ending]
    cases r.fatal <;> rfl
  | reset => exact absurd rfl keeps
  | watch raised =>
    rw [take]
    rcases raised with _ | d | _ | _ | code | ⟨name, text⟩
    case none | some.exit =>
      simp only [handle, Call.written, Call.reports, List.take_nil, ite_self, record_nil]
      rfl
    case some.runtime =>
      rw [handle, reportRuntime_eq_record, ending]
      cases r.fatal <;> rfl
    case some.interrupt | some.stackExhausted | some.other =>
      rw [handle, reportInternal_eq_record, ending]
      cases r.fatal <;> rfl

/-! ## What is asked one after the other -/

theorem takeAll_concat (r : Reporter) (calls : List Call) (c : Call) :
    r.takeAll (calls ++ [c]) = (((r.takeAll calls).1.take c).1,
      (r.takeAll calls).2 ++ [((r.takeAll calls).1.take c).2]) := by
  induction calls generalizing r with
  | nil => rfl
  | cons d rest ih =>
    rw [List.cons_append, takeAll, takeAll]
    dsimp only
    rw [ih]
    rfl

/-- There is a call of the sort behind which the reporter has not been reset. -/
def Lately (P : Call → Prop) (calls : List Call) : Prop :=
  ∃ before c after, calls = before ++ c :: after ∧ .reset ∉ after ∧ P c

theorem lately_concat {P : Call → Prop} : Lately P (calls ++ [c]) ↔ P c ∨ c ≠ .reset ∧ Lately P calls := by
  constructor
  · rintro ⟨before, d, after, parts, since, h⟩
    rcases List.eq_nil_or_concat after with rfl | ⟨after, last, rfl⟩
    · obtain ⟨-, rfl⟩ := List.append_singleton_inj.mp parts
      exact .inl h
    · have split : calls ++ [c] = (before ++ d :: after) ++ [last] := by rw [parts]; simp
      obtain ⟨earlier, rfl⟩ := List.append_singleton_inj.mp split
      rw [List.concat_eq_append, List.mem_append, not_or, List.mem_singleton] at since
      exact .inr ⟨fun e => since.2 e.symm, before, d, after, earlier, since.1, h⟩
  · rintro (h | ⟨keeps, before, d, after, rfl, since, h⟩)
    · exact ⟨calls, c, [], rfl, List.not_mem_nil, h⟩
    · exact ⟨before, d, after ++ [c], by simp, by simp [since, keeps.symm], h⟩

/-- What a reporter has recorded of all that has been asked of it. -/
structure Recorded (paint : Option Paint) (fatal : Bool) (calls : List Call) (r : Reporter) : Prop where
  samePaint : r.paint = paint
  sameFatal : r.fatal = fatal
  stream : r.stream = extended "" ((calls.flatMap (·.written fatal)).map r.line)
  hadError : r.hadError = true ↔ Lately (fun c => ∃ e ∈ c.written fatal, e.isStatic = true) calls
  hadRuntimeError :
    r.hadRuntimeError = true ↔ Lately (fun c => ∃ e ∈ c.written fatal, e.isStatic = false) calls

variable {paint : Option Paint} {fatal : Bool}

theorem not_lately_nil {P : Call → Prop} : ¬ Lately P [] := by
  rintro ⟨before, c, after, parts, -⟩
  exact List.append_ne_nil_of_right_ne_nil before (List.cons_ne_nil c after) parts.symm

theorem Recorded.begin (paint : Option Paint) (fatal : Bool) : Recorded paint fatal [] (begin paint fatal) where
  samePaint := rfl
  sameFatal := rfl
  stream := rfl
  hadError := iff_of_false Bool.false_ne_true not_lately_nil
  hadRuntimeError := iff_of_false Bool.false_ne_true not_lately_nil

/-- One more call adds its errors, or takes back the flags. -/
theorem Recorded.take (h : Recorded paint fatal calls r) (c : Call) :
    Recorded paint fatal (calls ++ [c]) (r.take c).1 := by
  by_cases keeps : c = .reset
  · subst keeps
    have none (b : Bool) : ¬ Lately (fun c => ∃ e ∈ c.written fatal, e.isStatic = b) (calls ++ [.reset]) := by
      rw [lately_concat, Call.written_reset]
      simp
    refine ⟨h.samePaint, h.sameFatal, ?_, iff_of_false Bool.false_ne_true (none true),
      iff_of_false Bool.false_ne_true (none false)⟩
    rw [List.flatMap_append, List.flatMap_singleton, Call.written_reset, List.append_nil]
    exact h.stream
  · have flag {b : Bool} : Lately (fun c => ∃ e ∈ c.written fatal, e.isStatic = b) (calls ++ [c]) ↔
        Lately (fun c => ∃ e ∈ c.written fatal, e.isStatic = b) calls ∨ ∃ e ∈ c.written fatal, e.isStatic = b := by
      rw [lately_concat, or_comm, and_iff_right keeps]
    rw [take_eq c keeps, h.sameFatal]
    refine ⟨h.samePaint, h.sameFatal, ?_, ?_, ?_⟩
    · rw [line_record, List.flatMap_append, List.flatMap_singleton, List.map_append, extended,
        List.foldl_append]
      exact congrArg (extended · _) h.stream
    · simp [record, flag, h.hadError]
    · simp [record, flag, h.hadRuntimeError]

theorem Recorded.takeAll (paint : Option Paint) (fatal : Bool) (calls : List Call) :
    Recorded paint fatal calls ((Reporter.begin paint fatal).takeAll calls).1 := by
  induction calls using List.reverseRecOn with
  | nil => exact .begin paint fatal
  | append_singleton calls c ih =>
    rw [takeAll_concat]
    exact ih.take c

theorem Recorded.line_plain (h : Recorded none fatal calls r) : r.line = Report.text := by
  funext e
  cases e with
  | static d | runtime d => exact congrFun (rendering_plain h.samePaint) d
  | internal text =>
    change r.painted _ _ ++ _ = _
    rw [painted, h.samePaint]
    rfl

/-- Where nothing ends the program, no call is cut short. -/
theorem written_of_calm (r : Reporter) (calls : List Call) (calm : ∀ e ∈ (r.takeAll calls).2, ¬ e.Exits) :
    ∀ c ∈ calls, c.written r.fatal = c.reports := by
  induction calls generalizing r with
  | nil => exact fun _ m => absurd m List.not_mem_nil
  | cons c rest ih =>
    rw [takeAll] at calm
    obtain ⟨first, others⟩ := List.forall_mem_cons.mp calm
    by_cases keeps : c = .reset
    · subst keeps
      exact List.forall_mem_cons.mpr ⟨Call.written_reset r.fatal, ih r.reset others⟩
    · rw [take_eq c keeps] at first others
      have later : ∀ d ∈ rest, d.written r.fatal = d.reports := ih (r.record _) others
      refine List.forall_mem_cons.mpr ⟨?_, later⟩
      cases fatal : r.fatal with
      | false => rfl
      | true =>
        cases some : c.reports with
        | nil => rw [Call.written, some, List.take_nil, ite_self]
        | cons e more =>
          rw [Call.ended, some, fatal] at first
          exact absurd trivial first

/-- Calls of all sorts are answered in any order, and what is not fatal goes on. The stream
holds a line for each error, in order, and the flags tell the sorts of those since the last
reset. Runtime errors and interrupts of watched work are swallowed, and nothing else is. A
fatal reporter writes the first error of a call and ends the program with the code of it. -/
theorem calls_are_recorded (paint : Option Paint) (fatal : Bool) (calls : List Call) :
    let ran := (begin paint fatal).takeAll calls
    Recorded paint fatal calls ran.1 ∧ (paint = none → ran.1.line = Report.text) ∧
    ((∀ e ∈ ran.2, ¬ e.Exits) → ∀ c ∈ calls, c.written fatal = c.reports) ∧
    (∀ code, ran.1.take (.watch (some (.exit code))) = (ran.1, .exit code)) ∧
    (fatal = false →
      (∀ raised, (ran.1.take (.watch raised)).2 = .done ↔
        raised = none ∨ (∃ d, raised = some (.runtime d)) ∨ raised = some .interrupt) ∧
      (ran.1.take (.watch (some .stackExhausted))).2 = .exit (some 70) ∧
      (∀ name text, (ran.1.take (.watch (some (.other name text)))).2 = .passedOn (.other name text)) ∧
      ∀ c, (∀ raised, c ≠ .watch raised) → (ran.1.take c).2 = .done) ∧
    (fatal = true → ∀ c,
      (c.reports = [] → (ran.1.take c).1.stream = ran.1.stream) ∧
      ∀ e rest, c.reports = e :: rest → (ran.1.take c).2 = .exit (some (if e.isStatic then 65 else 70)) ∧
        (ran.1.take c).1 = { ran.1 with
          stream := ran.1.stream ++ ran.1.line e ++ "\n"
          hadError := ran.1.hadError || e.isStatic
          hadRuntimeError := ran.1.hadRuntimeError || !e.isStatic }) := by
  intro ran
  have recorded : Recorded paint fatal calls ran.1 := .takeAll paint fatal calls
  refine ⟨recorded, fun plain => (plain ▸ recorded).line_plain, written_of_calm _ calls, fun _ => rfl,
    fun goes => ⟨fun raised => ?_, ?_, fun name text => ?_, fun c other => ?_⟩,
    fun stops c => ⟨fun none => ?_, fun e rest some => ?_⟩⟩
  all_goals have fatal := recorded.sameFatal
  · rw [take_eq _ Call.noConfusion, fatal, goes, Call.ended_false]
    rcases raised with _ | d | _ | _ | code | ⟨name, text⟩ <;> simp [Call.ending, Raised.ending]
  · rw [take_eq _ Call.noConfusion, fatal, goes, Call.ended_false]
    rfl
  · rw [take_eq _ Call.noConfusion, fatal, goes, Call.ended_false]
    rfl
  · by_cases keeps : c = .reset
    · subst keeps
      rfl
    · rw [take_eq c keeps, fatal, goes, Call.ended_false]
      cases c with
      | watch raised => exact absurd rfl (other raised)
      | report _ | reportAll _ | reportRuntime _ | reportInternal _ | reset => rfl
  · by_cases keeps : c = .reset
    · subst keeps
      rfl
    · rw [take_eq c keeps, Call.written, none, List.take_nil, ite_self, record_nil]
  · have keeps : c ≠ .reset := by
      rintro rfl
      exact List.cons_ne_nil e rest some.symm
    rw [take_eq c keeps, Call.written, Call.ended, some, fatal, stops]
    refine ⟨?_, ?_⟩
    · cases e <;> rfl
    · simp [record, extended]

end Reporter

end Lox
