import Lox.Proofs.Sessions

/-! # What is reported

A reporter adds lines to what it has written before, and what it adds does not depend
on what is there. So do the notes and reports of a session. -/

namespace Lox

namespace Reporter

/-- A text with further lines behind it. -/
def extended (text : String) (lines : List String) : String :=
  lines.foldl (fun text line => text ++ line ++ "\n") text

theorem extended_append (text text' : String) (lines : List String) :
    extended (text ++ text') lines = text ++ extended text' lines := by
  induction lines generalizing text' with
  | nil => rfl
  | cons line rest ih =>
    simp only [extended, List.foldl_cons, String.append_assoc] at ih ⊢
    exact ih _

/-- What is written does not depend on what has been written before. -/
theorem extended_eq (text : String) (lines : List String) :
    extended text lines = text ++ extended "" lines := by
  rw [← extended_append, String.append_empty]

/-- Writes lines, which may be reports of errors. -/
def tell (r : Reporter) (lines : List String) (failed : Bool) : Reporter :=
  { r with stream := extended r.stream lines, hadError := r.hadError || failed }

variable {r : Reporter}

theorem tell_tell (first second : List String) (a b : Bool) :
    (r.tell first a).tell second b = r.tell (first ++ second) (a || b) := by
  simp only [tell, extended, List.foldl_append, Bool.or_assoc]

theorem write_eq (line : String) : r.write line = r.tell [line] false := by
  simp only [write, tell, extended, List.foldl_cons, List.foldl_nil, Bool.or_false]

theorem reportAll_eq (h : r.fatal = false) (ds : List Diagnostic) :
    r.reportAll ds = (r.tell (ds.map r.rendering) !ds.isEmpty, .done) := by
  induction ds generalizing r with
  | nil => simp only [reportAll, tell, extended, List.map_nil, List.foldl_nil, List.isEmpty_nil,
      Bool.not_true, Bool.or_false]
  | cons d rest ih =>
    have first : r.report d = (r.tell [r.rendering d] true, .done) := by
      simp only [report, ending, h, Bool.false_eq_true, if_false, write, tell, extended,
        List.foldl_cons, List.foldl_nil, Bool.or_true]
    have later := ih (r := r.tell [r.rendering d] true) h
    rw [reportAll, first]
    dsimp only
    rw [later, tell_tell]
    rfl

/-- What a reporter writes at the end of some work. -/
def closing (r : Reporter) : Option Raised → List String
  | none | some (.exit _) => []
  | some (.runtime d) => [r.rendering d]
  | some .interrupt => [r.internalRendering "keyboard interrupt"]
  | some .stackExhausted => [r.internalRendering "Stack overflow."]
  | some (.other name text) => [r.internalRendering ("unknown error: '" ++ name ++ ": " ++ text ++ "'")]

theorem closing_congr {r r' : Reporter} (h : r'.paint = r.paint) (raised : Option Raised) :
    r'.closing raised = r.closing raised := by
  rcases raised with _ | _ | _ | _ | _ | _ <;>
    simp only [closing, rendering, internalRendering, painted, h]

/-- Whatever cuts a run short is reported. -/
theorem closing_isEmpty (r : Reporter) (fault : Option Fault) :
    (r.closing (fault.map (·.raised))).isEmpty = fault.isNone := by
  cases fault with
  | none => rfl
  | some fault =>
    cases fault with
    | scope cause => cases cause <;> rfl
    | runtime _ | unresolvedSuper | superNotClass | dangling | tooDeep | unfinished => rfl

end Reporter

/-- How work ends for whoever has watched over it. -/
def Raised.ending : Option Raised → Ending
  | none | some (.runtime _) | some .interrupt => .done
  | some .stackExhausted => .exit (some ExitCode.runtime)
  | some (.exit code) => .exit code
  | some (.other name text) => .passedOn (.other name text)

/-- Work that has ended is judged by how it ended, and not by what was reported before. -/
theorem Reporter.handle_eq {r : Reporter} (h : r.fatal = false) (raised : Option Raised) :
    r.handle raised = ({ r with
      stream := extended r.stream (r.closing raised),
      hadRuntimeError := r.hadRuntimeError || !(r.closing raised).isEmpty }, Raised.ending raised) := by
  obtain ⟨paint, fatal, stream, hadError, hadRuntimeError⟩ := r
  cases h
  rcases raised with _ | _ | _ | _ | _ | _ <;>
    simp only [closing, List.isEmpty_nil, List.isEmpty_cons, Bool.not_true, Bool.not_false, Bool.or_false,
      Bool.or_true] <;> rfl

theorem Reporter.rendering_congr {r r' : Reporter} (h : r'.paint = r.paint) :
    r'.rendering = r.rendering := by
  funext d
  simp only [rendering, painted, h]

theorem Diagnostic.text_eq (d : Diagnostic) :
    d.text = "[line " ++ d.line.repr ++ "] Error" ++ d.place ++ ": " ++ d.message := rfl

/-- Without styles an error is written as its text. -/
theorem Reporter.rendering_plain {r : Reporter} (h : r.paint = none) : r.rendering = Diagnostic.text := by
  funext d
  have parts : r.rendering d =
      "[line " ++ d.line.repr ++ "]" ++ " " ++ ("Error" ++ d.place ++ ":") ++ " " ++ d.message := by
    simp only [rendering, painted, h]
    rfl
  rw [parts, Diagnostic.text_eq]
  apply String.toList_injective
  simp [String.toList_append]

namespace Session

/-- Sessions that go about their sources in the same way, with related interpreters.
The errors reported so far may differ. -/
structure Twins (I : Interpreter → Interpreter → Prop) (s t : Session) : Prop where
  name : t.name = s.name
  verbose : t.verbose = s.verbose
  paint : t.reporter.paint = s.reporter.paint
  stack : t.stack = s.stack
  left : s.reporter.fatal = false
  right : t.reporter.fatal = false
  hadRuntimeError : t.reporter.hadRuntimeError = s.reporter.hadRuntimeError
  interpreter : I s.interpreter t.interpreter

variable {s t : Session} {I : Interpreter → Interpreter → Prop}

theorem Twins.reset (h : s.Twins I t) : s.reset.Twins I t.reset := { h with hadRuntimeError := rfl }

/-- Lines about internals, as far as such lines are asked for. -/
def listed (s : Session) (lines : List String) : List String := if s.verbose then lines else []

def tell (s : Session) (lines : List String) (failed : Bool) : Session :=
  { s with reporter := s.reporter.tell lines failed }

theorem listed_congr (h : t.verbose = s.verbose) (lines : List String) : t.listed lines = s.listed lines := by
  rw [listed, listed, h]

theorem Twins.listed (h : s.Twins I t) (lines : List String) : t.listed lines = s.listed lines :=
  listed_congr h.verbose lines

theorem note_eq (line : String) : s.note line = s.tell (s.listed [line]) false := by
  unfold note listed tell
  split
  · rw [Reporter.write_eq]
  · simp only [Reporter.tell, Reporter.extended, List.foldl_nil, Bool.or_false]

theorem listed_append (first second : List String) :
    s.listed (first ++ second) = s.listed first ++ s.listed second := by
  unfold listed
  split <;> rfl

theorem listed_cons (line : String) (rest : List String) :
    s.listed (line :: rest) = s.listed [line] ++ s.listed rest := listed_append [line] rest

theorem report_eq (h : s.reporter.fatal = false) (ds : List Diagnostic) :
    s.report ds = (s.tell (ds.map s.reporter.rendering) !ds.isEmpty, .done) := by
  rw [report, Reporter.reportAll_eq h]
  rfl

theorem tell_tell (first second : List String) (a b : Bool) :
    (s.tell first a).tell second b = s.tell (first ++ second) (a || b) := by
  simp only [tell, Reporter.tell_tell]

theorem noteEvents_eq (events : Array Event) :
    s.noteEvents events = s.tell (s.listed (events.toList.map Event.line)) false := by
  rw [noteEvents, ← Array.foldl_toList]
  generalize events.toList = rest
  induction rest generalizing s with
  | nil =>
    unfold listed
    rw [List.foldl_nil, List.map_nil, ite_self]
    simp only [tell, Reporter.tell, Reporter.extended, List.foldl_nil, Bool.or_false]
  | cons e rest ih =>
    rw [List.foldl_cons, ih, note_eq, tell_tell, List.map_cons, listed_cons e.line (rest.map Event.line)]
    rfl

/-- What is left of a run is reported behind the notes on its events. -/
theorem finish_eq (h : s.reporter.fatal = false) (after : Interpreter) (fault : Option Fault) :
    s.finish after fault =
      let lines := s.listed (after.takeEvents.1.toList.map Event.line) ++
        s.reporter.closing (fault.map (·.raised))
      ({ s with
        interpreter := after.takeEvents.2
        reporter := { s.reporter with
          stream := Reporter.extended s.reporter.stream lines
          hadRuntimeError := s.reporter.hadRuntimeError ||
            !(s.reporter.closing (fault.map (·.raised))).isEmpty } }, Raised.ending (fault.map (·.raised))) := by
  let told := ({ s with interpreter := after.takeEvents.2 } : Session).tell
    (s.listed (after.takeEvents.1.toList.map Event.line)) false
  have fatal : told.reporter.fatal = false := h
  have handled := Reporter.handle_eq fatal (fault.map (·.raised))
  have noted : ({ s with interpreter := after.takeEvents.2 } : Session).noteEvents after.takeEvents.1 =
    told := noteEvents_eq _
  unfold finish
  dsimp only
  rw [noted, handled]
  simp only [told, tell, Reporter.tell, Bool.or_false, Reporter.extended, List.foldl_append]
  rfl

end Session

end Lox
