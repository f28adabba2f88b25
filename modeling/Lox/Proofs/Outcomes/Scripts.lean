import Lox.CommandLine.Program
import Lox.Proofs.Outcomes.Stacks
import Lox.Proofs.Outcomes.Verdicts
import Mathlib.Data.List.Induction

/-! # What verdicts decide

The flags of a session tell which verdicts there have been since they were reset. A script is
one unit of a session of its own, and its verdict is its exit code. -/

namespace Lox

namespace Session

variable {s : Session} {source : String} {requests : List Request} {P : Session → String → Prop}

/-- The source is executed and does not come to its end. -/
def Stopped (s : Session) (source : String) : Prop :=
  (∃ error, s.Ends source (.failed error)) ∨ s.Ends source .overflowed

/-- A session runs some source of that kind, and is not reset any more. -/
def SomeSinceReset (P : Session → String → Prop) (s : Session) (requests : List Request) : Prop :=
  ∃ earlier source later, requests = earlier ++ .run source :: later ∧ .reset ∉ later ∧
    P (s.answerAll earlier).1 source

/-- Every source that is asked for finishes when its turn comes. -/
def AllFinish (s : Session) (requests : List Request) : Prop :=
  ∀ earlier source later, requests = earlier ++ .run source :: later →
    (s.answerAll earlier).1.Finishes source

/-- What is asked for last is a source, or it stands behind the source in question. -/
theorem append_eq_append_run {last : Request} {earlier later : List Request}
    (e : requests ++ [last] = earlier ++ .run source :: later) :
    (last = .run source ∧ later = [] ∧ requests = earlier) ∨
      ∃ between, later = between ++ [last] ∧ requests = earlier ++ .run source :: between := by
  rcases later.eq_nil_or_concat' with rfl | ⟨between, final, rfl⟩
  · obtain ⟨same, e⟩ := List.append_inj' e rfl
    exact .inl ⟨List.singleton_inj.mp e, rfl, same⟩
  · rw [← List.cons_append, ← List.append_assoc] at e
    obtain ⟨same, e⟩ := List.append_inj' e rfl
    exact .inr ⟨between, by rw [List.singleton_inj.mp e], same⟩

theorem not_someSinceReset_reset : ¬ SomeSinceReset P s (requests ++ [.reset]) := by
  rintro ⟨earlier, source, later, e, clear, -⟩
  rcases append_eq_append_run e with ⟨run, -⟩ | ⟨between, rfl, -⟩
  · cases run
  · exact clear (List.mem_append_right _ (List.mem_singleton_self _))

theorem someSinceReset_run : SomeSinceReset P s (requests ++ [.run source]) ↔
    P (s.answerAll requests).1 source ∨ SomeSinceReset P s requests := by
  constructor
  · rintro ⟨earlier, other, later, e, clear, holds⟩
    rcases append_eq_append_run e with ⟨run, rfl, rfl⟩ | ⟨between, rfl, same⟩
    · cases run
      exact .inl holds
    · exact .inr ⟨earlier, other, between, same, fun h => clear (List.mem_append_left _ h), holds⟩
  · rintro (holds | ⟨earlier, other, later, rfl, clear, holds⟩)
    · exact ⟨requests, source, [], rfl, List.not_mem_nil, holds⟩
    · refine ⟨earlier, other, later ++ [.run source], by rw [List.append_assoc, List.cons_append], ?_, holds⟩
      rw [List.mem_append, List.mem_singleton]
      exact fun h => h.elim clear Request.noConfusion

/-- A run sets the flag of its verdict and leaves the other one alone. -/
theorem Ends.flags {v : Verdict} (h : s.Ends source v) :
    ((s.run source).1.reporter.hadError = true ↔ s.Ends source .refused ∨ s.reporter.hadError = true) ∧
      ((s.run source).1.reporter.hadRuntimeError = true ↔
        s.Stopped source ∨ s.reporter.hadRuntimeError = true) := by
  have other {w : Verdict} (ends : s.Ends source w) : w = v := ends.unique h
  cases v with
  | refused =>
    have kept : ¬ s.Stopped source := by rintro (⟨_, ends⟩ | ends) <;> cases other ends
    exact ⟨iff_of_true h.hadError (.inl h), by rw [h.hadRuntimeError, or_iff_right kept]⟩
  | completed =>
    have kept : ¬ s.Stopped source := by rintro (⟨_, ends⟩ | ends) <;> cases other ends
    obtain ⟨_, _, _, executed, -, flag, -⟩ := id h
    rw [executed.hadError, flag, or_iff_right kept, or_iff_right fun ends => by cases other ends]
    exact ⟨Iff.rfl, Iff.rfl⟩
  | failed error =>
    obtain ⟨_, _, _, executed, -, flag, -⟩ := id h
    rw [executed.hadError, or_iff_right fun ends => by cases other ends]
    exact ⟨Iff.rfl, iff_of_true flag (.inl (.inl ⟨error, h⟩))⟩
  | overflowed =>
    obtain ⟨_, _, _, executed, -, flag, -⟩ := id h
    rw [executed.hadError, or_iff_right fun ends => by cases other ends]
    exact ⟨Iff.rfl, iff_of_true flag (.inl (.inr h))⟩
  | exhausted =>
    have kept : ¬ s.Stopped source := by rintro (⟨_, ends⟩ | ends) <;> cases other ends
    rw [h.hadError, h.hadRuntimeError, or_iff_right kept, or_iff_right fun ends => by cases other ends]
    exact ⟨Iff.rfl, Iff.rfl⟩

/-- The flags tell of the verdicts since the last reset. -/
theorem flags_since_reset (h : s.Reachable) (clear : s.reporter.hadError = false)
    (calm : s.reporter.hadRuntimeError = false) (finish : s.AllFinish requests) :
    ((s.answerAll requests).1.reporter.hadError = true ↔
        SomeSinceReset (fun s source => s.Ends source .refused) s requests) ∧
      ((s.answerAll requests).1.reporter.hadRuntimeError = true ↔ SomeSinceReset Stopped s requests) := by
  induction requests using List.reverseRecOn with
  | nil =>
    have none {P : Session → String → Prop} : ¬ SomeSinceReset P s [] := by
      rintro ⟨earlier, _, _, e, -⟩
      exact absurd e.symm (List.append_ne_nil_of_right_ne_nil _ (List.cons_ne_nil _ _))
    exact ⟨iff_of_false (by simp [answerAll, clear]) none, iff_of_false (by simp [answerAll, calm]) none⟩
  | append_singleton requests last ih =>
    have earlier : s.AllFinish requests := by
      rintro before source after rfl
      exact finish before source (after ++ [last]) (by rw [List.append_assoc, List.cons_append])
    obtain ⟨error, runtime⟩ := ih earlier
    rw [answerAll_append]
    cases last with
    | reset => exact ⟨iff_of_false Bool.noConfusion not_someSinceReset_reset,
        iff_of_false Bool.noConfusion not_someSinceReset_reset⟩
    | run source =>
      obtain ⟨v, ends⟩ := exists_ends (h.answerAll requests) (finish requests source [] rfl)
      rw [someSinceReset_run, someSinceReset_run, ← error, ← runtime, answerAll_run, Session.answerAll]
      dsimp only
      exact ends.flags

end Session

/-- The exit code of a script with that verdict. -/
def Verdict.code : Verdict → Int
  | refused => 65
  | completed => 0
  | failed _ | overflowed => 70
  | exhausted => 1

namespace CommandLine

/-- A command line that names a file with that text, which is a script. -/
structure Names (arguments : List String) (files : Directory) (options : Options) (path source : String) :
    Prop where
  request : request arguments = .run options
  file : options.file = some path
  text : ∃ bytes text, files.read path = .ok bytes ∧ Text.decode bytes = .ok text ∧
    source = .ofList (Text.unifyNewlines text)

variable {arguments : List String} {files : Directory} {options : Options} {path source : String}

theorem Names.runOn (h : Names arguments files options path source) (host : Host) (input : String)
    (reading : Nat → Float) :
    let ran := (Session.startOn host path options.color options.verbose reading).run source
    runOn host arguments files input reading =
      ⟨scriptCode ran.1 ran.2, ran.1.interpreter.machine.output, ran.1.reporter.stream⟩ := by
  obtain ⟨bytes, text, readable, decoded, rfl⟩ := h.text
  rw [CommandLine.runOn, h.request]
  dsimp only
  rw [h.file]
  dsimp only
  rw [readable]
  dsimp only
  rw [runScript, decoded]
  dsimp only
  generalize Session.run _ _ = ran
  rfl

theorem scriptCode_of_ends {s : Session} {v : Verdict} (h : s.Ends source v) (clear : s.reporter.hadError = false)
    (calm : s.reporter.hadRuntimeError = false) : scriptCode (s.run source).1 (s.run source).2 = v.code := by
  cases v with
  | refused =>
    rw [h.ending, scriptCode, h.hadError]
    rfl
  | completed =>
    obtain ⟨_, _, _, executed, -, flag, ending⟩ := h
    rw [ending, scriptCode, executed.hadError, clear, flag, calm]
    rfl
  | failed error =>
    obtain ⟨_, _, _, executed, -, flag, ending⟩ := h
    rw [ending, scriptCode, executed.hadError, clear, flag]
    rfl
  | overflowed =>
    obtain ⟨_, _, _, -, -, -, ending⟩ := h
    rw [ending]
    rfl
  | exhausted =>
    rw [h.ending]
    rfl

end CommandLine

open CommandLine in
/-- In whatever state a session is on a host, a unit that finishes has exactly one verdict, and it
is exhausted if and only if the stack of the host does not hold it. The flags tell of the
verdicts since they were reset, and nothing else is reset with them. A script exits with the
code of its verdict, and one that is refused has written no output. -/
theorem verdicts_decide (host : Host) (name : String) (color verbose : Bool) (reading : Nat → Float)
    (requests : List Request) :
    let s := Session.startOn host name color verbose reading
    let t := (s.answerAll requests).1
    (∀ source, t.Finishes source →
      (∃! v, t.Ends source v) ∧ (t.Ends source .exhausted ↔ host.stack.holds source = false)) ∧
    (s.AllFinish requests →
      (t.reporter.hadError = true ↔
        Session.SomeSinceReset (fun s source => s.Ends source .refused) s requests) ∧
      (t.reporter.hadRuntimeError = true ↔ Session.SomeSinceReset Session.Stopped s requests)) ∧
    t.reset = { t with reporter := { t.reporter with hadError := false, hadRuntimeError := false } } ∧
    ∀ arguments files options path source input, Names arguments files options path source →
      let script := Session.startOn host path options.color options.verbose reading
      let ran := runOn host arguments files input reading
      script.Finishes source →
        (ran.code = 65 ↔ script.Ends source .refused) ∧ (script.Ends source .refused → ran.out = "") ∧
        (ran.code = 70 ↔ script.Stopped source) ∧ (ran.code = 0 ↔ script.Ends source .completed) ∧
        (ran.code = 1 ↔ script.Ends source .exhausted) := by
  intro s t
  have start : s.Reachable := .start host name color verbose reading
  refine ⟨fun source finishes => ⟨Session.exists_unique_ends (start.answerAll requests) finishes, ?exhausted⟩,
    Session.flags_since_reset start rfl rfl, rfl, ?scripts⟩
  case exhausted =>
    have stack : t.stack = host.stack := Session.answerAll_stack start.fatal
    rw [← stack]
    exact Session.ends_exhausted_iff (start.answerAll requests)
  case scripts =>
    intro arguments files options path source input names script ran finishes
    have reachable : script.Reachable := .start host path options.color options.verbose reading
    obtain ⟨v, ends, only⟩ := Session.exists_unique_ends reachable finishes
    have result : ran = _ := names.runOn host input reading
    have code : ran.code = v.code := by
      rw [result]
      exact scriptCode_of_ends ends rfl rfl
    have is (w : Verdict) : script.Ends source w ↔ v = w := ⟨fun h => (only w h).symm, fun e => e ▸ ends⟩
    refine ⟨?refused, fun refused => ?output, ?stopped, ?completed, ?exhausted⟩
    case output =>
      rw [result]
      dsimp only
      rw [refused.interpreter]
      rfl
    all_goals rw [code]
    case refused => rw [is]; cases v <;> simp [Verdict.code]
    case stopped => rw [Session.Stopped]; simp only [is]; cases v <;> simp [Verdict.code]
    case completed => rw [is]; cases v <;> simp [Verdict.code]
    case exhausted => rw [is]; cases v <;> simp [Verdict.code]

/-- A unit that asks for an unknown name, after one with a stray character and a reset; and a
script that is nothing but that character. -/
theorem verdicts_decide_stray :
    let s := Session.startOn (.ofLimits ⟨4, 4⟩) Session.interactiveName false false fun _ => 0
    let t := (s.answerAll [.run "@", .reset]).1
    let requests := [.run "@", .reset, .run "a;"]
    let script := Session.startOn .standard "f" true false fun _ => 0
    t.Finishes "a;" ∧ (∃! v, t.Ends "a;" v) ∧ s.AllFinish requests ∧
      ((s.answerAll requests).1.reporter.hadRuntimeError = true ↔
        Session.SomeSinceReset Session.Stopped s requests) ∧
      CommandLine.Names ["f"] [("f", [64])] ⟨some "f", false, true⟩ "f" "@" ∧ script.Finishes "@" ∧
      ((CommandLine.run ["f"] [("f", [64])] "" fun _ => 0).code = 65 ↔ script.Ends "@" .refused) := by
  intro s t requests script
  obtain ⟨verdicts, -, -, -⟩ :=
    verdicts_decide (.ofLimits ⟨4, 4⟩) Session.interactiveName false false (fun _ => 0) [.run "@", .reset]
  obtain ⟨-, flags, -, -⟩ :=
    verdicts_decide (.ofLimits ⟨4, 4⟩) Session.interactiveName false false (fun _ => 0) requests
  obtain ⟨-, -, -, scripts⟩ := verdicts_decide .standard "f" true false (fun _ => 0) []
  have first : s.Finishes "@" := by unfold Session.Finishes; decide +kernel
  have last : t.Finishes "a;" := by unfold Session.Finishes; decide +kernel
  have single : script.Finishes "@" := by unfold Session.Finishes; decide +kernel
  have finish : s.AllFinish requests := by
    intro earlier source later e
    change [Request.run "@", .reset, .run "a;"] = _ at e
    rcases earlier with _ | ⟨_, _ | ⟨_, _ | ⟨_, earlier⟩⟩⟩ <;> simp only [List.nil_append, List.cons_append,
      List.cons.injEq, Request.run.injEq, reduceCtorEq, false_and, and_false] at e
    · obtain ⟨rfl, -⟩ := e
      exact first
    · obtain ⟨rfl, rfl, rfl, -⟩ := e
      exact last
    · exact absurd e.2.2.2 (by simp)
  have parts : "f".splitOn "/" = ["f"] := by
    rw [String.splitOn, if_neg (by decide), String.splitOnAux, String.splitOnAux]
    decide +kernel
  have readable : CommandLine.Directory.read [("f", [64])] "f" = .ok [64] := by
    rw [CommandLine.Directory.read, parts]
    rfl
  have names : CommandLine.Names ["f"] [("f", [64])] ⟨some "f", false, true⟩ "f" "@" :=
    ⟨by decide +kernel, rfl, [64], ['@'], readable, by decide +kernel, by decide +kernel⟩
  exact ⟨last, (verdicts "a;" last).1, finish, (flags finish).2, names, single,
    (scripts _ _ _ _ _ "" names single).1⟩

/-- Twenty thousand signs in front of a number use up the stack of the standard host while they
are read. Whoever has asked for the run is left with that, and no other verdict fits. -/
theorem verdicts_decide_signs :
    let s := Session.start Session.interactiveName false false fun _ => 0
    let source := String.ofList (List.replicate 20000 '-' ++ ['1', ';'])
    s.Reachable ∧ s.Finishes source ∧ s.run source = (s, .passedOn .stackExhausted) ∧
      ¬ (s.Ends source .refused ∨ s.Ends source .completed ∨ s.Stopped source) := by
  intro s source
  have reads : s.stack.reads (scan source).bare = false :=
    Stack.not_reads_signs (by decide : 10000 < 20000) ['1', ';']
  have ran : s.run source = (s, .passedOn .stackExhausted) := Session.run_of_not_reads reads
  have exhausted : s.Ends source .exhausted := Session.exhausted_of rfl (Stack.holds_of_not_reads reads)
  have only {v : Verdict} (ends : s.Ends source v) : v = .exhausted := ends.unique exhausted
  refine ⟨.start _ _ _ _ _, ?_, ran, ?_⟩
  · rw [Session.Finishes, ran]
    decide
  · rintro (refused | completed | ⟨error, failed⟩ | overflowed)
    · cases only refused
    · cases only completed
    · cases only failed
    · cases only overflowed

end Lox
