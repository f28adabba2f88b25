import Mathlib.Data.List.Nodup
import Lox.Proofs.Joining.Runs
import Lox.Proofs.Refusals
import Lox.Proofs.Provenance
import Lox.Proofs.Sharing

/-! # Every reference is itself only

The programs that an interpreter reads are well-formed, and no two of their references have the
same mark, whether they stand in one program or in two. Whatever the interpreter does with them,
its table has entries for their references only, it evaluates nothing but their parts, and it
meets no operator that it does not know. -/

namespace Lox

namespace Interpreter

/-- An interpreter that has come to its state by reading the given programs, and by resolving and
running some of them in whatever order and however often. -/
inductive Knows : Interpreter → List (List (Stmt Nat)) → Prop
  | start (limits : Limits) (reading : Nat → Float) (recording : Bool) : Knows (.start limits reading recording) []
  | read {i : Interpreter} {programs : List (List (Stmt Nat))} (h : Knows i programs) (tokens : List Token) :
      Knows (i.number (parse tokens).statements).2 (programs ++ [(i.number (parse tokens).statements).1])
  | resolve {i : Interpreter} {programs : List (List (Stmt Nat))} (h : Knows i programs) {program : List (Stmt Nat)}
      (hp : program ∈ programs) : Knows (i.learn (resolve program).entries) programs
  | execute {i : Interpreter} {programs : List (List (Stmt Nat))} (h : Knows i programs) {program : List (Stmt Nat)}
      (hp : program ∈ programs) : Knows (i.execute program).1 programs
  | takeEvents {i : Interpreter} {programs : List (List (Stmt Nat))} (h : Knows i programs) :
      Knows i.takeEvents.2 programs
  | takeOutput {i : Interpreter} {programs : List (List (Stmt Nat))} (h : Knows i programs) :
      Knows i.takeOutput.2 programs

variable {i : Interpreter} {programs : List (List (Stmt Nat))} {program : List (Stmt Nat)}

theorem Knows.perform (h : i.Knows programs) (source : String) : (i.perform source).1.Knows
    (programs ++ [(i.number (parse (scan source).tokens).statements).1]) := by
  have last : (i.number (parse (scan source).tokens).statements).1 ∈
      programs ++ [(i.number (parse (scan source).tokens).statements).1] :=
    List.mem_append_right _ List.mem_cons_self
  rw [Interpreter.perform]
  exact ((h.read (scan source).tokens).resolve last).execute last

theorem attempt_eq (i : Interpreter) (source : String) (resolving : Bool) : (i.attempt source resolving).2 =
    let numbered := i.number (parse (scan source).tokens).statements
    let resolution := if resolving then Lox.resolve numbered.1 else ⟨[], []⟩
    ((numbered.2.learn resolution.entries).execute numbered.1).1 := by
  unfold Interpreter.attempt
  dsimp only

/-- An attempt resolves its program or leaves that out, and runs it in either case. -/
theorem Knows.attempt (h : i.Knows programs) (source : String) (resolving : Bool) :
    (i.attempt source resolving).2.Knows (programs ++ [(i.number (parse (scan source).tokens).statements).1]) := by
  have last : (i.number (parse (scan source).tokens).statements).1 ∈
      programs ++ [(i.number (parse (scan source).tokens).statements).1] :=
    List.mem_append_right _ List.mem_cons_self
  have read := h.read (scan source).tokens
  rw [attempt_eq]
  generalize i.number (parse (scan source).tokens).statements = numbered at read last
  cases resolving with
  | true => exact (read.resolve last).execute last
  | false => exact read.execute last

/-- A reference of one of the programs. -/
def Among (programs : List (List (Stmt Nat))) (r : Reference Nat) : Prop := r ∈ programs.flatMap Stmt.allReferences

/-- What is so in all states of an interpreter that knows its programs. -/
structure Tidy (i : Interpreter) (programs : List (List (Stmt Nat))) : Prop where
  formed : ∀ program ∈ programs, Stmt.AllWellFormed (fun _ => True) program
  distinct : (programs.flatMap Stmt.allMarks).Nodup
  given : ∀ n ∈ programs.flatMap Stmt.allMarks, n < i.nextMark
  entries : ∀ n, (i.machine.table.hops? n).isSome → n ∈ programs.flatMap Stmt.allMarks
  routines : i.machine.From (Among programs)

namespace Tidy

theorem start (limits : Limits) (reading : Nat → Float) (recording : Bool) :
    Tidy (.start limits reading recording) [] where
  formed _ hp := absurd hp List.not_mem_nil
  distinct := List.nodup_nil
  given _ hn := absurd hn List.not_mem_nil
  entries n hn := by simp [Interpreter.start, Machine.start] at hn
  routines _ _ hf := by simp [Interpreter.start, Machine.start, Heap.get?, Heap.empty] at hf

theorem statement (h : i.Tidy programs) (hp : program ∈ programs) {s : Stmt Nat} (hs : s ∈ program) :
    s.From (Among programs) where
  wellFormed := (Stmt.allWellFormed_iff program).mp (h.formed program hp) s hs
  known _ hr := List.mem_flatMap.mpr ⟨program, hp, Stmt.mem_allReferences.mpr ⟨s, hs, hr⟩⟩

/-- A program is read with marks that have not been given out. -/
theorem read (h : i.Tidy programs) (tokens : List Token) : Tidy (i.number (parse tokens).statements).2
    (programs ++ [(i.number (parse tokens).statements).1]) := by
  have spans := Stmt.numberAll_spans (parse tokens).statements i.nextMark
  have formed := Stmt.numberAll_wellFormed (T := fun _ => True) (parse tokens).statements i.nextMark
    (parse_wellFormed fun _ _ => trivial)
  have grows : (programs ++ [(i.number (parse tokens).statements).1]).flatMap Stmt.allMarks =
      programs.flatMap Stmt.allMarks ++ Stmt.allMarks (i.number (parse tokens).statements).1 := by
    rw [List.flatMap_append, List.flatMap_singleton]
  refine ⟨fun program hp => ?_, ?_, fun n hn => ?_, fun n hn => ?_, fun f c hc => ?_⟩
  · rcases List.mem_append.mp hp with old | new
    · exact h.formed program old
    · exact List.mem_singleton.mp new ▸ formed
  · rw [grows]
    refine List.nodup_append.mpr ⟨h.distinct, spans.nodup, fun a ha b hb same => ?_⟩
    have old := h.given a ha
    have new := spans.mem hb
    omega
  · rw [grows] at hn
    rcases List.mem_append.mp hn with old | new
    · exact Nat.lt_of_lt_of_le (h.given n old) spans.1
    · exact (spans.mem new).2
  · rw [grows]
    exact List.mem_append_left _ (h.entries n hn)
  · have old := h.routines f c hc
    refine ⟨old.wellFormed, fun r hr => ?_⟩
    rw [Among, List.flatMap_append]
    exact List.mem_append_left _ (old.known r hr)

theorem resolve (h : i.Tidy programs) (hp : program ∈ programs) :
    (i.learn (resolve program).entries).Tidy programs where
  formed := h.formed
  distinct := h.distinct
  given := h.given
  entries n hn := by
    by_cases own : n ∈ Stmt.allMarks program
    · exact List.mem_flatMap.mpr ⟨program, hp, own⟩
    · refine h.entries n ?_
      rwa [learn, resolve_entries program own] at hn
  routines := h.routines

/-- A run leaves the table as it is. -/
theorem execute (h : i.Tidy programs) (hp : program ∈ programs) :
    (i.execute program).1.Tidy programs ∧ ∀ fault, (i.execute program).2 = some fault → fault.Known := by
  have level : (Level.ofLimits i.limits).Stays (Among programs) := by
    rw [Level.ofLimits, ← Watch.level_idle]
    exact Level.stays_watched (fun _ _ stops => absurd stops Watch.not_idle_stops) i.limits.rounds i.limits.depth
  have ends := Run.stays_program level (fun _ => h.statement hp) i.machine h.routines
  have table : (Run.final (Run.program (.ofLimits i.limits) program i.machine)).table = i.machine.table :=
    congrArg Prod.snd (Run.program_setting i.limits program i.machine)
  unfold Interpreter.execute
  generalize Run.program (.ofLimits i.limits) program i.machine = r at ends table
  cases ends with
  | ok _ hm =>
    refine ⟨⟨h.formed, h.distinct, h.given, fun n hn => h.entries n ?_, hm⟩, fun _ none => by cases none⟩
    rwa [← table]
  | error known hm =>
    refine ⟨⟨h.formed, h.distinct, h.given, fun n hn => h.entries n ?_, hm⟩,
      fun _ same => Option.some.inj same ▸ known⟩
    rwa [← table]

end Tidy

theorem Knows.tidy (h : i.Knows programs) : i.Tidy programs := by
  induction h with
  | start limits reading recording => exact .start limits reading recording
  | read _ tokens ih => exact ih.read tokens
  | resolve _ hp ih => exact ih.resolve hp
  | execute _ hp ih => exact (ih.execute hp).1
  | takeEvents _ ih => exact { ih with }
  | takeOutput _ ih => exact { ih with }

end Interpreter

/-- In all states of a session its interpreter knows the programs that have been run, and an
accepted source is one more. A refused one leaves nothing behind. -/
theorem Session.Reachable.knows {s : Session} (h : s.Reachable) : ∃ programs, s.interpreter.Knows programs ∧
    ∀ source, (s.run source).1.interpreter = s.interpreter ∨ (s.run source).1.interpreter.Knows
      (programs ++ [(s.interpreter.number (parse (scan source).tokens).statements).1]) := by
  have next {s : Session} (hf : s.reporter.fatal = false) {programs : List (List (Stmt Nat))}
      (known : s.interpreter.Knows programs) (source : String) :
      (s.run source).1.interpreter = s.interpreter ∨ (s.run source).1.interpreter.Knows
        (programs ++ [(s.interpreter.number (parse (scan source).tokens).statements).1]) := by
    obtain same | ⟨-, -, after⟩ := run_performs hf source
    · exact .inl same
    · rw [after]
      exact .inr (known.perform source).takeEvents
  suffices known : ∃ programs, s.interpreter.Knows programs from
    known.imp fun _ hk => ⟨hk, next h.fatal hk⟩
  induction h with
  | start host _ _ verbose reading => exact ⟨[], .start host.limits reading verbose⟩
  | @run s h source ih =>
    obtain ⟨programs, known⟩ := ih
    rcases next h.fatal known source with same | more
    · exact ⟨programs, same ▸ known⟩
    · exact ⟨_, more⟩
  | reset _ ih => exact ih

/-- Whatever tokens there are, what is read is well-formed, of their tokens, and no token stands for
two references. Among the programs that an interpreter knows no mark is given twice, so no entry
of its table is about two references, and a run evaluates their parts only, of which no operator
is unknown. Attempts and sessions lead to no other states, also where there are syntax errors. -/
theorem trees_are_well_formed :
    (∀ tokens : List Token, Stmt.AllWellFormed (· ∈ tokens) (parse tokens).statements ∧
      ((Stmt.allReferences (parse tokens).statements).map (·.name)).Subperm tokens) ∧
    (∀ (i : Interpreter) (programs : List (List (Stmt Nat))), i.Knows programs →
      (programs.flatMap Stmt.allMarks).Nodup ∧
      (∀ n, (i.machine.table.hops? n).isSome → (programs.flatMap Stmt.allMarks).count n = 1) ∧
      (∀ program ∈ programs,
        (∀ e m, Evaluates i.limits program i.machine e m → e.From (· ∈ programs.flatMap Stmt.allReferences)) ∧
        ∀ fault, (i.execute program).2 = some fault → ∀ t, fault ≠ .runtime ⟨t, .unknownOperator⟩) ∧
      ∀ source resolving, (i.attempt source resolving).2.Knows
        (programs ++ [(i.number (parse (scan source).tokens).statements).1])) ∧
    ∀ s : Session, s.Reachable → ∃ programs, s.interpreter.Knows programs ∧
      ∀ source, (s.run source).1.interpreter = s.interpreter ∨ (s.run source).1.interpreter.Knows
        (programs ++ [(s.interpreter.number (parse (scan source).tokens).statements).1]) := by
  refine ⟨fun tokens => ⟨parse_wellFormed fun _ ht => ht, parse_references tokens⟩,
    fun i programs known => ?_, fun s h => h.knows⟩
  have tidy := known.tidy
  refine ⟨tidy.distinct, fun n hn => List.count_eq_one_of_mem tidy.distinct (tidy.entries n hn),
    fun program hp => ⟨fun e m evaluates => ?_, (tidy.execute hp).2⟩, known.attempt⟩
  exact evaluates.from_known (fun _ => tidy.statement hp) tidy.routines

end Lox
