import Lox.Proofs.Joining.Programs
import Lox.Proofs.Recovery.Isolation

/-! # A statement that its block ends

If the last statement of a body is not complete, the brace behind it is dropped with the rest of
the statement. The body goes on behind it, at the next place where a statement may begin. -/

namespace Lox

namespace Grammar

mutual

/-- Tokens of the form have no `else` without an `if` in front of it. -/
def Form.Leads : Form → Prop
  | .token k => k ≠ .kwElse
  | .rule _ => True
  | .seq parts => Form.AllLead parts
  | .oneOf choices => Form.EachLeads choices
  | .optional a | .many a | .listed _ a => a.Leads

def Form.AllLead : List Form → Prop
  | [] => True
  | a :: parts => a.Leads ∧ (a = .token .kwIf ∨ Form.AllLead parts)

def Form.EachLeads : List Form → Prop
  | [] => True
  | a :: choices => a.Leads ∧ Form.EachLeads choices

end

theorem Form.EachLeads.choice {a : Form} {choices : List Form} (h : Form.EachLeads choices) (m : a ∈ choices) :
    a.Leads := by
  induction choices with
  | nil => exact absurd m List.not_mem_nil
  | cons b choices ih =>
    rcases List.mem_cons.mp m with rfl | m
    · exact h.1
    · exact ih h.2 m

theorem Rule.leads (r : Rule) : r.form.Leads := by
  cases r <;> simp [Rule.form, Form.joined, Form.Leads, Form.AllLead, Form.EachLeads]

/-- Every `else` has an `if` in front of it. -/
def Led (ts : List Token) : Prop :=
  ∀ front t back, ts = front ++ t :: back → t.kind = .kwElse → ∃ u ∈ front, u.kind = .kwIf

theorem Led.nil : Led [] := fun _ _ _ e => absurd e (by simp)

theorem Led.single {t : Token} (h : t.kind ≠ .kwElse) : Led [t] := by
  intro front u back e hu
  have m : u ∈ [t] := e ▸ List.mem_append_right _ List.mem_cons_self
  exact absurd (List.mem_singleton.mp m ▸ hu) h

theorem Led.append {us vs : List Token} (h : Led us) (k : (∃ u ∈ us, u.kind = .kwIf) ∨ Led vs) : Led (us ++ vs) := by
  intro front t back e ht
  have behind (mid : List Token) (e' : vs = mid ++ t :: back) : ∃ u ∈ us ++ mid, u.kind = .kwIf := by
    rcases k with ⟨u, m, hu⟩ | k
    · exact ⟨u, List.mem_append_left _ m, hu⟩
    · obtain ⟨u, m, hu⟩ := k mid t back e' ht
      exact ⟨u, List.mem_append_right _ m, hu⟩
  rcases List.append_eq_append_iff.mp e with ⟨mid, rfl, e'⟩ | ⟨mid, rfl, e'⟩
  · exact behind mid e'
  · cases mid with
    | nil => simpa using behind [] e'.symm
    | cons u mid =>
      obtain ⟨rfl, -⟩ := List.cons.inj e'
      exact h front t mid rfl ht

theorem Derives.led {a : Form} {ts : List Token} (h : Derives a ts) : a.Leads → Led ts := by
  induction h with
  | token hk => exact fun leads => .single (hk ▸ leads)
  | @rule r _ _ ih => exact fun _ => ih r.leads
  | nil | absent | done => exact fun _ => .nil
  | cons part _ first rest =>
    rintro ⟨here, there⟩
    refine (first here).append ?_
    rcases there with rfl | there
    · obtain ⟨t, ht, rfl⟩ := derives_token.mp part
      exact .inl ⟨t, List.mem_singleton_self t, ht⟩
    · exact .inr (rest there)
  | oneOf m _ ih => exact fun leads => ih (leads.choice m)
  | present _ ih | last _ ih => exact ih
  | more _ _ first rest => exact fun leads => (first leads).append (.inr (rest leads))
  | comma _ ht _ first rest =>
    intro leads
    have comma := Led.single fun e => by cases ht.symm.trans e
    exact (first leads).append (.inr (comma.append (.inr (rest leads))))

end Grammar

namespace Parse

/-- What is passed over begins no statement. -/
theorem resumeAfter_passes (us : List Token) : ∀ t, ∃ passed, us = passed ++ resumeAfter t us ∧
    ∀ u ∈ passed, startsStatement u.kind = false := by
  induction us with
  | nil => exact fun _ => ⟨[], rfl, nofun⟩
  | cons u us ih =>
    intro t
    rw [resumeAfter]
    split
    · exact ⟨[], rfl, nofun⟩
    · rename_i goes
      obtain ⟨passed, e, each⟩ := ih u
      refine ⟨u :: passed, congrArg (u :: ·) e, List.forall_mem_cons.mpr ⟨?_, each⟩⟩
      exact (Bool.or_eq_false_iff.mp (Bool.eq_false_iff.mpr goes)).2

variable {r : Token} {us ts rest : List Token} {ss : List (Stmt Unit)} {errors : List SyntaxError}

/-- The body of a block whose last statement is not complete goes on behind the brace. -/
theorem block_goes_on (row : Row (Stmt.Writes true) ss us) (h : Drops r ts errors)
    (apart : Ahead (fun k => k ≠ .rightBrace ∧ k ≠ .kwElse) ts)
    (follows : Ahead (· ≠ .kwElse) (resumeAfter r rest)) {bound bound' : List Token}
    (long : (us ++ (ts ++ rest)).length ≤ bound.length) (long' : (us ++ resumeAfter r rest).length ≤ bound'.length) :
    block (innerWithin bound) (us ++ (ts ++ rest)) =
      (block (innerWithin bound') (us ++ resumeAfter r rest)).reporting errors := by
  simp only [List.length_append] at long long'
  obtain ⟨b, hb, list⟩ := untilKind_drops .rightBrace (innerWithin_restores bound) rfl row (by omega)
    (h.declaration bound (by omega) rest) h.ne_nil apart (resumeAfter_length rest r) (Nat.le_refl _)
  obtain ⟨b', hb', list'⟩ := untilKind_behind .rightBrace (innerWithin_restores bound') rfl row
    (us ++ resumeAfter r rest) _ (by omega) (Nat.le_refl _) follows
  have next := resumeAfter_length rest r
  have alike := (innerWithin_extending bound bound' (resumeAfter r rest).length (by omega) (by omega)).declaration
  rw [alike.untilKind_same .rightBrace (Nat.le_refl _) hb hb'] at list'
  generalize untilKind .rightBrace (innerWithin bound).declaration b (resumeAfter r rest) = reply at list list'
  change Parse.bind (untilKind .rightBrace (innerWithin bound).declaration (us ++ (ts ++ rest))) _ _ =
    Reply.reporting (Parse.bind (untilKind .rightBrace (innerWithin bound').declaration (us ++ resumeAfter r rest)) _ _) _
  unfold Parse.bind
  rw [list, list']
  obtain ⟨value, left, more⟩ := reply
  cases value with
  | none => rfl
  | some items => simp [Reply.map, Reply.reporting]

/-- A block that is still open where the tokens end. -/
theorem block_open (row : Row (Stmt.Writes true) ss us) (bound : List Token) (long : us.length ≤ bound.length) :
    block (innerWithin bound) us = ⟨none, [], [⟨.openBlock, none⟩]⟩ := by
  have items := untilKind_restores .rightBrace (innerWithin_restores bound) (fun _ _ h => Declares.starts h)
    (fun k => by cases k <;> decide) (by decide) rfl (Declares.row row) us [] long (Nat.le_refl _) ahead_nil
  rw [List.append_nil] at items
  exact bind_reply (p := bounded _) items

/-- Behind a heading, a body that reports more comes to the same otherwise. -/
theorem program_reporting {make : List (Stmt Unit) → Stmt Unit} {head vs : List Token} (h : Heading make head)
    (read : ∀ bound bound' : List Token, us.length ≤ bound.length → vs.length ≤ bound'.length →
      block (innerWithin bound) us = (block (innerWithin bound') vs).reporting errors) :
    program (head ++ us) = (program (head ++ vs)).reporting errors := by
  have inside := h.inside
  have reads := h.reads
  obtain ⟨t, head, rfl⟩ := List.exists_cons_of_ne_nil h.ne_nil
  have noEnd := inside t List.mem_cons_self
  have first : wholeDeclaration (t :: head ++ us) = (wholeDeclaration (t :: head ++ vs)).reporting errors := by
    refine recover_reporting (p := core (innerWithin (head ++ us))) (q := core (innerWithin (head ++ vs))) ?_
    rw [reads, reads, read (head ++ us) (head ++ vs) (by simp) (by simp)]
    rfl
  obtain ⟨o, ho⟩ := Option.isSome_iff_exists.mp (wholeDeclaration_isSome (t :: head ++ vs))
  generalize hw : wholeDeclaration (t :: head ++ vs) = reply at first ho
  obtain ⟨value, rest, more⟩ := reply
  obtain rfl : value = some o := ho
  rw [List.cons_append] at first hw
  rw [List.cons_append, List.cons_append, program_cons noEnd first, program_cons noEnd hw]
  simp [Reply.reporting]

theorem program_open {make : List (Stmt Unit) → Stmt Unit} {head : List Token} (h : Heading make head)
    (row : Row (Stmt.Writes true) ss us) : program (head ++ us) = ⟨some [none], [], [⟨.openBlock, none⟩]⟩ := by
  have inside := h.inside
  have reads := h.reads
  obtain ⟨t, head, rfl⟩ := List.exists_cons_of_ne_nil h.ne_nil
  have first : wholeDeclaration (t :: (head ++ us)) = ⟨some none, [], [⟨.openBlock, none⟩]⟩ := by
    change recover (core (innerWithin (head ++ us))) (t :: head ++ us) = _
    simp only [recover, reads, block_open row (head ++ us) (by simp), Reply.map, Option.map_none, resume]
  exact program_cons (inside t List.mem_cons_self) first

end Parse

open Grammar (Led Derives)
open Parse (Heading Drops startsStatement resumeAfter)

section OpenBlocks

variable {P M S head : List Token} {last r : Token} {make : List (Stmt Unit) → Stmt Unit}

/-- Where reading goes on in a program, there is no `else`. -/
theorem resumeAfter_noElse (hS : Inside S) (hl : last.kind = .eof) (quiet : (parse (S ++ [last])).errors = []) (r : Token) :
    Parse.Ahead (· ≠ .kwElse) (resumeAfter r S) := by
  intro t m e
  obtain ⟨passed, split, each⟩ := Parse.resumeAfter_passes S r
  obtain ⟨back, rest⟩ := List.head?_eq_some_iff.mp m
  have led : Led (S ++ [last]) := ((parse_quiet_iff hS hl).mp quiet).led trivial
  obtain ⟨u, hu, isIf⟩ := led passed t (back ++ [last]) (by rw [split, rest]; simp) e
  have starts := each u hu
  rw [isIf] at starts
  cases starts

/-- A fragment in front of a brace is never complete. -/
theorem Fragment.unclosed (h : Fragment M) (hM : Inside M) (hl : last.kind = .eof)
    (hr : r.kind = .rightBrace) :
    Drops r (M ++ [r]) (parse (M ++ [r] ++ [last])).errors ∧ (parse (M ++ [r] ++ [last])).statements = [] ∧
      (parse (M ++ [r] ++ [last])).errors ≠ [] := by
  have inside : Inside (M ++ [r]) := hM.append (.cons hr .nil)
  have ahead : Parse.Ahead (· ≠ .eof) (M ++ [r]) := fun t m => inside t (List.mem_of_mem_head? m)
  have trial := h.trial r fun e => by cases hr.symm.trans e
  obtain ⟨errors, drops⟩ := trial.drops (.inr hr) fun e => by cases hr.symm.trans e
  have nothing : (parse (M ++ [r] ++ [last])).statements = [] := by
    rw [(parse_program inside hl).1, drops.alone ahead]
    rfl
  refine ⟨?_, nothing, fun quiet => ?_⟩
  · rw [(parse_program inside hl).2, drops.alone ahead]
    exact drops
  · have row := parse_quiet inside hl quiet
    rw [nothing] at row
    generalize e : M ++ [r] = ts at row
    cases row
    exact absurd e (by simp)

/-- The statement that is not complete is given up with the brace behind it, and its problems are
reported. What follows belongs to the body: the program is read as if the body went on
where the next statement may begin. If nothing else closes it, no more is read. -/
theorem unclosed_statement_takes_the_brace (hP : Inside P) (hS : Inside S) (hl : last.kind = .eof)
    (quiet : (parse (P ++ [last])).errors = []) (quiet' : (parse (S ++ [last])).errors = [])
    (follows : ∀ t ∈ S.head?, t.kind ≠ .kwElse) (hM : Inside M) (filled : M ≠ []) (fragment : Fragment M)
    (noElse : ∀ t ∈ M.head?, t.kind ≠ .kwElse) (hr : r.kind = .rightBrace) (heading : Heading make head) :
    let statements (ts : List Token) := (parse (ts ++ [last])).statements
    let errors (ts : List Token) := (parse (ts ++ [last])).errors
    let rest := resumeAfter r S
    (statements (M ++ [r]) = [] ∧ errors (M ++ [r]) ≠ []) ∧
    (statements (head ++ P ++ M ++ [r] ++ S) = statements (head ++ P ++ rest) ∧
      errors (head ++ P ++ M ++ [r] ++ S) = errors (M ++ [r]) ++ errors (head ++ P ++ rest)) ∧
    ((∀ t ∈ S.head?, startsStatement t.kind = true) → statements (head ++ P ++ M ++ [r] ++ S) = [] ∧
      errors (head ++ P ++ M ++ [r] ++ S) = errors (M ++ [r]) ++ [⟨.openBlock, none⟩]) ∧
    ∀ bound bound' : List Token, (P ++ M ++ [r] ++ S).length ≤ bound.length → (P ++ rest).length ≤ bound'.length →
      Parse.block (Parse.innerWithin bound) (P ++ M ++ [r] ++ S) =
        (Parse.block (Parse.innerWithin bound') (P ++ rest)).reporting (errors (M ++ [r])) := by
  intro statements errors rest
  obtain ⟨drops, nothing, wrong⟩ := fragment.unclosed hM hl hr
  have row := parse_quiet hP hl quiet
  have apart : Parse.Ahead (fun k => k ≠ .rightBrace ∧ k ≠ .kwElse) (M ++ [r]) := by
    obtain ⟨t, ts, rfl⟩ := List.exists_cons_of_ne_nil filled
    exact Parse.ahead_cons.mpr ⟨(fragment.plain t List.mem_cons_self).2.2, noElse t rfl⟩
  have body (bound bound' : List Token) (long : (P ++ M ++ [r] ++ S).length ≤ bound.length)
      (long' : (P ++ rest).length ≤ bound'.length) : Parse.block (Parse.innerWithin bound) (P ++ M ++ [r] ++ S) =
        (Parse.block (Parse.innerWithin bound') (P ++ rest)).reporting (errors (M ++ [r])) := by
    rw [show P ++ M ++ [r] ++ S = P ++ (M ++ [r] ++ S) by simp] at long ⊢
    exact Parse.block_goes_on row drops apart (resumeAfter_noElse hS hl quiet' r) long long'
  have whole := Parse.program_reporting heading body
  obtain ⟨passed, split, -⟩ := Parse.resumeAfter_passes S r
  have insideRest : Inside (head ++ (P ++ rest)) :=
    heading.inside.append (hP.append fun t m => hS t (split ▸ List.mem_append_right passed m))
  have insideAll : Inside (head ++ (P ++ M ++ [r] ++ S)) :=
    heading.inside.append (((hP.append hM).append (.cons hr .nil)).append hS)
  have goesOn : statements (head ++ P ++ M ++ [r] ++ S) = statements (head ++ P ++ rest) ∧
      errors (head ++ P ++ M ++ [r] ++ S) = errors (M ++ [r]) ++ errors (head ++ P ++ rest) := by
    have reporting : Parse.program (head ++ (P ++ M ++ [r] ++ S)) =
        ((Parse.program (head ++ (P ++ rest))).map ([] ++ ·)).reporting (errors (M ++ [r])) := by
      rw [whole]
      simp [Reply.map]
    rw [show head ++ P ++ M ++ [r] ++ S = head ++ (P ++ M ++ [r] ++ S) by simp, List.append_assoc head P rest]
    exact parse_reporting [] hl insideAll insideRest reporting
  refine ⟨⟨nothing, wrong⟩, goesOn, fun starts => ?_, body⟩
  have same : rest = S := by
    cases S with
    | nil => rfl
    | cons t S => exact if_pos (Bool.or_eq_true_iff.mpr (.inr (starts t rfl)))
  obtain ⟨restStatements, restErrors⟩ := parse_program insideRest hl
  rw [same, Parse.program_open heading (row.append (parse_quiet hS hl quiet'))] at restStatements restErrors
  rw [goesOn.1, goesOn.2, same, List.append_assoc head P S]
  exact ⟨restStatements, congrArg _ restErrors⟩

/-- A function whose last statement lacks its semicolon. -/
theorem unclosed_statement_takes_the_brace_function :
    let body (source : String) := (scan source).tokens.dropLast
    let parameter : Token := ⟨.identifier, "a", none, 1⟩
    let head : List Token := [.plain .kwFun, ⟨.identifier, "f", none, 1⟩, .plain .leftParen, parameter,
      .plain .rightParen, .plain .leftBrace]
    let P := body "a = 1;"
    let M := body "return a"
    let r : Token := .plain .rightBrace
    let S := body "print f(2);"
    let statements (ts : List Token) := (parse (ts ++ [.eof 1])).statements
    let errors (ts : List Token) := (parse (ts ++ [.eof 1])).errors
    statements (head ++ P ++ M ++ [r] ++ S) = [] ∧
      errors (head ++ P ++ M ++ [r] ++ S) = errors (M ++ [r]) ++ [⟨.openBlock, none⟩] := by
  intro body parameter head P M r S statements errors
  have hP : Inside P := by
    unfold Inside
    decide +kernel
  have hS : Inside S := by
    unfold Inside
    decide +kernel
  have hM : Inside M := by
    unfold Inside
    decide +kernel
  have quiet : errors P = [] := List.isEmpty_iff.mp (by decide +kernel)
  have quiet' : errors S = [] := List.isEmpty_iff.mp (by decide +kernel)
  have filled : M ≠ [] := fun e => absurd (congrArg List.length e) (by decide +kernel)
  have heading : Heading _ head :=
    .function rfl rfl rfl (.full (.last ⟨rfl, rfl⟩) (by decide : [parameter].length ≤ maxListed)) rfl rfl
  have goesOn := unclosed_statement_takes_the_brace hP hS (show (Token.eof 1).kind = .eof from rfl) quiet quiet'
    (by decide +kernel) hM filled ⟨by decide +kernel, by decide +kernel⟩ (by decide +kernel)
    (show r.kind = .rightBrace from rfl) heading
  exact goesOn.2.2.1 (by decide +kernel)

/-- Neither the block is returned nor the statement behind it, and a second problem is reported. -/
theorem unclosed_statement_loses_the_block :
    let body (source : String) := (scan source).tokens.dropLast
    let M := body "print 1"
    let S := body "print 2;"
    let statements (ts : List Token) := (parse (ts ++ [.eof 1])).statements
    let errors (ts : List Token) := (parse (ts ++ [.eof 1])).errors
    let whole := [.plain .leftBrace] ++ M ++ [.plain .rightBrace] ++ S
    (Fragment M ∧ errors S = [] ∧ (statements S).length = 1) ∧
      statements whole ≠ .block [] :: statements S ∧ (errors whole).length = 2 := by
  intro body M S statements errors whole
  have lost : statements whole = [] := List.isEmpty_iff.mp (by decide +kernel)
  refine ⟨⟨⟨by decide +kernel, by decide +kernel⟩, List.isEmpty_iff.mp (by decide +kernel), by decide +kernel⟩,
    ?_, by decide +kernel⟩
  rw [lost]
  exact nofun

end OpenBlocks

end Lox
