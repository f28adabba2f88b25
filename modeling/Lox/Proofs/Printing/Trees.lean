import Lox.Proofs.Grammar.Soundness
import Lox.Proofs.Printing.Statements
import Lox.Proofs.Printing.Taking

/-! # Programs without a problem are the tokens of their trees

Whether a statement is closed shows only in what follows it: an `if` has been given an
`else` if one stood behind it. So what is left of the tokens is kept in view. -/

namespace Lox.Parse

variable {α β : Type}

/-- Without a problem, a reader yields a value that suits the tokens that it takes and those
that it leaves. -/
def Settles (Q : α → List Token → List Token → Prop) (p : Parse α) (tokens : List Token) : Prop :=
  (p tokens).errors = [] →
    ∃ a used, (p tokens).value = some a ∧ tokens = used ++ (p tokens).rest ∧ Q a used (p tokens).rest

namespace Settles

variable {Q : α → List Token → List Token → Prop} {R : β → List Token → List Token → Prop} {p : Parse α}
  {tokens : List Token}

theorem of_takes {Q : α → List Token → Prop} (hp : Takes Q p) (tokens : List Token) :
    Settles (fun a us _ => Q a us) p tokens := hp tokens

theorem mono {Q' : α → List Token → List Token → Prop} (hp : Settles Q p tokens)
    (h : ∀ a us rest, Q a us rest → Q' a us rest) : Settles Q' p tokens := by
  intro quiet
  obtain ⟨a, us, hv, e, hQ⟩ := hp quiet
  exact ⟨a, us, hv, e, h a us _ hQ⟩

theorem pure {a : α} (h : Q a [] tokens) : Settles Q (Pure.pure a : Parse α) tokens :=
  fun _ => ⟨a, [], rfl, rfl, h⟩

/-- What the first reader leaves is what the second one is given. -/
theorem bind {f : α → Parse β} (hp : Settles Q p tokens)
    (hf : ∀ a us rest, tokens = us ++ rest → Q a us rest →
      Settles (fun b vs rest => R b (us ++ vs) rest) (f a) rest) : Settles R (p >>= f) tokens := by
  intro quiet
  have first : (p tokens).errors = [] := bind_quiet quiet
  obtain ⟨a, us, hv, e, hQ⟩ := hp first
  have reply : p tokens = ⟨some a, (p tokens).rest, []⟩ := by rw [← hv, ← first]
  have next := bind_reply (f := f) reply
  obtain ⟨b, vs, hv', e', hR⟩ := hf a us _ e hQ (by rw [← next]; exact quiet)
  refine ⟨b, us ++ vs, by rw [next]; exact hv', ?_, by rw [next]; exact hR⟩
  rw [next, List.append_assoc, ← e']
  exact e

theorem map {f : α → β} (hp : Settles Q p tokens) (hf : ∀ a us rest, Q a us rest → R (f a) us rest) :
    Settles R (f <$> p) tokens := by
  refine hp.bind fun a us rest _ hQ => pure ?_
  rw [List.append_nil]
  exact hf a us rest hQ

end Settles

theorem reject_settles {Q : α → List Token → List Token → Prop} (problem : SyntaxProblem)
    (tokens : List Token) : Settles Q (reject problem) tokens := fun quiet => by cases quiet

theorem take?_settles (test : Kind → Bool) (tokens : List Token) :
    Settles (fun o us rest => Taken test o us ∧ (o = none → Ahead (fun k => test k = false) rest))
      (take? test) tokens := by
  intro _
  cases tokens with
  | nil => exact ⟨none, [], rfl, rfl, ⟨rfl, fun t h => by cases h⟩, fun _ => ahead_nil⟩
  | cons t rest =>
    simp only [take?]
    split
    · rename_i ht
      exact ⟨some t, [t], rfl, rfl, ⟨rfl, fun u h => by cases h; exact ht⟩, fun e => by cases e⟩
    · rename_i ht
      exact ⟨none, [], rfl, rfl, ⟨rfl, fun u h => by cases h⟩, fun _ => ahead_cons.mpr (by simpa using ht)⟩

theorem choose_settles {Q : α → List Token → List Token → Prop} {reader? : Token → Option (Parse α)}
    {otherwise : Parse α} (hr : ∀ t p rest, reader? t = some p → Settles (fun a us => Q a (t :: us)) p rest)
    (ho : ∀ tokens, Settles Q otherwise tokens) (tokens : List Token) :
    Settles Q (choose reader? otherwise) tokens := by
  intro quiet
  cases tokens with
  | nil => exact ho [] quiet
  | cons t rest =>
    simp only [choose] at quiet ⊢
    split at quiet
    · rename_i p hp
      obtain ⟨a, us, hv, e, hQ⟩ := hr t p rest hp quiet
      exact ⟨a, t :: us, hv, congrArg (t :: ·) e, hQ⟩
    · exact ho _ quiet

theorem recover_settles {Q : α → List Token → List Token → Prop} {p : Parse α} {tokens : List Token}
    (hp : Settles Q p tokens) : Settles (fun o us rest => ∃ a, o = some a ∧ Q a us rest) (recover p) tokens := by
  intro quiet
  have first : (p tokens).errors = [] := by
    unfold recover at quiet
    split at quiet
    · rename_i h
      rw [h]
      exact quiet
    · rename_i h
      rw [h]
      exact quiet
  obtain ⟨a, us, hv, e, hQ⟩ := hp first
  have reply : p tokens = ⟨some a, (p tokens).rest, []⟩ := by rw [← hv, ← first]
  have all := recover_reply reply
  exact ⟨some a, us, by rw [all], by rw [all]; exact e, a, rfl, by rw [all]; exact hQ⟩

/-- A statement that is closed if an `else` follows. -/
def Stands (s : Stmt Unit) (us rest : List Token) : Prop :=
  s.Writes (!atElse rest) us ∧ s.declared? = none

structure Inner.Writes (inner : Inner) : Prop where
  statement : ∀ tokens, Settles Stands inner.statement tokens
  declaration : Takes Declares inner.declaration

/-- What is read behind a token that has been taken. -/
def After (t : Token) (o : Bool) (s : Stmt Unit) (us : List Token) : Prop := s.Writes o (t :: us)

section Statements

variable {inner : Inner} {k : Token} {o : Bool}

theorem Declares.row_inv : ∀ {ds : List (Option (Stmt Unit))} {us : List Token}, Row Declares ds us →
    Row (Stmt.Writes true) (ds.filterMap id) us := by
  intro ds us h
  induction h with
  | nil => exact .nil
  | @cons d ds us vs h _ ih =>
    obtain ⟨s, rfl, hs⟩ := h
    exact .cons hs ih

theorem block_writes (hi : inner.Writes) :
    Takes (fun ss us => ∃ ts r, us = ts ++ [r] ∧ Row (Stmt.Writes true) ss ts ∧ r.kind = .rightBrace)
      (block inner) := by
  have items : Takes (Row Declares) (bounded (untilKind .rightBrace inner.declaration)) :=
    Takes.bounded fun bound => untilKind_takes _ hi.declaration bound
  refine items.bind fun ds us hd => (expect_takes _ _).bind fun r vs hr => .pure ?_
  rw [hr.1, List.append_nil]
  exact ⟨us, r, rfl, Declares.row_inv hd, hr.2⟩

theorem routine_writes (hi : inner.Writes) (kind : RoutineKind) :
    Takes (Routine.Writes (Stmt.Writes true)) (routine inner kind) := by
  have name (problem : SyntaxProblem) : Takes Token.Names (expect .identifier problem) :=
    (expect_takes _ _).mono fun _ _ h => ⟨h.2, h.1⟩
  refine (expect_takes _ _).bind fun n ns hn => (expect_takes _ _).bind fun l ls hl =>
    (parenthesised_takes .parameters (name _)).bind fun ps us hp => (expect_takes _ _).bind fun r rs hr =>
    (expect_takes _ _).bind fun b bs hb => (block_writes hi).bind fun body vs hv => .pure ?_
  obtain ⟨ts, e, rfl, h, he⟩ := hv
  rw [hn.1, hl.1, hr.1, hb.1]
  simpa using Routine.Writes.mk hn.2 hl.2 hp hr.2 hb.2 h he

theorem parentClause_writes : Takes Reference.WritesParent parentClause := by
  refine (take?_takes _).bind fun o us h => ?_
  rw [h.1]
  cases o with
  | none => exact .pure .absent
  | some t =>
    refine (expect_takes _ _).bind fun name vs hn => .pure ?_
    rw [hn.1]
    exact .present (by simpa using h.2 t rfl) hn.2

theorem classDeclaration_writes (hi : inner.Writes) (hk : k.kind = .kwClass) :
    Takes (After k true) (classDeclaration inner) := by
  have methods : Takes (Row (Routine.Writes (Stmt.Writes true)))
      (bounded (untilKind .rightBrace (routine inner .method))) :=
    Takes.bounded fun bound => untilKind_takes _ (routine_writes hi .method) bound
  refine (expect_takes _ _).bind fun n ns hn => parentClause_writes.bind fun p ps hp =>
    (expect_takes _ _).bind fun l ls hl => methods.bind fun ms us hm =>
    (expect_takes _ _).bind fun r rs hr => .pure ?_
  rw [hn.1, hl.1, hr.1]
  exact .klass hk hn.2 hp hl.2 hm hr.2

theorem variableDeclaration_writes (hk : k.kind = .kwVar) :
    Takes (fun s us => After k true s us ∧ ∃ n e, s = .declare n e) variableDeclaration := by
  refine (expect_takes _ _).bind fun n ns hn => (take?_takes _).bind fun o qs ho => ?_
  rw [hn.1, ho.1]
  cases o with
  | none =>
    refine (expect_takes _ _).bind fun s ss hs => .pure ⟨?_, n, none, rfl⟩
    rw [hs.1]
    exact .declare hk hn.2 hs.2
  | some q =>
    have hq : q.kind = .equal := by simpa using ho.2 q rfl
    have value : Takes (fun o us => ∃ e, o = some e ∧ e.Writes us) (some <$> wholeExpression) :=
      wholeExpression_writes.map fun e _ h => ⟨e, rfl, h⟩
    refine value.bind fun e us he => (expect_takes _ _).bind fun s ss hs => .pure ?_
    obtain ⟨e, rfl, he⟩ := he
    rw [hs.1]
    exact ⟨.define hk hn.2 hq he hs.2, n, some e, rfl⟩

theorem expressionStatement_writes :
    Takes (fun s us => s.Writes o us ∧ ∃ e, s = .expression e) expressionStatement := by
  refine wholeExpression_writes.bind fun e us he => (expect_takes _ _).bind fun s ss hs => .pure ?_
  rw [hs.1]
  exact ⟨.expression he hs.2, e, rfl⟩

theorem printStatement_writes (hk : k.kind = .kwPrint) :
    Takes (fun s us => After k o s us ∧ s.declared? = none) printStatement := by
  refine wholeExpression_writes.bind fun e us he => (expect_takes _ _).bind fun s ss hs => .pure ?_
  rw [hs.1]
  exact ⟨.print hk he hs.2, rfl⟩

theorem returnStatement_writes (hk : k.kind = .kwReturn) :
    Takes (fun s us => After k o s us ∧ s.declared? = none) (returnStatement k) := by
  refine (unlessKind_takes .semicolon wholeExpression_writes).bind fun e us he =>
    (expect_takes _ _).bind fun s ss hs => .pure ?_
  rw [hs.1]
  exact ⟨.leave hk he hs.2, rfl⟩

theorem firstClause_writes : Takes (FirstClause (Stmt.Writes true)) firstClause := by
  refine (take?_takes _).bind fun o us h => ?_
  rw [h.1]
  cases o with
  | some t => exact .pure (.none (by simpa using h.2 t rfl))
  | none =>
    refine (take?_takes _).bind fun o vs k => ?_
    rw [k.1]
    cases o with
    | some t =>
      refine (variableDeclaration_writes (by simpa using k.2 t rfl)).map fun s ws hw => ?_
      obtain ⟨h, n, e, rfl⟩ := hw
      exact .declare h
    | none =>
      refine (expressionStatement_writes (o := true)).map fun s ws hw => ?_
      obtain ⟨h, e, rfl⟩ := hw
      exact .expression h

/-- Behind the keyword, with what follows in view. -/
def StandsAfter (k : Token) (s : Stmt Unit) (us rest : List Token) : Prop := Stands s (k :: us) rest

theorem whileStatement_settles (hi : inner.Writes) (hk : k.kind = .kwWhile) (tokens : List Token) :
    Settles (StandsAfter k) (whileStatement inner) tokens := by
  refine (Settles.of_takes (expect_takes _ _) _).bind fun l ls _ _ hl =>
    (Settles.of_takes wholeExpression_writes _).bind fun c cs _ _ hc =>
    (Settles.of_takes (expect_takes _ _) _).bind fun r rs rest _ hr =>
    (hi.statement rest).bind fun s us rest _ hs => .pure ?_
  rw [hl.1, hr.1, List.append_nil]
  exact ⟨.loop hk hl.2 hc hr.2 hs.1 hs.2, rfl⟩

theorem ifStatement_settles (hi : inner.Writes) (hk : k.kind = .kwIf) (tokens : List Token) :
    Settles (StandsAfter k) (ifStatement inner) tokens := by
  refine (Settles.of_takes (expect_takes _ _) _).bind fun l ls _ _ hl =>
    (Settles.of_takes wholeExpression_writes _).bind fun c cs _ _ hc =>
    (Settles.of_takes (expect_takes _ _) _).bind fun r rs rest _ hr =>
    (hi.statement rest).bind fun yes us rest _ hy =>
    (take?_settles _ rest).bind fun o vs rest e ho => ?_
  rw [hl.1, hr.1, ho.1.1]
  have shape := hy.1
  rw [e, ho.1.1] at shape
  cases o with
  | none =>
    have follows : atElse rest = false :=
      atElse_eq_false.mpr ((ho.2 rfl).mono fun k hk => by simpa using hk)
    refine .pure ?_
    rw [Option.toList_none, List.nil_append, follows] at shape
    rw [Option.toList_none, List.append_nil, List.append_nil]
    refine ⟨?_, rfl⟩
    rw [follows]
    exact .branch hk hl.2 hc hr.2 shape hy.2
  | some t =>
    have ht : t.kind = .kwElse := by simpa using ho.1.2 t rfl
    have other : Settles (fun n us rest => ∃ s, n = some s ∧ Stands s us rest)
        (some <$> inner.statement) rest := (hi.statement rest).map fun s _ _ h => ⟨s, rfl, h⟩
    refine other.bind fun n ws rest _ hn => .pure ?_
    obtain ⟨no, rfl, hn⟩ := hn
    have closed : yes.Writes false us := by simpa [atElse, ht] using shape
    refine ⟨?_, rfl⟩
    rw [List.append_nil]
    exact .choice hk hl.2 hc hr.2 closed hy.2 ht hn.1 hn.2

theorem forStatement_settles (hi : inner.Writes) (hk : k.kind = .kwFor) (tokens : List Token) :
    Settles (StandsAfter k) (forStatement inner) tokens := by
  refine (Settles.of_takes (expect_takes _ _) _).bind fun l ls _ _ hl =>
    (Settles.of_takes firstClause_writes _).bind fun i is _ _ hf =>
    (Settles.of_takes (unlessKind_takes .semicolon wholeExpression_writes) _).bind fun c cs _ _ hc =>
    (Settles.of_takes (expect_takes _ _) _).bind fun m ms _ _ hm =>
    (Settles.of_takes (unlessKind_takes .rightParen wholeExpression_writes) _).bind fun st ss _ _ hs =>
    (Settles.of_takes (expect_takes _ _) _).bind fun r rs rest _ hr =>
    (hi.statement rest).bind fun s us rest _ hb => .pure ?_
  rw [hl.1, hm.1, hr.1, List.append_nil]
  exact ⟨.counting rfl hk hl.2 hf hc hm.2 hs hr.2 hb.1 hb.2, Stmt.counting_declared? _ _ _ _⟩

theorem statement_settles (hi : inner.Writes) (tokens : List Token) :
    Settles Stands (statement inner) tokens := by
  refine choose_settles (fun t p rest hp => ?_) (fun tokens => ?_) tokens
  · unfold statementFrom? at hp
    split at hp
    all_goals cases hp
    case h_1 ht => exact forStatement_settles hi ht rest
    case h_2 ht => exact ifStatement_settles hi ht rest
    case h_3 ht =>
      intro quiet
      obtain ⟨s, us, hv, e, h⟩ := printStatement_writes ht rest quiet
      exact ⟨s, us, hv, e, h⟩
    case h_4 ht =>
      intro quiet
      obtain ⟨s, us, hv, e, h⟩ := returnStatement_writes ht rest quiet
      exact ⟨s, us, hv, e, h⟩
    case h_5 ht => exact whileStatement_settles hi ht rest
    case h_6 ht =>
      refine (Settles.of_takes (block_writes hi) rest).map fun ss us rest h => ?_
      obtain ⟨ts, r, rfl, h, hr⟩ := h
      exact ⟨.block ht h hr, rfl⟩
  · intro quiet
    obtain ⟨s, us, hv, e, h, x, hx⟩ := expressionStatement_writes tokens quiet
    exact ⟨s, us, hv, e, h, by rw [hx]; rfl⟩

theorem declaration_writes (hi : inner.Writes) : Takes Declares (declaration inner) := by
  have keyword (tokens : List Token) : Settles (fun s us _ => s.Writes true us)
      (choose (declarationFrom? inner) (statement inner)) tokens := by
    refine choose_settles (fun t p rest hp => ?_) (fun tokens => ?_) tokens
    · unfold declarationFrom? at hp
      split at hp
      all_goals cases hp
      case h_1 ht => exact Settles.of_takes (classDeclaration_writes hi ht) rest
      case h_2 ht =>
        exact (Settles.of_takes (routine_writes hi .function) rest).map fun r us _ h => .function ht h
      case h_3 ht =>
        exact (Settles.of_takes (variableDeclaration_writes ht) rest).mono fun _ _ _ h => h.1
    · exact (statement_settles hi tokens).mono fun s us _ h => h.1.loosen us.length (Nat.le_refl _)
  exact fun tokens => recover_settles (keyword tokens)

theorem innerWithin_writes : ∀ bound, (innerWithin bound).Writes
  | [] => by
    have innermost : Inner.Writes ⟨reject .noExpression, reject .noExpression⟩ :=
      ⟨reject_settles _, reject_takes _⟩
    exact ⟨statement_settles innermost, declaration_writes innermost⟩
  | _ :: bound =>
    ⟨statement_settles (innerWithin_writes bound), declaration_writes (innerWithin_writes bound)⟩

theorem wholeDeclaration_writes : Takes Declares wholeDeclaration :=
  Takes.bounded fun bound => (innerWithin_writes bound).declaration

/-- A program without a problem has been read to its end, and all of it are tokens of the trees. -/
theorem program_writes {tokens : List Token} (h : ∀ t ∈ tokens, t.kind ≠ .eof)
    (quiet : (program tokens).errors = []) : ∃ ds, (program tokens).value = some ds ∧
      Row (Stmt.Writes true) (ds.filterMap id) tokens := by
  have nonempty : Takes (fun _ us => us ≠ []) wholeDeclaration := wholeDeclaration_writes.mono
    fun _ us hd e => by
      obtain ⟨t, rest, e', -⟩ := hd.starts
      rw [e] at e'
      cases e'
  have stops : ∀ t ∈ (program tokens).rest.head?, t.kind = .eof :=
    untilKind_stops nonempty tokens tokens (Nat.le_refl _) quiet
  obtain ⟨ds, us, hv, e, hd⟩ := untilKind_takes .eof wholeDeclaration_writes tokens tokens quiet
  have e : tokens = us ++ (program tokens).rest := e
  refine ⟨ds, hv, ?_⟩
  cases hr : (program tokens).rest with
  | nil =>
    rw [e, hr, List.append_nil]
    exact Declares.row_inv hd
  | cons t rest =>
    have last : t.kind = .eof := stops t (by rw [hr]; rfl)
    refine absurd last (h t ?_)
    rw [e, hr]
    simp

end Statements

end Lox.Parse
