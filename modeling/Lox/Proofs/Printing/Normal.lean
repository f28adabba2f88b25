import Lox.Proofs.Printing.Writing

/-! # Trees in normal form are printed

The tokens that are put between those of a tree in normal form are of the kinds that
the places ask for. The end of a source is never among them. -/

namespace Lox

variable {μ : Type}

theorem Literal.token_denotes : ∀ v : Literal, v.token.denotes? = some v
  | .nil | .bool true | .bool false | .number _ | .string _ => rfl

section Lists

variable {α : Type} {P : α → List Token → Prop} {f : α → List Token}

theorem Commas.of_each : ∀ {a : α} {as : List α}, (∀ x ∈ a :: as, P x (f x)) →
    Commas P (a :: as) (separated ((a :: as).map f))
  | a, [], h => .last (h a List.mem_cons_self)
  | a, _ :: _, h =>
    .cons (h a List.mem_cons_self) rfl (Commas.of_each fun x m => h x (List.mem_cons_of_mem a m))

theorem Listing.of_each {as : List α} (h : ∀ x ∈ as, P x (f x)) (hn : as.length ≤ maxListed) :
    Listing P as (separated (as.map f)) := by
  cases as with
  | nil => exact .empty
  | cons a as => exact .full (.of_each h) hn

end Lists

mutual

theorem Expr.Normal.writes : ∀ {e : Expr Unit}, e.Normal → e.Writes e.tokens
  | .literal v, _ => .literal v.token_denotes
  | .grouping _, h => .grouping rfl (Expr.Normal.writes h) rfl
  | .unary _ _, h => .unary h.1 h.2.1.writes h.2.2
  | .binary _ _ _, h => .binary h.1 h.2.1.1.writes h.2.1.2 h.2.2.1.writes h.2.2.2
  | .logical _ _ _, h => .logical h.1 h.2.1.1.writes h.2.1.2 h.2.2.1.writes h.2.2.2
  | .name ⟨(), _⟩, h => .name h
  | .assign ⟨(), _⟩ _, h => .assign h.1 rfl h.2.writes
  | .call _ _ arguments, h => by
    have listed := Listing.of_each (Expr.AllNormal.writes h.2.2.1) h.2.2.2
    rw [← Expr.tokensOfEach_eq] at listed
    exact .call h.1.1.writes h.1.2 rfl listed h.2.1
  | .get _ _, h => .get h.1.1.writes h.1.2 rfl h.2
  | .set _ _ _, h => .set h.1.1.writes h.1.2 rfl h.2.1 rfl h.2.2.writes
  | .this ⟨(), _⟩, h => .this h
  | .super ⟨(), _⟩ _, h => .super h.1 rfl h.2

theorem Expr.AllNormal.writes : ∀ {es : List (Expr Unit)}, Expr.AllNormal es →
    ∀ e ∈ es, e.Writes e.tokens
  | [], _ => fun _ m => absurd m List.not_mem_nil
  | _ :: _, h => List.forall_mem_cons.mpr ⟨h.1.writes, Expr.AllNormal.writes h.2⟩

end

theorem Expr.Normal?.writes : ∀ {e : Option (Expr Unit)}, Expr.Normal? e →
    Clause Expr.Writes e (Expr.tokens? e)
  | none, _ => .absent
  | some _, h => .present (Expr.Normal.writes h)

theorem Reference.writesParent : ∀ {r : Option (Reference Unit)}, (∀ p ∈ r, p.name.kind = .identifier) →
    Reference.WritesParent r (Reference.parentTokens r)
  | none, _ => .absent
  | some ⟨(), _⟩, h => .present rfl (h _ rfl)

mutual

/-- What may stand in front of an `else` is printed so that it may. -/
theorem Stmt.Normal.writes : ∀ {s : Stmt Unit} {o : Bool}, s.Normal → (s.endsOpen = true → o = true) →
    s.Writes o s.tokens
  | .expression _, _, h, _ => .expression (Expr.Normal.writes h) rfl
  | .print _, _, h, _ => .print rfl (Expr.Normal.writes h) rfl
  | .declare _ none, _, h, _ => .declare rfl h.1 rfl
  | .declare _ (some _), _, h, _ => .define rfl h.1 rfl (Expr.Normal.writes h.2) rfl
  | .block _, _, h, _ => .block rfl (Stmt.AllNormal.writes h) rfl
  | .branch _ yes none, o, h, k => by
    have mine := Stmt.Writes.branch (k := .plain .kwIf) (l := .plain .leftParen) (r := .plain .rightParen)
      rfl rfl h.1.writes rfl (h.2.1.1.writes fun _ => rfl) h.2.1.2
    rw [k rfl]
    simpa [Stmt.tokens, Stmt.elseTokens] using mine
  | .branch _ _ (some _), _, h, k =>
    .choice rfl rfl h.1.writes rfl (h.2.1.1.writes fun e => by rw [h.2.2.2 rfl] at e; cases e) h.2.1.2 rfl
      (Stmt.Normal.writes h.2.2.1.1 k) h.2.2.1.2
  | .loop _ _, _, h, k => .loop rfl rfl h.1.writes rfl (h.2.1.writes k) h.2.2
  | .function _, _, h, _ => .function rfl (Routine.Normal.writes h)
  | .leave _ _, _, h, _ => .leave h.1 (Expr.Normal?.writes h.2) rfl
  | .klass _ _ _, _, h, _ =>
    .klass rfl h.1 (Reference.writesParent h.2.1) rfl (Routine.AllNormal.writes h.2.2) rfl

theorem Stmt.AllNormal.writes : ∀ {ss : List (Stmt Unit)}, Stmt.AllNormal ss →
    Row (Stmt.Writes true) ss (Stmt.allTokens ss)
  | [], _ => .nil
  | _ :: _, h => .cons (h.1.writes fun _ => rfl) (Stmt.AllNormal.writes h.2)

theorem Routine.Normal.writes : ∀ {r : Routine (Stmt Unit)}, Routine.Normal r →
    Routine.Writes (Stmt.Writes true) r (Routine.tokens r)
  | ⟨_, _, _⟩, h =>
    .mk h.1 rfl (.of_each (fun p m => ⟨h.2.1.1 p m, rfl⟩) h.2.1.2) rfl rfl
      (Stmt.AllNormal.writes h.2.2) rfl

theorem Routine.AllNormal.writes : ∀ {rs : List (Routine (Stmt Unit))}, Routine.AllNormal rs →
    Row (Routine.Writes (Stmt.Writes true)) rs (Routine.allTokens rs)
  | [], _ => .nil
  | _ :: _, h => .cons (Routine.Normal.writes h.1) (Routine.AllNormal.writes h.2)

end

/-- Tokens that stand in front of the end. -/
def Inside (ts : List Token) : Prop := ∀ t ∈ ts, t.kind ≠ .eof

namespace Inside

variable {t : Token} {k : Kind} {ts us : List Token}

theorem nil : Inside [] := fun _ m => absurd m List.not_mem_nil

theorem cons (hk : t.kind = k) (h : Inside ts) (he : k ≠ .eof := by decide) : Inside (t :: ts) :=
  List.forall_mem_cons.mpr ⟨hk ▸ he, h⟩

theorem plain (h : Inside ts) (he : k ≠ .eof := by decide) : Inside (.plain k :: ts) := cons rfl h he

theorem append (h : Inside ts) (k : Inside us) : Inside (ts ++ us) :=
  List.forall_mem_append.mpr ⟨h, k⟩

/-- A token of some kind that passes a test, which the end does not. -/
theorem passing {test : Kind → Bool} (ht : test t.kind = true) (h : Inside ts)
    (he : test .eof = false := by rfl) : Inside (t :: ts) :=
  cons rfl h fun e => by rw [e, he] at ht; cases ht

end Inside

theorem Literal.token_inside : ∀ v : Literal, Inside [v.token]
  | .nil | .bool true | .bool false => .plain .nil
  | .number _ => .cons (k := .number) rfl .nil
  | .string _ => .cons (k := .string) rfl .nil

theorem separated_inside : ∀ {rows : List (List Token)}, (∀ ts ∈ rows, Inside ts) → Inside (separated rows)
  | [], _ => .nil
  | [ts], h => h ts List.mem_cons_self
  | _ :: _ :: _, h =>
    have h := List.forall_mem_cons.mp h
    h.1.append (.plain (separated_inside h.2))

mutual

theorem Expr.Normal.inside : ∀ {e : Expr μ}, e.Normal → Inside e.tokens
  | .literal v, _ => v.token_inside
  | .grouping inner, h => .plain ((Expr.Normal.inside (e := inner) h).append (.plain .nil))
  | .unary _ _, h => .passing h.1 h.2.1.inside
  | .binary _ _ _, h | .logical _ _ _, h => h.2.1.1.inside.append (.passing h.1 h.2.2.1.inside)
  | .name _, h => .cons h .nil
  | .assign _ _, h => .cons h.1 (.plain h.2.inside)
  | .call _ _ arguments, h => by
    have listed := separated_inside (Expr.AllNormal.inside h.2.2.1)
    exact h.1.1.inside.append (.plain (listed.append (.cons h.2.1 .nil)))
  | .get _ _, h => h.1.1.inside.append (.plain (.cons h.2 .nil))
  | .set _ _ _, h => h.1.1.inside.append (.plain (.cons h.2.1 (.plain h.2.2.inside)))
  | .this _, h => .cons h .nil
  | .super _ _, h => .cons h.1 (.plain (.cons h.2 .nil))

theorem Expr.AllNormal.inside : ∀ {es : List (Expr μ)}, Expr.AllNormal es →
    ∀ ts ∈ Expr.tokensOfEach es, Inside ts
  | [], _ => fun _ m => absurd m List.not_mem_nil
  | _ :: _, h => List.forall_mem_cons.mpr ⟨h.1.inside, Expr.AllNormal.inside h.2⟩

end

theorem Expr.Normal?.inside : ∀ {e : Option (Expr μ)}, Expr.Normal? e → Inside (Expr.tokens? e)
  | none, _ => .nil
  | some _, h => Expr.Normal.inside h

theorem Reference.parentTokens_inside : ∀ {r : Option (Reference μ)},
    (∀ p ∈ r, p.name.kind = .identifier) → Inside (Reference.parentTokens r)
  | none, _ => .nil
  | some r, h => .plain (.cons (h r rfl) .nil)

mutual

theorem Stmt.Normal.inside : ∀ {s : Stmt μ}, s.Normal → Inside s.tokens
  | .expression value, h => (Expr.Normal.inside (e := value) h).append (.plain .nil)
  | .print value, h => .plain ((Expr.Normal.inside (e := value) h).append (.plain .nil))
  | .declare _ none, h => .plain (.cons h.1 (.plain .nil))
  | .declare _ (some _), h =>
    .plain (.cons h.1 (.plain ((Expr.Normal.inside h.2).append (.plain .nil))))
  | .block _, h => .plain ((Stmt.AllNormal.inside h).append (.plain .nil))
  | .branch _ _ _, h =>
    .plain (.plain (h.1.inside.append (.plain (h.2.1.1.inside.append (Stmt.NormalElse.inside h.2.2.1)))))
  | .loop _ _, h => .plain (.plain (h.1.inside.append (.plain h.2.1.inside)))
  | .function _, h => .plain (Routine.Normal.inside h)
  | .leave _ _, h => .cons h.1 ((Expr.Normal?.inside h.2).append (.plain .nil))
  | .klass _ _ _, h =>
    .plain (.cons h.1 ((Reference.parentTokens_inside h.2.1).append
      (.plain ((Routine.AllNormal.inside h.2.2).append (.plain .nil)))))

theorem Stmt.NormalElse.inside : ∀ {s : Option (Stmt μ)}, Stmt.NormalElse s → Inside (Stmt.elseTokens s)
  | none, _ => .nil
  | some _, h => .plain (Stmt.Normal.inside h.1)

theorem Stmt.AllNormal.inside : ∀ {ss : List (Stmt μ)}, Stmt.AllNormal ss → Inside (Stmt.allTokens ss)
  | [], _ => .nil
  | _ :: _, h => h.1.inside.append (Stmt.AllNormal.inside h.2)

theorem Routine.Normal.inside : ∀ {r : Routine (Stmt μ)}, Routine.Normal r → Inside (Routine.tokens r)
  | ⟨_, params, _⟩, h => by
    have names : Inside (separated (params.map ([·]))) := separated_inside fun ts m => by
      obtain ⟨p, hp, rfl⟩ := List.mem_map.mp m
      exact .cons (h.2.1.1 p hp) .nil
    exact .cons h.1 (.plain (names.append
      (.plain (.plain ((Stmt.AllNormal.inside h.2.2).append (.plain .nil))))))

theorem Routine.AllNormal.inside : ∀ {rs : List (Routine (Stmt μ))}, Routine.AllNormal rs →
    Inside (Routine.allTokens rs)
  | [], _ => .nil
  | _ :: _, h => (Routine.Normal.inside h.1).append (Routine.AllNormal.inside h.2)

end

end Lox
