import Lox.Proofs.Printing.Beginning

/-! # Trees are read from their tokens

A reader gives the tree whose tokens it is given, if what follows does not bind its last
operand. The loops of the reader build a tree from the left, so it is shown how far they have
come when they are behind its tokens. -/

namespace Lox.Parse

variable {α β : Type} {n k : Nat}

/-- A reader gives the value of tokens that are no more than the bound, if what follows passes
the test. -/
def Restores (n : Nat) (W : α → List Token → Prop) (F : Kind → Prop) (p : Parse α) : Prop :=
  ∀ a us rest, us.length ≤ n → W a us → Ahead F rest → p (us ++ rest) = ⟨some a, rest, []⟩

/-! ## Lists -/

section Lists

variable {W : α → List Token → Prop} {F : Kind → Prop} {S : Kind → Bool} {item : Parse α}

theorem commaList_restores (what : Listed) (hi : Restores n W F item) (hF : F .comma) {as : List α}
    {us : List Token} (h : Commas W as us) : ∀ (bound rest : List Token) (seen : Nat),
      as.length + seen ≤ maxListed → us.length ≤ n → us.length ≤ bound.length → Ahead F rest →
      Ahead (· ≠ .comma) rest → commaList what item seen bound (us ++ rest) = ⟨some as, rest, []⟩ := by
  induction h with
  | @last a us h =>
    intro bound rest seen room short long follows ends
    have room : ∀ tokens, checkRoom what seen tokens = ⟨some (), tokens, []⟩ := checkRoom_reply (by
      simp only [List.length_singleton] at room
      omega)
    have none : take? (· == .comma) rest = ⟨some none, rest, []⟩ :=
      take?_miss fun t ht => by simpa using ends t ht
    cases bound with
    | nil =>
      rw [commaList, bind_reply (room _), bind_reply (hi a us rest short h follows)]
      rfl
    | cons b bound =>
      rw [commaList, bind_reply (room _), bind_reply (hi a us rest short h follows), bind_reply none]
      rfl
  | @cons a as us vs t h ht hs ih =>
    intro bound rest seen room short long follows ends
    simp only [List.length_append, List.length_cons] at room short long
    have room' : ∀ tokens, checkRoom what seen tokens = ⟨some (), tokens, []⟩ :=
      checkRoom_reply (by omega)
    have first := hi a us (t :: (vs ++ rest)) (by omega) h (by simpa [ht] using hF)
    have comma : take? (· == .comma) (t :: (vs ++ rest)) = ⟨some (some t), vs ++ rest, []⟩ :=
      take?_hit (by simp [ht])
    cases bound with
    | nil => simp at long
    | cons b bound =>
      have others := ih bound rest (seen + 1) (by omega) (by omega) (by
        simp only [List.length_cons] at long
        omega) follows ends
      rw [List.append_assoc, List.cons_append, commaList, bind_reply (room' _), bind_reply first,
        bind_reply comma]
      exact bind_reply others

theorem parenthesised_restores (what : Listed) (hi : Restores n W F item) (hF : F .comma)
    (hF' : F .rightParen) (hS : ∀ a us, W a us → Starts S us) (hS' : S .rightParen = false)
    {as : List α} {us : List Token} (h : Listing W as us) (short : us.length ≤ n) {close : Token}
    (hc : close.kind = .rightParen) (rest : List Token) :
    parenthesised what item (us ++ close :: rest) = ⟨some as, close :: rest, []⟩ := by
  cases h with
  | empty =>
    have here : atKind .rightParen (close :: rest) = ⟨some true, close :: rest, []⟩ := by
      simp [atKind, hc]
    exact bind_reply here
  | full h hn =>
    obtain ⟨t, vs, rfl, ht⟩ : Starts S us := by
      cases h with
      | last h => exact hS _ _ h
      | cons h => exact (hS _ _ h).append _
    have other : t.kind ≠ .rightParen := fun e => by rw [e, hS'] at ht; cases ht
    have elsewhere : atKind .rightParen (t :: vs ++ close :: rest) =
        ⟨some false, t :: vs ++ close :: rest, []⟩ := by simp [atKind, other]
    rw [parenthesised, bind_reply elsewhere]
    exact commaList_restores what hi hF h _ (close :: rest) 0 hn short (by simp)
      (ahead_cons.mpr (hc ▸ hF')) (by simp [hc])

/-- Items up to a token that can stand behind each of them but begins none. -/
theorem untilKind_restores (kind : Kind) (hi : Restores n W F item) (hS : ∀ a us, W a us → Starts S us)
    (hF : ∀ k, S k = true → F k) (hF' : F kind) (hS' : S kind = false) {as : List α} {us : List Token}
    (h : Row W as us) : ∀ bound rest : List Token, us.length ≤ n → us.length ≤ bound.length →
      Ahead (· = kind) rest → untilKind kind item bound (us ++ rest) = ⟨some as, rest, []⟩ := by
  induction h with
  | nil =>
    intro bound rest _ _ ends
    exact untilKind_end ends
  | @cons a as us vs h hs ih =>
    intro bound rest short long ends
    obtain ⟨t, us, rfl, ht⟩ := hS a us h
    simp only [List.length_append, List.length_cons] at short long
    have follows : Ahead F (vs ++ rest) := by
      cases hs with
      | nil => exact ends.mono fun k e => e ▸ hF'
      | cons h' =>
        obtain ⟨u, ws, rfl, hu⟩ := hS _ _ h'
        exact ahead_cons.mpr (hF _ hu)
    have first := hi a (t :: us) (vs ++ rest) (by simp; omega) h follows
    have other : t.kind ≠ kind := fun e => by rw [e, hS'] at ht; cases ht
    cases bound with
    | nil => simp at long
    | cons b bound =>
      have others := ih bound rest (by omega) (by simp only [List.length_cons] at long; omega) ends
      rw [List.append_assoc]
      exact (untilKind_item other first).trans (bind_reply others)

end Lists

/-! ## Operands -/

section Expressions

variable {expression operand : Parse (Expr Unit)}

/-- The reader for what is nested in expressions of at most one token more. -/
def Regains (n : Nat) (expression : Parse (Expr Unit)) : Prop :=
  Restores n Expr.Writes (7 < ·.looseness) expression

/-- The tokens of an expression that holds together that tightly. -/
def Within (k : Nat) (e : Expr Unit) (ts : List Token) : Prop := e.Writes ts ∧ e.rank ≤ k

theorem primary_denotes {t : Token} {v : Literal} (h : t.denotes? = some v) (rest : List Token) :
    primary expression (t :: rest) = ⟨some (.literal v), rest, []⟩ := by
  have begun : operandFrom? expression t = some (pure (.literal v)) := by
    cases hk : t.kind <;> simp_all [Token.denotes?, operandFrom?]
  exact choose_reply begun

theorem primary_super {t d m : Token} (ht : t.kind = .kwSuper) (hd : d.kind = .dot)
    (hm : m.kind = .identifier) (rest : List Token) :
    primary expression (t :: d :: m :: rest) = ⟨some (.super ⟨(), t⟩ m), rest, []⟩ := by
  have begun : operandFrom? expression t = some (do
      let _ ← expect .dot .noSuperDot
      let method ← expect .identifier .noSuperMethod
      pure (.super ⟨(), t⟩ method)) := by simp [operandFrom?, ht]
  rw [primary, choose_reply begun, bind_reply (expect_reply _ hd), bind_reply (expect_reply _ hm)]
  rfl

theorem primary_grouping (he : Regains n expression) {inner : Expr Unit} {us : List Token} {l r : Token}
    (hl : l.kind = .leftParen) (h : inner.Writes us) (short : us.length ≤ n) (hr : r.kind = .rightParen)
    (rest : List Token) :
    primary expression (l :: (us ++ r :: rest)) = ⟨some (.grouping inner), rest, []⟩ := by
  have begun : operandFrom? expression l = some (do
      let inner ← expression
      let _ ← expect .rightParen .openGrouping
      pure (.grouping inner)) := by simp [operandFrom?, hl]
  have nested := he inner us (r :: rest) short h (by simp [hr, Kind.looseness])
  rw [primary, choose_reply begun, bind_reply nested, bind_reply (expect_reply _ hr)]
  rfl

theorem suffixes_call (he : Regains n expression) {as : List (Expr Unit)} {us : List Token} {l p : Token}
    (hl : l.kind = .leftParen) (ha : Listing Expr.Writes as us) (short : us.length ≤ n)
    (hp : p.kind = .rightParen) (callee : Expr Unit) (b : Token) (bound rest : List Token) :
    suffixes expression callee (b :: bound) (l :: (us ++ p :: rest)) =
      suffixes expression (.call callee p as) bound rest := by
  have arguments := parenthesised_restores .arguments he (by decide) (by decide)
    (fun _ _ h => Expr.Writes.starts h) rfl ha short hp rest
  have here : take? (· == .leftParen) (l :: (us ++ p :: rest)) =
      ⟨some (some l), us ++ p :: rest, []⟩ := take?_hit (by simp [hl])
  rw [suffixes, bind_reply here]
  dsimp only
  rw [bind_reply arguments]
  exact bind_reply (expect_reply _ hp)

/-- The reader has come behind the tokens of a call, and has enough of its bound left to go on. -/
def Reached (expression : Parse (Expr Unit)) (e : Expr Unit) (us rest : List Token) : Prop :=
  ∃ bound, rest.length ≤ bound.length ∧
    call expression (us ++ rest) = suffixes expression e bound rest

theorem Reached.of_primary {e : Expr Unit} {us rest : List Token}
    (h : primary expression (us ++ rest) = ⟨some e, rest, []⟩) : Reached expression e us rest :=
  ⟨rest, Nat.le_refl _, bind_reply h⟩

/-- The loop goes on with one more suffix. -/
theorem Reached.further {e e' : Expr Unit} {us vs rest : List Token} {t : Token}
    (h : Reached expression e us (t :: (vs ++ rest)))
    (suffix : ∀ b bound, suffixes expression e (b :: bound) (t :: (vs ++ rest)) =
      suffixes expression e' bound rest) : Reached expression e' (us ++ t :: vs) rest := by
  obtain ⟨bound, long, reached⟩ := h
  cases bound with
  | nil => simp at long
  | cons b bound =>
    refine ⟨bound, ?_, ?_⟩
    · simp only [List.length_cons, List.length_append] at long
      omega
    · rw [List.append_assoc, List.cons_append, reached, suffix]

theorem call_reaches (he : Regains n expression) : ∀ {e : Expr Unit} {us : List Token} (rest : List Token),
    e.Writes us → e.rank = 0 → us.length ≤ n + 1 → Reached expression e us rest
  | .literal _, _, rest, h, _, _ => by
    cases h with
    | literal h => exact .of_primary (primary_denotes h rest)
  | .name _, _, rest, h, _, _ => by
    cases h with
    | @name t ht =>
      have begun : operandFrom? expression t = some (pure (.name ⟨(), t⟩)) := by simp [operandFrom?, ht]
      exact .of_primary (choose_reply begun)
  | .this _, _, rest, h, _, _ => by
    cases h with
    | @this t ht =>
      have begun : operandFrom? expression t = some (pure (.this ⟨(), t⟩)) := by simp [operandFrom?, ht]
      exact .of_primary (choose_reply begun)
  | .super _ _, _, rest, h, _, _ => by
    cases h with
    | super ht hd hm => exact .of_primary (primary_super ht hd hm rest)
  | .grouping _, _, rest, h, _, short => by
    cases h with
    | @grouping _ us l r hl h hr =>
      simp only [List.length_cons, List.length_append] at short
      have reply := primary_grouping he hl h (by omega) hr rest
      exact .of_primary (by simpa using reply)
  | .call callee close _, _, rest, h, _, short => by
    cases h with
    | @call _ _ us vs l _ hc hk hl ha hp =>
      simp only [List.length_cons, List.length_append] at short
      have behind := call_reaches he (l :: (vs ++ [close] ++ rest)) hc hk (by omega)
      refine behind.further fun b bound => ?_
      rw [List.append_assoc, List.singleton_append]
      exact suffixes_call he hl ha (by omega) hp callee b bound rest
  | .get object property, _, rest, h, _, short => by
    cases h with
    | @get _ us d _ ho hk hd hp =>
      simp only [List.length_cons, List.length_append] at short
      have behind := call_reaches he (d :: ([property] ++ rest)) ho hk (by omega)
      exact behind.further fun b bound => suffixes_property hd hp object b bound rest
  | .unary _ _, _, _, _, hk, _ => by cases hk
  | .binary _ _ _, _, _, _, hk, _ => by cases hk
  | .logical _ _ _, _, _, _, hk, _ => by cases hk
  | .assign _ _, _, _, _, hk, _ => by cases hk
  | .set _ _ _, _, _, _, hk, _ => by cases hk

theorem call_restores (he : Regains n expression) :
    Restores (n + 1) (Within 0) (0 < ·.looseness) (call expression) := by
  intro e us rest short h follows
  obtain ⟨bound, -, reached⟩ := call_reaches he rest h.1 (Nat.le_zero.mp h.2) short
  exact reached.trans (suffixes_stop follows e bound)

/-! ## Operators -/

/-- The operators in front of an operand. -/
theorem Within.operators : ∀ {e : Expr Unit} {us : List Token}, Within 1 e us → ∃ ops vs operand,
    us = ops ++ vs ∧ (∀ op ∈ ops, isUnary op.kind = true) ∧ e = ops.foldr .unary operand ∧
      Within 0 operand vs
  | .unary op right, _, h => by
    cases h.1 with
    | @unary _ _ us ho hr hk =>
      obtain ⟨ops, vs, operand, rfl, hops, rfl, hv⟩ := Within.operators ⟨hr, hk⟩
      exact ⟨op :: ops, vs, operand, rfl, List.forall_mem_cons.mpr ⟨ho, hops⟩, rfl, hv⟩
  | .binary _ op _, us, h => by
    cases h.1 with
    | binary ho =>
      have := Kind.looseness_of_isBinary _ ho
      have := h.2
      simp only [Expr.rank] at this
      omega
  | .logical _ op _, us, h => by
    cases h.1 with
    | logical ho =>
      have := Kind.looseness_of_isLogical _ ho
      have := h.2
      simp only [Expr.rank] at this
      omega
  | .assign _ _, _, h => absurd h.2 (by simp [Expr.rank])
  | .set _ _ _, _, h => absurd h.2 (by simp [Expr.rank])
  | .literal v, us, h => ⟨[], us, .literal v, rfl, by simp, rfl, h.1, Nat.le_refl 0⟩
  | .grouping inner, us, h => ⟨[], us, .grouping inner, rfl, by simp, rfl, h.1, Nat.le_refl 0⟩
  | .name t, us, h => ⟨[], us, .name t, rfl, by simp, rfl, h.1, Nat.le_refl 0⟩
  | .call c p as, us, h => ⟨[], us, .call c p as, rfl, by simp, rfl, h.1, Nat.le_refl 0⟩
  | .get o p, us, h => ⟨[], us, .get o p, rfl, by simp, rfl, h.1, Nat.le_refl 0⟩
  | .this t, us, h => ⟨[], us, .this t, rfl, by simp, rfl, h.1, Nat.le_refl 0⟩
  | .super t m, us, h => ⟨[], us, .super t m, rfl, by simp, rfl, h.1, Nat.le_refl 0⟩

theorem unary_restores (he : Regains n expression) :
    Restores (n + 1) (Within 1) (1 ≤ ·.looseness) (unary expression) := by
  intro e us rest short h follows
  obtain ⟨ops, vs, operand, rfl, hops, rfl, hv⟩ := h.operators
  simp only [List.length_append] at short
  have reply := call_restores he operand vs rest (by omega) hv follows
  obtain ⟨t, vs, rfl, ht⟩ := hv.1.startsOperand (Nat.le_zero.mp hv.2)
  rw [List.append_assoc]
  exact unary_reply hops (by simpa using ht) reply

section Levels

variable {operator : Kind → Bool} {join : Expr Unit → Token → Expr Unit → Expr Unit}

/-- An expression of a level that is split at its last operator. -/
inductive Splits (join : Expr Unit → Token → Expr Unit → Expr Unit) (k : Nat) :
    Expr Unit → List Token → Prop
  | mk {l r : Expr Unit} {op : Token} {us vs : List Token} (ho : op.kind.looseness = k)
      (hl : Within (k + 1) l us) (hr : Within k r vs) : Splits join k (join l op r) (us ++ op :: vs)

theorem level_reaches (hop : ∀ kind, operator kind = true ↔ kind.looseness = k)
    (hs : ∀ e us, e.Writes us → e.rank = k + 1 → Splits join k e us)
    (ho : Restores n (Within k) (k ≤ ·.looseness) operand) (m : Nat) :
    ∀ (e : Expr Unit) (us rest : List Token), us.length ≤ m → us.length ≤ n → Within (k + 1) e us →
      Ahead (k ≤ ·.looseness) rest → ∃ bound, rest.length ≤ bound.length ∧
        level operator join operand (us ++ rest) = joined operator join operand e bound rest := by
  induction m with
  | zero =>
    intro e us rest short _ h _
    obtain ⟨t, us, rfl, -⟩ := h.1.starts
    simp at short
  | succ m ih =>
    intro e us rest small short h follows
    by_cases hk : e.rank ≤ k
    · exact ⟨rest, Nat.le_refl _, bind_reply (ho e us rest short ⟨h.1, hk⟩ follows)⟩
    · cases hs e us h.1 (Nat.le_antisymm h.2 (by omega)) with
      | @mk l r op us vs hop' hl hr =>
        simp only [List.length_append, List.length_cons] at small short
        obtain ⟨bound, long, reached⟩ := ih l us (op :: (vs ++ rest)) (by omega) (by omega) hl
          (ahead_cons.mpr (Nat.le_of_eq hop'.symm))
        have right := ho r vs rest (by omega) hr follows
        have hit : take? operator (op :: (vs ++ rest)) = ⟨some (some op), vs ++ rest, []⟩ :=
          take?_hit ((hop _).mpr hop')
        cases bound with
        | nil => simp at long
        | cons b bound =>
          refine ⟨bound, ?_, ?_⟩
          · simp only [List.length_cons, List.length_append] at long
            omega
          · rw [List.append_assoc, List.cons_append, reached, joined, bind_reply hit]
            exact bind_reply right

theorem level_restores (hop : ∀ kind, operator kind = true ↔ kind.looseness = k)
    (hs : ∀ e us, e.Writes us → e.rank = k + 1 → Splits join k e us)
    (ho : Restores n (Within k) (k ≤ ·.looseness) operand) :
    Restores n (Within (k + 1)) (k + 1 ≤ ·.looseness) (level operator join operand) := by
  intro e us rest short h follows
  obtain ⟨bound, -, reached⟩ := level_reaches hop hs ho us.length e us rest (Nat.le_refl _) short h
    (follows.mono fun _ h => Nat.le_of_succ_le h)
  refine reached.trans (joined_stop (follows.mono fun kind h => ?_) e bound)
  rw [Bool.eq_false_iff]
  intro hk
  have := (hop kind).mp hk
  omega

end Levels

theorem Splits.binary {e : Expr Unit} {us : List Token} (low : 1 ≤ k) (high : k ≤ 4) (h : e.Writes us)
    (hk : e.rank = k + 1) : Splits .binary k e us := by
  cases h with
  | @binary l r op us vs ho hl hkl hr hkr =>
    simp only [Expr.rank, Nat.add_right_cancel_iff] at hk
    exact .mk hk ⟨hl, hk ▸ hkl⟩ ⟨hr, hk ▸ hkr⟩
  | @logical l r op us vs ho =>
    simp only [Expr.rank] at hk
    have := Kind.looseness_of_isLogical _ ho
    omega
  | _ =>
    simp only [Expr.rank] at hk
    omega

theorem Splits.logical {e : Expr Unit} {us : List Token} (low : 5 ≤ k) (high : k ≤ 6) (h : e.Writes us)
    (hk : e.rank = k + 1) : Splits .logical k e us := by
  cases h with
  | @logical l r op us vs ho hl hkl hr hkr =>
    simp only [Expr.rank, Nat.add_right_cancel_iff] at hk
    exact .mk hk ⟨hl, hk ▸ hkl⟩ ⟨hr, hk ▸ hkr⟩
  | @binary l r op us vs ho =>
    simp only [Expr.rank] at hk
    have := Kind.looseness_of_isBinary _ ho
    omega
  | _ =>
    simp only [Expr.rank] at hk
    omega

theorem disjunction_restores (he : Regains n expression) :
    Restores (n + 1) (Within 7) (7 ≤ ·.looseness) (disjunction expression) := by
  have factor : Restores (n + 1) (Within 2) (2 ≤ ·.looseness) (factor expression) :=
    level_restores (fun kind => by cases kind <;> decide)
      (fun _ _ => Splits.binary (by decide) (by decide)) (unary_restores he)
  have term : Restores (n + 1) (Within 3) (3 ≤ ·.looseness) (term expression) :=
    level_restores (fun kind => by cases kind <;> decide)
      (fun _ _ => Splits.binary (by decide) (by decide)) factor
  have comparison : Restores (n + 1) (Within 4) (4 ≤ ·.looseness) (comparison expression) :=
    level_restores (fun kind => by cases kind <;> decide)
      (fun _ _ => Splits.binary (by decide) (by decide)) term
  have equality : Restores (n + 1) (Within 5) (5 ≤ ·.looseness) (equality expression) :=
    level_restores (fun kind => by cases kind <;> decide)
      (fun _ _ => Splits.binary (by decide) (by decide)) comparison
  have conjunction : Restores (n + 1) (Within 6) (6 ≤ ·.looseness) (conjunction expression) :=
    level_restores (fun kind => by cases kind <;> decide)
      (fun _ _ => Splits.logical (by decide) (by decide)) equality
  exact level_restores (fun kind => by cases kind <;> decide)
    (fun _ _ => Splits.logical (by decide) (by decide)) conjunction

/-! ## Whole expressions -/

theorem assignment_restores (he : Regains n expression) : Regains (n + 1) (assignment expression) := by
  intro e us rest short h follows
  have plain (hk : e.rank ≤ 7) : assignment expression (us ++ rest) = ⟨some e, rest, []⟩ := by
    have none : take? (· == .equal) rest = ⟨some none, rest, []⟩ := take?_miss fun t ht => by
      have := follows t ht
      cases hk : t.kind <;> simp_all [Kind.looseness]
    rw [assignment, bind_reply (disjunction_restores he e us rest short ⟨h, hk⟩
      (follows.mono fun _ h => Nat.le_of_lt h)), bind_reply none]
    rfl
  cases h with
  | @assign t q value us ht hq h =>
    simp only [List.length_cons] at short
    have target := disjunction_restores he (.name ⟨(), t⟩) [t] (q :: (us ++ rest)) (by simp)
      ⟨.name ht, by simp [Expr.rank]⟩ (by simp [hq, Kind.looseness])
    have behind := he value us rest (by omega) h follows
    change assignment expression ([t] ++ q :: (us ++ rest)) = _
    rw [assignment, bind_reply target, bind_reply (take?_hit (by simp [hq]))]
    dsimp only
    rw [bind_reply behind]
    rfl
  | @set object value us vs d p q ho hk hd hp hq h =>
    simp only [List.length_append, List.length_cons] at short
    have target := disjunction_restores he (.get object p) (us ++ [d, p]) (q :: (vs ++ rest))
      (by simp; omega) ⟨.get ho hk hd hp, by simp [Expr.rank]⟩ (by simp [hq, Kind.looseness])
    have behind := he value vs rest (by omega) h follows
    have tokens : us ++ d :: p :: q :: vs ++ rest = us ++ [d, p] ++ q :: (vs ++ rest) := by simp
    rw [tokens, assignment, bind_reply target, bind_reply (take?_hit (by simp [hq]))]
    dsimp only
    rw [bind_reply behind]
    rfl
  | binary ho =>
    have := Kind.looseness_of_isBinary _ ho
    exact plain (by simp only [Expr.rank]; omega)
  | logical ho =>
    have := Kind.looseness_of_isLogical _ ho
    exact plain (by simp only [Expr.rank]; omega)
  | literal | grouping | unary | name | call | get | this | super => exact plain (by simp [Expr.rank])

theorem expressionWithin_restores : ∀ bound : List Token, Regains bound.length (expressionWithin bound)
  | [] => by
    intro e us rest short h _
    obtain ⟨t, us, rfl, -⟩ := h.starts
    simp at short
  | _ :: bound => assignment_restores (expressionWithin_restores bound)

/-- An expression in front of a token that does not go on with it. -/
theorem wholeExpression_reply {e : Expr Unit} {us : List Token} (h : e.Writes us) {t : Token}
    (ht : 7 < t.kind.looseness) (rest : List Token) :
    wholeExpression (us ++ t :: rest) = ⟨some e, t :: rest, []⟩ :=
  expressionWithin_restores (us ++ t :: rest) e us (t :: rest) (by simp) h (ahead_cons.mpr ht)

end Expressions

end Lox.Parse
