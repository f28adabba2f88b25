import Lox.Parse.Program
import Lox.Proofs.Printing.Tokens

/-! # The tokens of a tree

Which tokens a tree in normal form may be read from. The tree keeps some of them, and
the others only have to be of the right kind. A printer writes one such row of tokens,
and any other row says the same. -/

namespace Lox

section Lists

variable {α : Type} (P : α → List Token → Prop)

/-- One after the other. -/
inductive Row : List α → List Token → Prop
  | nil : Row [] []
  | cons {a : α} {as : List α} {ts us : List Token} (h : P a ts) (hs : Row as us) :
      Row (a :: as) (ts ++ us)

/-- One after the other with commas in between. -/
inductive Commas : List α → List Token → Prop
  | last {a : α} {ts : List Token} (h : P a ts) : Commas [a] ts
  | cons {a : α} {as : List α} {ts us : List Token} {c : Token} (h : P a ts) (hc : c.kind = .comma)
      (hs : Commas as us) : Commas (a :: as) (ts ++ c :: us)

/-- Elements that may be missing altogether. -/
inductive Listing : List α → List Token → Prop
  | empty : Listing [] []
  | full {as : List α} {ts : List Token} (h : Commas P as ts) (hn : as.length ≤ maxListed) :
      Listing as ts

/-- Something that may be missing. -/
inductive Clause : Option α → List Token → Prop
  | absent : Clause none []
  | present {a : α} {ts : List Token} (h : P a ts) : Clause (some a) ts

end Lists

/-- A name by itself. -/
def Token.Names (t : Token) (ts : List Token) : Prop := t.kind = .identifier ∧ ts = [t]

inductive Expr.Writes : Expr Unit → List Token → Prop
  | literal {t : Token} {v : Literal} (h : t.denotes? = some v) : Writes (.literal v) [t]
  | grouping {e : Expr Unit} {ts : List Token} {l r : Token} (hl : l.kind = .leftParen) (h : Writes e ts)
      (hr : r.kind = .rightParen) : Writes (.grouping e) (l :: (ts ++ [r]))
  | unary {op : Token} {e : Expr Unit} {ts : List Token} (ho : Parse.isUnary op.kind = true)
      (h : Writes e ts) (hk : e.rank ≤ 1) : Writes (.unary op e) (op :: ts)
  | binary {l r : Expr Unit} {op : Token} {ts us : List Token} (ho : op.kind.isBinary = true)
      (hl : Writes l ts) (hkl : l.rank ≤ op.kind.looseness + 1) (hr : Writes r us)
      (hkr : r.rank ≤ op.kind.looseness) : Writes (.binary l op r) (ts ++ op :: us)
  | logical {l r : Expr Unit} {op : Token} {ts us : List Token} (ho : op.kind.isLogical = true)
      (hl : Writes l ts) (hkl : l.rank ≤ op.kind.looseness + 1) (hr : Writes r us)
      (hkr : r.rank ≤ op.kind.looseness) : Writes (.logical l op r) (ts ++ op :: us)
  | name {t : Token} (ht : t.kind = .identifier) : Writes (.name ⟨(), t⟩) [t]
  | assign {t q : Token} {e : Expr Unit} {ts : List Token} (ht : t.kind = .identifier)
      (hq : q.kind = .equal) (h : Writes e ts) : Writes (.assign ⟨(), t⟩ e) (t :: q :: ts)
  | call {c : Expr Unit} {as : List (Expr Unit)} {ts us : List Token} {l p : Token} (hc : Writes c ts)
      (hk : c.rank = 0) (hl : l.kind = .leftParen) (ha : Listing Writes as us)
      (hp : p.kind = .rightParen) : Writes (.call c p as) (ts ++ l :: (us ++ [p]))
  | get {o : Expr Unit} {ts : List Token} {d p : Token} (ho : Writes o ts) (hk : o.rank = 0)
      (hd : d.kind = .dot) (hp : p.kind = .identifier) : Writes (.get o p) (ts ++ [d, p])
  | set {o e : Expr Unit} {ts us : List Token} {d p q : Token} (ho : Writes o ts) (hk : o.rank = 0)
      (hd : d.kind = .dot) (hp : p.kind = .identifier) (hq : q.kind = .equal) (h : Writes e us) :
      Writes (.set o p e) (ts ++ d :: p :: q :: us)
  | this {t : Token} (ht : t.kind = .kwThis) : Writes (.this ⟨(), t⟩) [t]
  | super {t d m : Token} (ht : t.kind = .kwSuper) (hd : d.kind = .dot) (hm : m.kind = .identifier) :
      Writes (.super ⟨(), t⟩ m) [t, d, m]

/-- The parent that a class may name. -/
inductive Reference.WritesParent : Option (Reference Unit) → List Token → Prop
  | absent : WritesParent none []
  | present {l t : Token} (hl : l.kind = .less) (ht : t.kind = .identifier) :
      WritesParent (some ⟨(), t⟩) [l, t]

inductive Routine.Writes {σ : Type} (S : σ → List Token → Prop) : Routine σ → List Token → Prop
  | mk {n l r b e : Token} {ps : List Token} {body : List σ} {us ts : List Token}
      (hn : n.kind = .identifier) (hl : l.kind = .leftParen) (hp : Listing Token.Names ps us)
      (hr : r.kind = .rightParen) (hb : b.kind = .leftBrace) (h : Row S body ts)
      (he : e.kind = .rightBrace) :
      Writes S ⟨n, ps, body⟩ (n :: l :: (us ++ r :: b :: (ts ++ [e])))

theorem Stmt.counting_declared? (initial : Option (Stmt Unit)) (condition step : Option (Expr Unit))
    (body : Stmt Unit) : (Stmt.counting initial condition step body).declared? = none := by
  cases initial <;> rfl

theorem Stmt.counting_ne_expression (initial : Option (Stmt Unit)) (condition step : Option (Expr Unit))
    (body : Stmt Unit) (e : Expr Unit) : Stmt.expression e ≠ .counting initial condition step body := by
  intro h
  cases initial with
  | none => cases h
  | some s => cases h

/-- The first clause of a counting loop, with its semicolon. -/
inductive FirstClause (S : Stmt Unit → List Token → Prop) : Option (Stmt Unit) → List Token → Prop
  | none {s : Token} (hs : s.kind = .semicolon) : FirstClause S none [s]
  | declare {n : Token} {e : Option (Expr Unit)} {ts : List Token} (h : S (.declare n e) ts) :
      FirstClause S (some (.declare n e)) ts
  | expression {e : Expr Unit} {ts : List Token} (h : S (.expression e) ts) :
      FirstClause S (some (.expression e)) ts

/-- The tokens of a statement, and whether they may end in an `if` that could still be given
an `else`. A counting loop is a tree that could also be written without `for`. -/
inductive Stmt.Writes : Bool → Stmt Unit → List Token → Prop
  | expression {o : Bool} {e : Expr Unit} {ts : List Token} {s : Token} (h : e.Writes ts)
      (hs : s.kind = .semicolon) : Writes o (.expression e) (ts ++ [s])
  | print {o : Bool} {e : Expr Unit} {ts : List Token} {k s : Token} (hk : k.kind = .kwPrint)
      (h : e.Writes ts) (hs : s.kind = .semicolon) : Writes o (.print e) (k :: (ts ++ [s]))
  | declare {o : Bool} {k n s : Token} (hk : k.kind = .kwVar) (hn : n.kind = .identifier)
      (hs : s.kind = .semicolon) : Writes o (.declare n none) [k, n, s]
  | define {o : Bool} {k n q s : Token} {e : Expr Unit} {ts : List Token} (hk : k.kind = .kwVar)
      (hn : n.kind = .identifier) (hq : q.kind = .equal) (h : e.Writes ts) (hs : s.kind = .semicolon) :
      Writes o (.declare n (some e)) (k :: n :: q :: (ts ++ [s]))
  | block {o : Bool} {ss : List (Stmt Unit)} {ts : List Token} {l r : Token} (hl : l.kind = .leftBrace)
      (h : Row (Writes true) ss ts) (hr : r.kind = .rightBrace) : Writes o (.block ss) (l :: (ts ++ [r]))
  | branch {c : Expr Unit} {y : Stmt Unit} {ts us : List Token} {k l r : Token} (hk : k.kind = .kwIf)
      (hl : l.kind = .leftParen) (hc : c.Writes ts) (hr : r.kind = .rightParen) (hy : Writes true y us)
      (hd : y.declared? = none) : Writes true (.branch c y none) (k :: l :: (ts ++ r :: us))
  | choice {o : Bool} {c : Expr Unit} {y n : Stmt Unit} {ts us vs : List Token} {k l r e : Token}
      (hk : k.kind = .kwIf) (hl : l.kind = .leftParen) (hc : c.Writes ts) (hr : r.kind = .rightParen)
      (hy : Writes false y us) (hdy : y.declared? = none) (he : e.kind = .kwElse)
      (hn : Writes o n vs) (hdn : n.declared? = none) :
      Writes o (.branch c y (some n)) (k :: l :: (ts ++ r :: (us ++ e :: vs)))
  | loop {o : Bool} {c : Expr Unit} {s : Stmt Unit} {ts us : List Token} {k l r : Token}
      (hk : k.kind = .kwWhile) (hl : l.kind = .leftParen) (hc : c.Writes ts) (hr : r.kind = .rightParen)
      (h : Writes o s us) (hd : s.declared? = none) : Writes o (.loop c s) (k :: l :: (ts ++ r :: us))
  | function {o : Bool} {r : Routine (Stmt Unit)} {ts : List Token} {k : Token} (hk : k.kind = .kwFun)
      (h : Routine.Writes (Writes true) r ts) : Writes o (.function r) (k :: ts)
  | leave {o : Bool} {e : Option (Expr Unit)} {ts : List Token} {k s : Token} (hk : k.kind = .kwReturn)
      (h : Clause Expr.Writes e ts) (hs : s.kind = .semicolon) : Writes o (.leave k e) (k :: (ts ++ [s]))
  | klass {o : Bool} {n : Token} {p : Option (Reference Unit)} {ms : List (Routine (Stmt Unit))}
      {ps ts : List Token} {k l r : Token} (hk : k.kind = .kwClass) (hn : n.kind = .identifier)
      (hp : Reference.WritesParent p ps) (hl : l.kind = .leftBrace)
      (hm : Row (Routine.Writes (Writes true)) ms ts) (hr : r.kind = .rightBrace) :
      Writes o (.klass n p ms) (k :: n :: (ps ++ l :: (ts ++ [r])))
  | counting {o : Bool} {w : Stmt Unit} {i : Option (Stmt Unit)} {c st : Option (Expr Unit)}
      {b : Stmt Unit} {is cs ss bs : List Token} {k l s r : Token} (hw : w = .counting i c st b)
      (hk : k.kind = .kwFor) (hl : l.kind = .leftParen) (hi : FirstClause (Writes true) i is)
      (hc : Clause Expr.Writes c cs) (hs : s.kind = .semicolon) (hst : Clause Expr.Writes st ss)
      (hr : r.kind = .rightParen) (hb : Writes o b bs) (hd : b.declared? = none) :
      Writes o w (k :: l :: (is ++ (cs ++ s :: (ss ++ r :: bs))))

/-- What is closed may stand where an open statement may. The induction is on the number of
tokens, since the body of a counting loop is not a part of the tree as it stands. -/
theorem Stmt.Writes.loosen (n : Nat) : ∀ {s : Stmt Unit} {o : Bool} {ts : List Token}, ts.length ≤ n →
    s.Writes o ts → s.Writes true ts := by
  induction n with
  | zero =>
    intro s o ts short h
    obtain rfl := List.eq_nil_of_length_eq_zero (Nat.le_zero.mp short)
    generalize he : ([] : List Token) = us at h
    cases h with
    | expression => simp at he
    | print | declare | define | block | branch | choice | loop | function | leave | klass
    | counting => cases he
  | succ n ih =>
    intro s o ts short h
    cases h with
    | expression h hs => exact .expression h hs
    | print hk h hs => exact .print hk h hs
    | declare hk hn hs => exact .declare hk hn hs
    | define hk hn hq h hs => exact .define hk hn hq h hs
    | block hl h hr => exact .block hl h hr
    | branch hk hl hc hr hy hd => exact .branch hk hl hc hr hy hd
    | choice hk hl hc hr hy hdy he hn hdn =>
      simp only [List.length_cons, List.length_append] at short
      exact .choice hk hl hc hr hy hdy he (ih (by omega) hn) hdn
    | loop hk hl hc hr h hd =>
      simp only [List.length_cons, List.length_append] at short
      exact .loop hk hl hc hr (ih (by omega) h) hd
    | function hk h => exact .function hk h
    | leave hk h hs => exact .leave hk h hs
    | klass hk hn hp hl hm hr => exact .klass hk hn hp hl hm hr
    | counting hw hk hl hi hc hs hst hr hb hd =>
      simp only [List.length_cons, List.length_append] at short
      exact .counting hw hk hl hi hc hs hst hr (ih (by omega) hb) hd

end Lox
