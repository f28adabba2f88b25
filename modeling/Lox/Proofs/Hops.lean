import Lox.Proofs.History
import Lox.Proofs.Lineage.Chains

/-! # Hops outwards, and what they read and write

A scope is made inside one that is there already, and stays in it. So every way outwards comes to
older and older scopes and ends, and nothing that is written changes where it leads. Whatever
several ways lead to is one scope: what is written by one of them is read by all of them, and a
name of the same spelling in any other scope keeps its value. -/

namespace Lox

namespace Scopes

variable {s t : Scopes} {q r outer : Ref .scope} {x y : String} {v : Value} {m n d : Nat}
  {fault : ScopeFault}

/-- Scopes made one inside the other or outermost, and written to in every way that there is. -/
inductive Built : Scopes → Prop
  | empty : Built .empty
  | add {s : Scopes} (h : Built s) (bindings : Bindings Value) (enclosing : Option (Ref .scope))
      (there : ∀ outer, enclosing = some outer → (s.get? outer).isSome) : Built (s.add bindings enclosing)
  | define {s : Scopes} (h : Built s) (r : Ref .scope) (x : String) (v : Value) : Built (s.define r x v)
  | assign {s t : Scopes} (h : Built s) {r : Ref .scope} {x : String} {v : Value}
      (done : s.assign? r x v = some t) : Built t
  | assignAt {s t : Scopes} (h : Built s) {d : Nat} {r : Ref .scope} {x : String} {v : Value}
      (done : s.assignAt d x v r = .ok t) : Built t

/-! ## The way outwards -/

theorem scopeAt_outermost (h : s.enclosing? r = none) (n : Nat) :
    s.scopeAt (n + 1) r = .error .outermost := by
  simp only [scopeAt, ancestor, h]
  cases n <;> rfl

theorem ancestor_add (s : Scopes) (m n : Nat) (place : Option (Ref .scope)) :
    s.ancestor (m + n) place = s.ancestor m place >>= s.ancestor n := by
  induction m generalizing place with
  | zero => rw [Nat.zero_add]; rfl
  | succ m ih =>
    rw [Nat.succ_add]
    cases place with
    | none => rfl
    | some r => exact ih (s.enclosing? r)

/-- Some hops and then some more: it fails where the first of them do, or else where the rest do. -/
theorem scopeAt_add (s : Scopes) (m n : Nat) (r : Ref .scope) :
    s.scopeAt (m + n) r = s.scopeAt m r >>= s.scopeAt n := by
  induction m generalizing r with
  | zero => rw [Nat.zero_add]; rfl
  | succ m ih =>
    rw [Nat.succ_add]
    cases around : s.enclosing? r with
    | none => rw [scopeAt_outermost around, scopeAt_outermost around]; rfl
    | some outer => rw [scopeAt_succ around, scopeAt_succ around, ih]

theorem scopeAt_add_of_ok (h : s.scopeAt m r = .ok q) (n : Nat) : s.scopeAt (m + n) r = s.scopeAt n q := by
  rw [scopeAt_add, h]
  rfl

theorem scopeAt_congr (same : ∀ r, t.enclosing? r = s.enclosing? r) (n : Nat) (r : Ref .scope) :
    t.scopeAt n r = s.scopeAt n r := by
  induction n generalizing r with
  | zero => rfl
  | succ n ih =>
    cases around : s.enclosing? r with
    | none => rw [scopeAt_outermost around, scopeAt_outermost ((same r).trans around)]
    | some outer => rw [scopeAt_succ around, scopeAt_succ ((same r).trans around), ih]

/-- What is written does not change where hops lead. -/
@[simp] theorem scopeAt_define : (s.define r x v).scopeAt n q = s.scopeAt n q :=
  scopeAt_congr (fun _ => enclosing?_define) n q

/-! ## What hops come to -/

theorem getAt_of_ok (h : s.scopeAt n r = .ok q) :
    s.getAt n x r = (s.lookup? q x).elim (.error (ScopeFault.unbound x)) .ok := by
  simp only [getAt, h, bind, Except.bind]
  cases s.lookup? q x <;> rfl

theorem getAt_of_error (h : s.scopeAt n r = .error fault) : s.getAt n x r = .error fault := by
  rw [getAt, h]
  rfl

theorem getAt_eq_error_iff : s.getAt n x r = .error fault ↔ s.scopeAt n r = .error fault ∨
    fault = .unbound x ∧ ∃ q, s.scopeAt n r = .ok q ∧ s.lookup? q x = none := by
  cases found : s.scopeAt n r with
  | error other => simp [getAt_of_error found]
  | ok q =>
    rw [getAt_of_ok found]
    cases bound : s.lookup? q x with
    | none => simp [bound, eq_comm]
    | some w => simp [bound]

theorem assignAt_of_ok (h : s.scopeAt d r = .ok q) : s.assignAt d x v r = .ok (s.define q x v) := by
  rw [assignAt, h]
  rfl

theorem assignAt_of_error (h : s.scopeAt d r = .error fault) : s.assignAt d x v r = .error fault := by
  rw [assignAt, h]
  rfl

theorem assignAt_eq_ok_iff :
    s.assignAt d x v r = .ok t ↔ ∃ q, s.scopeAt d r = .ok q ∧ t = s.define q x v := by
  cases found : s.scopeAt d r with
  | error fault => simp [assignAt_of_error found]
  | ok q => simp [assignAt_of_ok found, eq_comm]

theorem assignAt_eq_error_iff : s.assignAt d x v r = .error fault ↔ s.scopeAt d r = .error fault := by
  cases found : s.scopeAt d r with
  | error other => rw [assignAt_of_error found]; simp
  | ok q => rw [assignAt_of_ok found]; simp

theorem assign?_eq_some_iff : s.assign? r x v = some t ↔ (s.lookup? r x).isSome ∧ t = s.define r x v := by
  rw [assign?, Option.ite_none_right_eq_some, Option.some.injEq, eq_comm (a := t)]

theorem isSome_assign? : (s.assign? r x v).isSome = (s.lookup? r x).isSome := by
  rw [assign?]
  cases s.lookup? r x <;> rfl

theorem assign?_eq_none_iff : s.assign? r x v = none ↔ s.lookup? r x = none := by
  rw [← Option.isNone_iff_eq_none, ← Option.isNone_iff_eq_none, ← Option.not_isSome, ← Option.not_isSome,
    isSome_assign?]

/-- Only the bindings of a scope decide what it looks up. -/
theorem lookup?_congr (same : (t.get? q).map (·.bindings) = (s.get? r).map (·.bindings)) :
    t.lookup? q x = s.lookup? r x := by
  have own (u : Scopes) (p : Ref .scope) : u.lookup? p x = ((u.get? p).map (·.bindings)).bind (·.get? x) := by
    rw [lookup?, Option.bind_map]
    rfl
  rw [own, own, same]

/-! ## Older scopes outwards -/

/-- What is around a scope is older. -/
def Nested (s : Scopes) : Prop := ∀ r outer, s.enclosing? r = some outer → outer.index < r.index

namespace Nested

theorem define (h : s.Nested) (r : Ref .scope) (x : String) (v : Value) : (s.define r x v).Nested := by
  intro q outer around
  rw [enclosing?_define] at around
  exact h q outer around

theorem add (h : s.Nested) (bindings : Bindings Value) (enclosing : Option (Ref .scope))
    (there : ∀ outer, enclosing = some outer → (s.get? outer).isSome) : (s.add bindings enclosing).Nested := by
  intro r outer around
  rw [enclosing?, Scopes.add, Heap.get?_push] at around
  split at around
  · rename_i new
    rw [new]
    exact Heap.index_lt_size (there outer around)
  · exact h r outer around

/-- Each hop leads to an older scope. -/
theorem index_add_le (h : s.Nested) (found : s.scopeAt n r = .ok q) : q.index + n ≤ r.index := by
  induction n generalizing r with
  | zero =>
    cases found
    exact Nat.le_refl _
  | succ n ih =>
    cases around : s.enclosing? r with
    | none =>
      rw [scopeAt_outermost around] at found
      cases found
    | some outer =>
      rw [scopeAt_succ around] at found
      have older := h r outer around
      have rest := ih found
      omega

theorem isSome_scopeAt (h : s.Nested) (made : (s.get? r).isSome) (found : s.scopeAt n r = .ok q) :
    (s.get? q).isSome := by
  have older := h.index_add_le found
  have size := Heap.index_lt_size made
  exact Heap.isSome_of_index_lt (by omega)

/-- No number of hops but one leads to a scope. -/
theorem hops_unique (h : s.Nested) (hm : s.scopeAt m r = .ok q) (hn : s.scopeAt n r = .ok q) : m = n := by
  suffices once : ∀ m n, m ≤ n → s.scopeAt m r = .ok q → s.scopeAt n r = .ok q → m = n by
    rcases Nat.le_total m n with le | le
    · exact once m n le hm hn
    · exact (once n m le hn hm).symm
  intro m n le hm hn
  obtain ⟨more, rfl⟩ := Nat.exists_eq_add_of_le le
  rw [scopeAt_add_of_ok hm] at hn
  have older := h.index_add_le hn
  omega

theorem exists_outermost (h : s.Nested) (r : Ref .scope) :
    ∃ n q, s.scopeAt n r = .ok q ∧ s.enclosing? q = none := by
  suffices all : ∀ bound, ∀ r : Ref .scope, r.index < bound →
      ∃ n q, s.scopeAt n r = .ok q ∧ s.enclosing? q = none from all _ r (Nat.lt_succ_self _)
  intro bound
  induction bound with
  | zero => exact fun r less => absurd less (Nat.not_lt_zero _)
  | succ bound ih =>
    intro r less
    cases around : s.enclosing? r with
    | none => exact ⟨0, r, rfl, around⟩
    | some outer =>
      have older := h r outer around
      obtain ⟨n, q, found, last⟩ := ih outer (by omega)
      exact ⟨n + 1, q, (scopeAt_succ around n).trans found, last⟩

end Nested

theorem Built.nested (h : s.Built) : s.Nested := by
  induction h with
  | empty =>
    intro r outer around
    cases around
  | add _ bindings enclosing there ih => exact ih.add bindings enclosing there
  | define _ r x v ih => exact ih.define r x v
  | @assign s t _ r x v done ih =>
    obtain ⟨-, rfl⟩ := assign?_eq_some_iff.mp done
    exact ih.define r x v
  | @assignAt s t _ d r x v done ih =>
    obtain ⟨q, -, rfl⟩ := assignAt_eq_ok_iff.mp done
    exact ih.define q x v

/-! ## Reading and writing -/

/-- The same scopes, but for the value of a name in one of them. -/
structure Wrote (s t : Scopes) (q : Ref .scope) (x : String) (v : Value) : Prop where
  hops : ∀ n r, t.scopeAt n r = s.scopeAt n r
  /-- the name has the value wherever hops lead to the scope, -/
  there : ∀ n r, s.scopeAt n r = .ok q → t.getAt n x r = .ok v
  /-- and any other reading gives what it gave, or fails as it failed -/
  elsewhere : ∀ n r y, ¬ (s.scopeAt n r = .ok q ∧ y = x) → t.getAt n y r = s.getAt n y r

theorem wrote_define (made : (s.get? q).isSome) (x : String) (v : Value) : s.Wrote (s.define q x v) q x v where
  hops _ _ := scopeAt_define
  there n r found := by
    rw [getAt_of_ok (scopeAt_define.trans found), lookup?_define made, if_pos ⟨rfl, rfl⟩]
    rfl
  elsewhere n r y other := by
    cases found : s.scopeAt n r with
    | error fault => rw [getAt_of_error found, getAt_of_error (scopeAt_define.trans found)]
    | ok p =>
      have apart : ¬ (p = q ∧ y = x) := fun same => other ⟨same.1 ▸ found, same.2⟩
      rw [getAt_of_ok found, getAt_of_ok (scopeAt_define.trans found), lookup?_define made, if_neg apart]

/-- How scopes read and write. -/
structure Coherent (s : Scopes) : Prop where
  /-- The way outwards ends before it has come to more scopes than there are, -/
  ends : ∀ r, (s.get? r).isSome → ∃ n q, n < s.size ∧ s.scopeAt n r = .ok q ∧ s.enclosing? q = none
  /-- it leads to scopes that there are, -/
  made : ∀ r n q, (s.get? r).isSome → s.scopeAt n r = .ok q → (s.get? q).isSome
  /-- and to none of them twice. -/
  once : ∀ r m n q, s.scopeAt m r = .ok q → s.scopeAt n r = .ok q → m = n
  /-- Some hops and then some more come to the same as all of them, -/
  hops : ∀ m n r, s.scopeAt (m + n) r = s.scopeAt m r >>= s.scopeAt n
  /-- one hop past an outermost scope included. -/
  places : ∀ m n place, s.ancestor (m + n) place = s.ancestor m place >>= s.ancestor n
  /-- What is written some hops outwards is written where they lead, -/
  assignAt : ∀ r d x v t, (s.get? r).isSome → s.assignAt d x v r = .ok t →
    ∃ q, s.scopeAt d r = .ok q ∧ s.Wrote t q x v
  /-- and what is written to a scope, to that scope. -/
  define : ∀ r x v, (s.get? r).isSome → s.Wrote (s.define r x v) r x v
  assign : ∀ r x v t, s.assign? r x v = some t → s.Wrote t r x v
  /-- A scope of the same bindings answers in the same way, whatever is around it. -/
  own : ∀ (t : Scopes) r q, (t.get? q).map (·.bindings) = (s.get? r).map (·.bindings) →
    ∀ x v, t.lookup? q x = s.lookup? r x ∧ (t.assign? q x v).isSome = (s.assign? r x v).isSome
  /-- A reading fails with the hops, or if the scope that they lead to does not bind the name; -/
  unread : ∀ r n x fault, s.getAt n x r = .error fault ↔ s.scopeAt n r = .error fault ∨
    fault = .unbound x ∧ ∃ q, s.scopeAt n r = .ok q ∧ s.lookup? q x = none
  /-- a writing fails with the hops, or else if the name is to be bound already and is not. -/
  unwritten : ∀ r d x v fault, s.assignAt d x v r = .error fault ↔ s.scopeAt d r = .error fault
  unassigned : ∀ r x v, s.assign? r x v = none ↔ s.lookup? r x = none

theorem Built.coherent (h : s.Built) : s.Coherent where
  ends r made := by
    obtain ⟨n, q, found, last⟩ := h.nested.exists_outermost r
    have older := h.nested.index_add_le found
    have size := Heap.index_lt_size made
    exact ⟨n, q, by omega, found, last⟩
  made r n q made found := h.nested.isSome_scopeAt made found
  once r m n q := h.nested.hops_unique
  hops := s.scopeAt_add
  places := s.ancestor_add
  assignAt r d x v t made done := by
    obtain ⟨q, found, rfl⟩ := assignAt_eq_ok_iff.mp done
    exact ⟨q, found, wrote_define (h.nested.isSome_scopeAt made found) x v⟩
  define r x v made := wrote_define made x v
  assign r x v t done := by
    obtain ⟨bound, rfl⟩ := assign?_eq_some_iff.mp done
    obtain ⟨old, hold⟩ := Option.isSome_iff_exists.mp bound
    exact wrote_define (isSome_of_lookup? hold) x v
  own t r q same x v := by
    have alike : t.lookup? q x = s.lookup? r x := lookup?_congr same
    refine ⟨alike, ?_⟩
    rw [isSome_assign?, isSome_assign?, alike]
  unread r n x fault := getAt_eq_error_iff
  unwritten r d x v fault := assignAt_eq_error_iff
  unassigned r x v := assign?_eq_none_iff

end Scopes

/-! ## In a run -/

/-- What a reference reads and writes in a run. -/
structure Machine.Refers (m : Machine) (target : Reference Nat) : Prop where
  /-- With an address it reads and writes so many hops outwards from the current scope, -/
  read : ∀ d, m.table.hops? target.mark = some d →
    Run.lookUp target m = Run.ofScope (m.scopes.getAt d target.name.lexeme m.current) m
  written : ∀ d v, m.table.hops? target.mark = some d → Run.store target v m =
    (Run.ofScope (m.scopes.assignAt d target.name.lexeme v m.current) >>= fun t =>
      modify fun m => { m with scopes := t }) m
  /-- and without one in the global scope, if that binds the name. -/
  known : m.table.hops? target.mark = none → ∀ v,
    m.scopes.lookup? globals target.name.lexeme = some v → Run.lookUp target m = .ok v m
  assigned : m.table.hops? target.mark = none → ∀ v t,
    m.scopes.assign? globals target.name.lexeme v = some t → Run.store target v m = .ok () { m with scopes := t }
  unknown : m.table.hops? target.mark = none → m.scopes.lookup? globals target.name.lexeme = none →
    Run.lookUp target m = .error (.runtime ⟨target.name, .undefinedVariable⟩) m ∧
      ∀ v, Run.store target v m = .error (.runtime ⟨target.name, .undefinedVariable⟩) m
  /-- What fails leaves the machine as it was. -/
  unread : ∀ fault m', Run.lookUp target m = .error fault m' → m' = m
  unwritten : ∀ v fault m', Run.store target v m = .error fault m' → m' = m

namespace Run

variable {m m' : Machine} {target : Reference Nat} {d : Nat} {v : Value} {fault : Fault}

theorem lookUp_address (address : m.table.hops? target.mark = some d) :
    lookUp target m = ofScope (m.scopes.getAt d target.name.lexeme m.current) m := by
  have start : lookUp target m = _ := bind_ok (x := get) (m := m) rfl
  rw [start, address]

theorem lookUp_bound (free : m.table.hops? target.mark = none)
    (bound : m.scopes.lookup? Machine.globals target.name.lexeme = some v) : lookUp target m = .ok v m := by
  have start : lookUp target m = _ := bind_ok (x := get) (m := m) rfl
  rw [start, free, bound]
  rfl

theorem lookUp_unbound (free : m.table.hops? target.mark = none)
    (unbound : m.scopes.lookup? Machine.globals target.name.lexeme = none) :
    lookUp target m = .error (.runtime ⟨target.name, .undefinedVariable⟩) m := by
  have start : lookUp target m = _ := bind_ok (x := get) (m := m) rfl
  rw [start, free, unbound]
  rfl

theorem store_address (address : m.table.hops? target.mark = some d) :
    store target v m = (ofScope (m.scopes.assignAt d target.name.lexeme v m.current) >>= fun t =>
      modify fun m => { m with scopes := t }) m := by
  have start : store target v m = _ := bind_ok (x := get) (m := m) rfl
  rw [start, address]
  cases found : m.scopes.scopeAt d m.current with
  | error fault =>
    rw [Scopes.assignAt_of_error found]
    exact bind_error (x := ofScope (m.scopes.scopeAt d m.current)) (by rw [found]; rfl)
  | ok q =>
    rw [Scopes.assignAt_of_ok found]
    exact bind_ok (x := ofScope (m.scopes.scopeAt d m.current)) (by rw [found]; rfl)

theorem store_assigned {t : Scopes} (free : m.table.hops? target.mark = none)
    (done : m.scopes.assign? Machine.globals target.name.lexeme v = some t) :
    store target v m = .ok () { m with scopes := t } := by
  obtain ⟨bound, rfl⟩ := Scopes.assign?_eq_some_iff.mp done
  have start : store target v m = _ := bind_ok (x := get) (m := m) rfl
  rw [start, free]
  dsimp only
  rw [if_pos bound]
  rfl

theorem store_unbound (free : m.table.hops? target.mark = none)
    (unbound : m.scopes.lookup? Machine.globals target.name.lexeme = none) :
    store target v m = .error (.runtime ⟨target.name, .undefinedVariable⟩) m := by
  have start : store target v m = _ := bind_ok (x := get) (m := m) rfl
  rw [start, free]
  dsimp only
  rw [unbound]
  rfl

theorem lookUp_error (h : lookUp target m = .error fault m') : m' = m := by
  cases address : m.table.hops? target.mark with
  | some d =>
    rw [lookUp_address address] at h
    cases read : m.scopes.getAt d target.name.lexeme m.current <;> rw [read] at h <;> cases h
    rfl
  | none =>
    cases bound : m.scopes.lookup? Machine.globals target.name.lexeme with
    | some v =>
      rw [lookUp_bound address bound] at h
      cases h
    | none =>
      rw [lookUp_unbound address bound] at h
      cases h
      rfl

theorem store_error (h : store target v m = .error fault m') : m' = m := by
  cases address : m.table.hops? target.mark with
  | some d =>
    rw [store_address address] at h
    cases write : m.scopes.assignAt d target.name.lexeme v m.current <;> rw [write] at h <;> cases h
    rfl
  | none =>
    cases bound : m.scopes.lookup? Machine.globals target.name.lexeme with
    | some old =>
      have done : m.scopes.assign? Machine.globals target.name.lexeme v = some _ :=
        Scopes.assign?_eq_some_iff.mpr ⟨by rw [bound]; rfl, rfl⟩
      rw [store_assigned address done] at h
      cases h
    | none =>
      rw [store_unbound address bound] at h
      cases h
      rfl

end Run

theorem Machine.refers (m : Machine) (target : Reference Nat) : m.Refers target where
  read _ := Run.lookUp_address
  written _ _ := Run.store_address
  known free _ := Run.lookUp_bound free
  assigned free _ _ := Run.store_assigned free
  unknown free unbound := ⟨Run.lookUp_unbound free unbound, fun _ => Run.store_unbound free unbound⟩
  unread _ _ := Run.lookUp_error
  unwritten _ _ _ := Run.store_error

/-- Ways outwards end and compose, what is written by one of them is read by those that lead to
the same scope and by no others, and what fails changes nothing. -/
theorem Scopes.read_over_write {s : Scopes} (h : s.Built) :
    s.Coherent ∧ ∀ (m : Machine) (target : Reference Nat), m.Refers target :=
  ⟨h.coherent, Machine.refers⟩

/-- Two scopes inside the same one. What is written through the one is read through the other. -/
theorem Scopes.read_over_write_shared :
    let outer := Scopes.add .empty (.ofList [("x", .nil)]) none
    let s := (outer.add (.ofList [("x", .nil)]) (some ⟨0⟩)).add .empty (some ⟨0⟩)
    s.Built ∧ ∃ t, s.assignAt 1 "x" (.bool true) ⟨1⟩ = .ok t ∧ t.getAt 1 "x" ⟨2⟩ = .ok (.bool true) ∧
      t.getAt 0 "x" ⟨1⟩ = .ok .nil ∧ t.getAt 1 "y" ⟨2⟩ = .error (.unbound "y") ∧
      t.getAt 2 "x" ⟨2⟩ = .error .outermost := by
  intro outer s
  have there : ∀ (u : Scopes), (u.get? ⟨0⟩).isSome → ∀ r, some (⟨0⟩ : Ref .scope) = some r → (u.get? r).isSome := by
    rintro u made r ⟨⟩
    exact made
  have built : s.Built := ((Built.empty.add _ none fun _ e => by cases e).add _ _ (there _ rfl)).add _ _ (there _ rfl)
  have done : s.assignAt 1 "x" (.bool true) ⟨1⟩ = .ok (s.define ⟨0⟩ "x" (.bool true)) := rfl
  obtain ⟨q, found, wrote⟩ := (read_over_write built).1.assignAt ⟨1⟩ 1 "x" (.bool true) _ rfl done
  cases found
  refine ⟨built, _, done, wrote.there 1 ⟨2⟩ rfl, ?_, ?_, ?_⟩
  · exact wrote.elsewhere 0 ⟨1⟩ "x" fun same => by cases same.1
  · exact wrote.elsewhere 1 ⟨2⟩ "y" fun same => absurd same.2 (by decide)
  · exact wrote.elsewhere 2 ⟨2⟩ "x" fun same => by cases same.1

end Lox
