import Lox.Proofs.Growth

/-! # Classes are made by declarations

A running program makes closures of the routines that stand in its code, and a class where
it comes to a declaration of one. So when all code that a machine has at hand stands in
given programs, each of its classes goes back to a declaration in one of these, and the
table of the class is as the body there says: of several routines of one name it has the
last one. -/

namespace Lox

/-- A class as a program declares it. -/
structure Declaration where
  name : Token
  parent : Option (Reference Nat)
  body : List (Routine (Stmt Nat))

/-- The routine that counts for a name: the last one that the body has for it. -/
def Declaration.method? (d : Declaration) (x : String) : Option (Routine (Stmt Nat)) :=
  d.body.reverse.find? (·.name.lexeme == x)

mutual

/-- The declarations of classes in a statement, also those inside routines. -/
def Stmt.classes : Stmt Nat → List Declaration
  | .expression _ | .print _ | .declare _ _ | .leave _ _ => []
  | .block body => Stmt.allClasses body
  | .branch _ yes no => yes.classes ++ Stmt.classes? no
  | .loop _ body => body.classes
  | .function routine => Routine.classes routine
  | .klass name parent methods => ⟨name, parent, methods⟩ :: Routine.allClasses methods

def Stmt.classes? : Option (Stmt Nat) → List Declaration
  | none => []
  | some s => s.classes

def Stmt.allClasses : List (Stmt Nat) → List Declaration
  | [] => []
  | s :: rest => s.classes ++ Stmt.allClasses rest

def Routine.classes : Routine (Stmt Nat) → List Declaration
  | ⟨_, _, body⟩ => Stmt.allClasses body

def Routine.allClasses : List (Routine (Stmt Nat)) → List Declaration
  | [] => []
  | r :: rest => Routine.classes r ++ Routine.allClasses rest

end

theorem Routine.classes_eq (r : Routine (Stmt Nat)) : Routine.classes r = Stmt.allClasses r.body := by
  cases r
  rfl

/-- What an arm declares, the statement declares. -/
theorem Stmt.classes_arm {s t : Stmt Nat} (ht : t ∈ s.arms) : t.classes ⊆ s.classes := by
  cases s with
  | branch condition yes no =>
    cases no with
    | none =>
      rw [List.mem_singleton.mp ht]
      exact List.subset_append_left _ _
    | some other =>
      rcases List.mem_cons.mp ht with rfl | ht
      · exact List.subset_append_left _ _
      · rw [List.mem_singleton.mp ht]
        exact List.subset_append_right _ _
  | loop condition body =>
    rw [List.mem_singleton.mp ht]
    exact List.Subset.refl _
  | _ => cases ht

/-! ## The table of a class -/

/-- A table has closures over one scope of the routines of a body, by their names. -/
def Machine.Tabulates (m : Machine) (table : Bindings (Ref .function)) (d : Declaration)
    (scope : Ref .scope) : Prop :=
  ∀ x, Option.Rel (fun f routine => m.functions.get? f = some ⟨routine, scope, x == initializerName⟩)
    (table.get? x) (d.method? x)

/-- A class that a declaration has made. -/
structure Machine.MadeBy (m : Machine) (k : Klass) (d : Declaration) : Prop where
  name : k.name = d.name.lexeme
  inherits : k.parent.isSome = d.parent.isSome
  table : ∃ scope, m.Tabulates k.methods d scope

/-- The code that a machine has at hand, and its classes, go back to the given declarations. -/
structure Machine.StemsFrom (declared : List Declaration) (m : Machine) : Prop where
  routines : ∀ f c, m.functions.get? f = some c → Routine.classes c.routine ⊆ declared
  classes : ∀ r k, m.classes.get? r = some k → ∃ d ∈ declared, m.MadeBy k d

variable {declared : List Declaration} {m m' : Machine} {d : Declaration} {k : Klass}
  {table : Bindings (Ref .function)} {scope : Ref .scope}

theorem Machine.Tabulates.mono (h : m.Tabulates table d scope)
    (keeps : ∀ f c, m.functions.get? f = some c → m'.functions.get? f = some c) :
    m'.Tabulates table d scope := by
  intro x
  have found := h x
  generalize table.get? x = f at found ⊢
  generalize d.method? x = r at found ⊢
  cases found with
  | some hf => exact .some (keeps _ _ hf)
  | none => exact .none

theorem Machine.MadeBy.mono (h : m.MadeBy k d)
    (keeps : ∀ f c, m.functions.get? f = some c → m'.functions.get? f = some c) : m'.MadeBy k d :=
  { h with table := h.table.imp fun _ ht => ht.mono keeps }

namespace Machine.StemsFrom

/-- Only routines and classes matter. -/
theorem of_eq (h : m.StemsFrom declared) (functions : m'.functions = m.functions)
    (classes : m'.classes = m.classes) : m'.StemsFrom declared where
  routines f c hf := h.routines f c (functions ▸ hf)
  classes r k hk := by
    obtain ⟨d, hd, made⟩ := h.classes r k (classes ▸ hk)
    exact ⟨d, hd, made.mono fun f c hf => functions ▸ hf⟩

theorem more {declared' : List Declaration} (h : m.StemsFrom declared) (hs : declared ⊆ declared') :
    m.StemsFrom declared' where
  routines f c hf := List.Subset.trans (h.routines f c hf) hs
  classes r k hk := by
    obtain ⟨d, hd, made⟩ := h.classes r k hk
    exact ⟨d, hs hd, made⟩

theorem newFunction (h : m.StemsFrom declared) {c : Closure} (hc : Routine.classes c.routine ⊆ declared) :
    StemsFrom declared { m with functions := m.functions.push c } where
  routines f c' hf := by
    have hf : (m.functions.push c).get? f = some c' := hf
    rw [Heap.get?_push] at hf
    split at hf
    · cases hf
      exact hc
    · exact h.routines f c' hf
  classes r k hk := by
    obtain ⟨d, hd, made⟩ := h.classes r k hk
    exact ⟨d, hd, made.mono fun _ _ => Heap.get?_push_of_some⟩

theorem newClass (h : m.StemsFrom declared) (hd : d ∈ declared) (made : m.MadeBy k d) :
    StemsFrom declared { m with classes := m.classes.push k } where
  routines := h.routines
  classes r k' hk := by
    have hk : (m.classes.push k).get? r = some k' := hk
    rw [Heap.get?_push] at hk
    split at hk
    · cases hk
      exact ⟨d, hd, { made with }⟩
    · obtain ⟨d', hd', made'⟩ := h.classes r k' hk
      exact ⟨d', hd', { made' with }⟩

end Machine.StemsFrom

/-! ## Making methods -/

theorem Declaration.method?_append (name : Token) (parent : Option (Reference Nat))
    (body : List (Routine (Stmt Nat))) (r : Routine (Stmt Nat)) (x : String) :
    method? ⟨name, parent, body ++ [r]⟩ x =
      if r.name.lexeme = x then some r else method? ⟨name, parent, body⟩ x := by
  simp only [method?, List.reverse_append, List.reverse_singleton, List.singleton_append, List.find?_cons]
  by_cases e : r.name.lexeme = x
  · rw [if_pos e, beq_iff_eq.mpr e]
  · rw [if_neg e, beq_eq_false_iff_ne.mpr e]

/-- One more routine is made, and a later one of its name takes its place. -/
theorem Machine.Tabulates.append {name : Token} {parent : Option (Reference Nat)}
    {body : List (Routine (Stmt Nat))} (h : m.Tabulates table ⟨name, parent, body⟩ scope)
    (r : Routine (Stmt Nat)) :
    Machine.Tabulates
      { m with functions := m.functions.push ⟨r, scope, r.name.lexeme == initializerName⟩ }
      (table.set r.name.lexeme m.functions.next) ⟨name, parent, body ++ [r]⟩ scope := by
  intro x
  rw [Bindings.get?_set, Declaration.method?_append]
  by_cases e : x = r.name.lexeme
  · rw [if_pos e, if_pos e.symm, e]
    exact .some Heap.get?_push_next
  · rw [if_neg e, if_neg (Ne.symm e)]
    exact h.mono (fun _ _ => Heap.get?_push_of_some) x

/-- The methods of a body can always be made, and the table has them. -/
theorem Level.makeMethods_spec (d : Declaration) (scope : Ref .scope) (m : Machine)
    (stems : m.StemsFrom declared) (hd : Routine.allClasses d.body ⊆ declared) :
    ∃ table m', makeMethods scope d.body m = .ok table m' ∧ m'.Tabulates table d scope ∧
      m'.StemsFrom declared := by
  obtain ⟨name, parent, body⟩ := d
  suffices all : ∀ (rest done : List (Routine (Stmt Nat))) (table : Bindings (Ref .function)) (m : Machine),
      m.StemsFrom declared → Routine.allClasses rest ⊆ declared →
      m.Tabulates table ⟨name, parent, done⟩ scope →
      ∃ table' m', (rest.foldlM (fun methods r => do
          let f ← Run.newFunction ⟨r, scope, r.name.lexeme == initializerName⟩
          pure (methods.set r.name.lexeme f)) table : Run _) m = .ok table' m' ∧
        m'.Tabulates table' ⟨name, parent, done ++ rest⟩ scope ∧ m'.StemsFrom declared from
    all body [] .empty m stems hd fun x => .none
  intro rest
  induction rest with
  | nil =>
    intro done table m stems _ h
    exact ⟨table, m, rfl, by rwa [List.append_nil], stems⟩
  | cons r rest ih =>
    intro done table m stems hd h
    have first : Routine.classes r ⊆ declared := List.Subset.trans (List.subset_append_left _ _) hd
    have others : Routine.allClasses rest ⊆ declared := List.Subset.trans (List.subset_append_right _ _) hd
    rw [List.append_cons]
    exact ih (done ++ [r]) _ _ (stems.newFunction first) others (h.append r)

/-! ## Runs -/

namespace Run

variable {α β : Type}

/-- An action after which everything goes back to the given declarations as before. -/
def Stems (declared : List Declaration) (act : Run α) : Prop :=
  ∀ m : Machine, m.StemsFrom declared → (act.after m).StemsFrom declared

/-- What comes of the first part may matter for the rest. -/
theorem stems_bind {x : Run α} {f : α → Run β} {m : Machine} (hx : (x.after m).StemsFrom declared)
    (hf : ∀ a m', x m = .ok a m' → m'.StemsFrom declared → ((f a).after m').StemsFrom declared) :
    ((x >>= f).after m).StemsFrom declared := by
  cases hm : x m with
  | error fault m' =>
    rw [after_error hm] at hx
    rwa [after_error (bind_error hm)]
  | ok a m' =>
    rw [after_ok hm] at hx
    rw [after_bind hm]
    exact hf a m' hm hx

theorem stems_of_eq {act : Run α} (functions : ∀ m, (act.after m).functions = m.functions)
    (classes : ∀ m, (act.after m).classes = m.classes) : act.Stems declared :=
  fun m stems => stems.of_eq (functions m) (classes m)

theorem Stems.bind {x : Run α} {f : α → Run β} (hx : x.Stems declared)
    (hf : ∀ a, (f a).Stems declared) : (x >>= f).Stems declared :=
  fun m stems => stems_bind (hx m stems) fun a m' _ => hf a m'

theorem plain_stems (declared : List Declaration) :
    Plain fun α (act : Unit → Run α) => (act ()).Stems declared where
  result _ := stems_of_eq (fun _ => rfl) fun _ => rfl
  fault _ _ := stems_of_eq (fun _ => rfl) fun _ => rfl
  look := stems_of_eq (fun _ => rfl) fun _ => rfl
  bind := Stems.bind
  print _ := stems_of_eq (fun _ => rfl) fun _ => rfl
  record _ := stems_of_eq (fun _ => rfl) fun _ => rfl
  readClock := stems_of_eq (fun _ => rfl) fun _ => rfl
  newScope _ _ := stems_of_eq (fun _ => rfl) fun _ => rfl
  newInstance _ := stems_of_eq (fun _ => rfl) fun _ => rfl
  setField _ _ _ := stems_of_eq (fun _ => rfl) fun _ => rfl

theorem stems_define (name : String) (v : Value) : (Run.define name v).Stems declared :=
  stems_of_eq (fun _ => rfl) fun _ => rfl

theorem stems_store (target : Reference Nat) (v : Value) : (Run.store target v).Stems declared := by
  have plain := plain_stems declared
  refine Stems.bind plain.look fun m => ?_
  split
  · exact Stems.bind (plain.ofScope _) fun scope => stems_of_eq (fun _ => rfl) fun _ => rfl
  · split
    · exact stems_of_eq (fun _ => rfl) fun _ => rfl
    · exact plain.fail _ _ _

theorem stems_within {act : Run α} (scope : Ref .scope) (h : act.Stems declared) :
    (within scope act).Stems declared := by
  intro m stems
  rw [after_within]
  exact (h { m with current := scope } (stems.of_eq rfl rfl)).of_eq rfl rfl

theorem functionAt_ok {f : Ref .function} {c : Closure} (h : Run.functionAt f m = .ok c m') :
    m' = m ∧ m.functions.get? f = some c := by
  change Run.deref (m.functions.get? f) m = .ok c m' at h
  cases hf : m.functions.get? f with
  | none => rw [hf] at h; cases h
  | some d =>
    rw [hf] at h
    cases h
    exact ⟨rfl, rfl⟩

/-- A routine that has been found in the machine is code that it has at hand. -/
theorem stems_functionAt {g : Closure → Run β} {f : Ref .function}
    (hg : ∀ c, Routine.classes c.routine ⊆ declared → (g c).Stems declared) :
    (Run.functionAt f >>= g).Stems declared := by
  intro m stems
  refine stems_bind ((plain_stems declared).functionAt f m stems) fun c m' hc stems' => ?_
  obtain ⟨rfl, hf⟩ := functionAt_ok hc
  exact hg c (stems.routines f c hf) m' stems'

theorem stems_newFunction {c : Closure} (hc : Routine.classes c.routine ⊆ declared) :
    (Run.newFunction c).Stems declared := fun _ stems => stems.newFunction hc

theorem stems_bindMethod (f : Ref .function) (receiver : Value) : (Run.bind f receiver).Stems declared :=
  stems_functionAt fun _ hc => Stems.bind ((plain_stems declared).newScope _ _) fun _ =>
    stems_newFunction hc

end Run

/-- A level at which all code keeps to the given declarations. -/
structure Level.Stemming (declared : List Declaration) (level : Level) : Prop where
  expr (e : Expr Nat) : (level.expr e).Stems declared
  stmt (s : Stmt Nat) (h : s.classes ⊆ declared) : (level.stmt s).Stems declared

namespace Level.Stemming

open Run

variable {below : Level} (h : below.Stemming declared)
include h

theorem executeAll {body : List (Stmt Nat)} (hb : Stmt.allClasses body ⊆ declared) :
    (below.executeAll body).Stems declared := by
  induction body with
  | nil => exact (plain_stems declared).result _
  | cons s rest ih =>
    have first : s.classes ⊆ declared := List.Subset.trans (List.subset_append_left _ _) hb
    have others : Stmt.allClasses rest ⊆ declared := List.Subset.trans (List.subset_append_right _ _) hb
    refine Stems.bind (h.stmt s first) fun outcome => ?_
    cases outcome with
    | completed => exact ih others
    | returned v => exact (plain_stems declared).result _

theorem enter {c : Closure} (hc : Routine.classes c.routine ⊆ declared) (arguments : List Value) :
    (below.enter c arguments).Stems declared := by
  have plain := plain_stems declared
  rw [Routine.classes_eq] at hc
  refine Stems.bind (plain.newScope _ _) fun scope =>
    Stems.bind (stems_within scope (h.executeAll hc)) fun outcome => ?_
  split
  · exact Stems.bind plain.look fun _ => plain.ofScope _
  · cases outcome with
    | completed => exact plain.result _
    | returned v => exact plain.result _

section Ways

/-! Routines of known classes may be entered in another way, as long as that keeps to them too. -/

variable {enter : Closure → List Value → Run Value}
  (henter : ∀ c arguments, Routine.classes c.routine ⊆ declared → (enter c arguments).Stems declared)

omit h
include henter

theorem constructBy (k : Ref .klass) (initializer : Option (Ref .function)) (arguments : List Value) :
    (Level.constructBy enter k initializer arguments).Stems declared := by
  have plain := plain_stems declared
  refine Stems.bind (plain.newInstance _) fun i => ?_
  cases initializer with
  | none => exact plain.result _
  | some f =>
    exact Stems.bind (stems_bindMethod f _) fun bound => stems_functionAt fun c hc =>
      Stems.bind (henter c arguments hc) fun _ => plain.result _

theorem callBy (callee : Value) (paren : Token) (arguments : List Value) :
    (Level.callBy enter callee paren arguments).Stems declared := by
  have plain := plain_stems declared
  cases callee with
  | clock => exact Stems.bind (plain.checkCount _ _ _) fun _ => Stems.bind plain.readClock fun _ => plain.result _
  | function f =>
    exact stems_functionAt fun c hc => Stems.bind (plain.checkCount _ _ _) fun _ => henter c arguments hc
  | klass k =>
    refine Stems.bind (plain.method? _ _) fun initializer => ?_
    have proceed : ∀ n, Stems declared (Level.checkCount paren n arguments >>= fun _ =>
        Level.constructBy enter k initializer arguments) :=
      fun n => Stems.bind (plain.checkCount _ n _) fun _ => constructBy henter k initializer arguments
    cases initializer with
    | none => exact proceed 0
    | some f => exact Stems.bind (Stems.bind (plain.functionAt f) fun _ => plain.result _) proceed
  | nil | bool _ | number _ | string _ | object _ => exact plain.fail _ _ _

include h

theorem evaluateBy (e : Expr Nat) : (below.evaluateBy enter e).Stems declared := by
  have plain := plain_stems declared
  refine plain.expression (fun _ => below) h.expr (fun _ => enter) stems_bindMethod (callBy henter) e
    fun target value eq => ?_
  cases eq
  exact plain.assign (fun _ => below) h.expr (fun _ => enter) target value (stems_store target)

end Ways

omit h in
/-- What comes of the name of the parent. -/
theorem parentClass_isSome {parent : Option (Reference Nat)} {found : Option (Ref .klass)}
    (hp : below.parentClass parent m = .ok found m') : found.isSome = parent.isSome := by
  cases parent with
  | none =>
    cases hp
    rfl
  | some r =>
    obtain ⟨v, m₁, -, rest⟩ := bind_eq_ok hp
    cases v with
    | klass k =>
      cases rest
      rfl
    | _ => cases rest

theorem declareClass {d : Declaration} (hd : d ∈ declared) (body : Routine.allClasses d.body ⊆ declared) :
    (below.declareClass d.name d.parent d.body).Stems declared := by
  have plain := plain_stems declared
  intro m stems
  refine stems_bind (plain.parentClass (fun _ => below) h.expr d.parent m stems) fun parent m₁ hp stems => ?_
  refine stems_bind (stems_define _ _ m₁ stems) fun _ m₂ _ stems => ?_
  refine stems_bind (plain.methodScope parent m₂ stems) fun scope m₃ _ stems => ?_
  obtain ⟨table, m₄, made, tabulates, stems⟩ := Level.makeMethods_spec d scope m₃ stems body
  rw [after_bind made]
  have klass : m₄.MadeBy ⟨d.name.lexeme, parent, table⟩ d :=
    ⟨rfl, parentClass_isSome hp, scope, tabulates⟩
  refine stems_bind (stems.newClass hd klass) fun r m₅ _ stems => ?_
  exact Stems.bind plain.look (fun _ => Stems.bind (plain.record _) fun _ => stems_define _ _) m₅ stems

theorem execute (rounds : Nat) {s : Stmt Nat} (hs : s.classes ⊆ declared) :
    (below.execute rounds s).Stems declared := by
  have plain := plain_stems declared
  refine plain.statement (fun _ => below) h.expr rounds s
    (fun t ht => h.stmt t (List.Subset.trans (Stmt.classes_arm ht) hs)) (fun declares => ?_) fun body eq => ?_
  · cases s with
    | declare name initial =>
      exact Stems.bind (plain.valueOf (fun _ => below) h.expr initial) fun _ =>
        Stems.bind (stems_define _ _) fun _ => plain.result _
    | function routine =>
      refine Stems.bind ?_ fun _ => plain.result _
      exact Stems.bind plain.current fun _ => Stems.bind (stems_newFunction hs) fun _ =>
        Stems.bind (stems_define _ _) fun _ => Stems.bind plain.look fun _ => plain.record _
    | klass name parent methods =>
      obtain ⟨own, inner⟩ := List.cons_subset.mp hs
      exact Stems.bind (h.declareClass (d := ⟨name, parent, methods⟩) own inner) fun _ => plain.result _
    | expression _ | print _ | block _ | branch _ _ _ | loop _ _ | leave _ _ => cases declares
  · cases eq
    exact Stems.bind plain.current fun outer => Stems.bind (plain.newScope _ outer) fun scope =>
      stems_within scope (h.executeAll hs)

end Level.Stemming

end Lox
