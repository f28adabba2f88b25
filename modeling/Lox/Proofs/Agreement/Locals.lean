import Lox.Proofs.History
import Lox.Proofs.Lexical

/-! # Where the two sides keep variables

A list says for each location of the reference state in which scope and under which
name the machine keeps the same variable. -/

namespace Lox

theorem modify_push_size {α : Type} (xs : Array α) (a : α) (f : α → α) :
    (xs.push a).modify xs.size f = xs.push (f a) := by
  apply Array.ext_getElem?
  intro i
  rw [Array.getElem?_modify, Array.getElem?_push, Array.getElem?_push]
  by_cases e : i = xs.size
  · subst e; simp
  · simp [e, Ne.symm e]

theorem Scopes.define_add (s : Scopes) (b : Bindings Value) (enclosing : Option (Ref .scope))
    (x : String) (v : Value) :
    (s.add b enclosing).define s.next x v = s.add (b.set x v) enclosing := by
  simp [define, add, Heap.modify, Heap.push, Heap.next, modify_push_size]

namespace Lexical.Store

variable {s : Store} {l k : Location} {v : Value} {c : Option Value}

theorem get?_push (s : Store) (c : Option Value) (l : Location) :
    (s.push c).get? l = if l = s.next then c else s.get? l := by
  obtain ⟨i⟩ := l
  simp only [push, get?, next, Array.getElem?_push, Location.mk.injEq]
  split <;> rfl

theorem get?_set (h : l.index < s.cells.size) : (s.set l v).get? k = if k = l then some v else s.get? k := by
  obtain ⟨i⟩ := l
  obtain ⟨j⟩ := k
  simp only [set, get?, Array.getElem?_modify, Location.mk.injEq]
  have hi : i < s.cells.size := h
  by_cases e : i = j
  · subst e; simp [hi]
  · simp [e, Ne.symm e]

theorem set_push : (s.push c).set s.next v = s.push (some v) := by
  simp [set, push, next, modify_push_size]

@[simp] theorem size_push : (s.push c).cells.size = s.cells.size + 1 := by simp [push]

@[simp] theorem size_set : (s.set l v).cells.size = s.cells.size := by simp [set]

end Lexical.Store

namespace Agreement

open Lexical (Location Store)

/-- What a name may be bound to. -/
structure Suits (x : String) (v : Value) : Prop where
  this : x = "this" → ∃ i, v = .object i
  super : x = "super" → ∃ k, v = .klass k

theorem Suits.ordinary {x : String} (h : Ordinary x) (v : Value) : Suits x v :=
  ⟨fun e => absurd e h.1, fun e => absurd e h.2⟩

theorem Suits.receiver (i : Ref .object) : Suits "this" (.object i) :=
  ⟨fun _ => ⟨i, rfl⟩, fun e => absurd e (by decide)⟩

theorem Suits.parent (k : Ref .klass) : Suits "super" (.klass k) :=
  ⟨fun e => absurd e (by decide), fun _ => ⟨k, rfl⟩⟩

/-- The scopes hold what the globals and the locations hold, and nothing else. -/
structure Locals (home : List (Ref .scope × String)) (scopes : Scopes) (store : Store)
    (globals : Bindings Value) : Prop where
  size : store.cells.size = home.length
  distinct : home.Nodup
  placed : ∀ r x, (r, x) ∈ home → r ≠ Machine.globals ∧ (scopes.get? r).isSome
  covered : ∀ r x v, r ≠ Machine.globals → scopes.lookup? r x = some v → (r, x) ∈ home
  cells : ∀ l r x, home[l.index]? = some (r, x) → store.get? l = scopes.lookup? r x
  outermost : scopes.get? Machine.globals = some ⟨globals, none⟩
  ordinary : ∀ x ∈ globals.names, Ordinary x
  suits : ∀ r x v, scopes.lookup? r x = some v → Suits x v

namespace Locals

variable {home : List (Ref .scope × String)} {scopes : Scopes} {store : Store}
  {globals : Bindings Value} {r outer : Ref .scope} {x : String} {v : Value} {l : Location}

theorem lookup?_globals (h : Locals home scopes store globals) (x : String) :
    scopes.lookup? Machine.globals x = globals.get? x := by
  rw [Scopes.lookup?, h.outermost]; rfl

theorem notGlobal (h : Locals home scopes store globals) (ho : scopes.enclosing? r = some outer) :
    r ≠ Machine.globals := by
  rintro rfl
  rw [Scopes.enclosing?, h.outermost] at ho
  cases ho

theorem inRange (h : Locals home scopes store globals) (hl : home[l.index]? = some (r, x)) :
    l.index < store.cells.size := by
  rw [h.size]
  exact (List.getElem?_eq_some_iff.mp hl).1

/-- Locations of different variables are different. -/
theorem location_eq (h : Locals home scopes store globals) {k : Location}
    (hl : home[l.index]? = some (r, x)) (hk : home[k.index]? = some (r, x)) : k = l := by
  obtain ⟨hi, ei⟩ := List.getElem?_eq_some_iff.mp hl
  obtain ⟨hj, ej⟩ := List.getElem?_eq_some_iff.mp hk
  have e : k.index = l.index := (List.getElem_inj h.distinct).mp (ej.trans ei.symm)
  cases k
  cases l
  cases e
  rfl

/-- A value is given to a local variable. -/
theorem write (h : Locals home scopes store globals) (hl : home[l.index]? = some (r, x))
    (hv : Suits x v) : Locals home (scopes.define r x v) (store.set l v) globals := by
  obtain ⟨hr, hs⟩ := h.placed r x (List.mem_of_getElem? hl)
  refine ⟨by rw [Store.size_set, h.size], h.distinct, ?_, ?_, ?_, ?_, h.ordinary, ?_⟩
  · intro s y hy
    rw [Scopes.isSome_get?_define]
    exact h.placed s y hy
  · intro s y w hy hw
    rw [Scopes.lookup?_define hs] at hw
    split at hw
    · rename_i e
      obtain ⟨rfl, rfl⟩ := e
      exact List.mem_of_getElem? hl
    · exact h.covered s y w hy hw
  · intro k s y hk
    rw [Store.get?_set (h.inRange hl), Scopes.lookup?_define hs]
    by_cases e : s = r ∧ y = x
    · obtain ⟨rfl, rfl⟩ := e
      rw [if_pos (h.location_eq hl hk), if_pos ⟨rfl, rfl⟩]
    · have ne : k ≠ l := by
        rintro rfl
        rw [hl] at hk
        cases hk
        exact e ⟨rfl, rfl⟩
      rw [if_neg ne, if_neg e]
      exact h.cells k s y hk
  · rw [Scopes.define, Heap.get?_modify, if_neg (Ne.symm hr)]
    exact h.outermost
  · intro s y w hw
    rw [Scopes.lookup?_define hs] at hw
    split at hw
    · rename_i e
      obtain ⟨rfl, rfl⟩ := e
      cases hw
      exact hv
    · exact h.suits s y w hw

/-- A value is given to a global name. -/
theorem writeGlobal (h : Locals home scopes store globals) (hx : Ordinary x) :
    Locals home (scopes.define Machine.globals x v) store (globals.set x v) := by
  have hs : (scopes.get? Machine.globals).isSome := by rw [h.outermost]; rfl
  refine ⟨h.size, h.distinct, ?_, ?_, ?_, ?_, ?_, ?_⟩
  · intro s y hy
    rw [Scopes.isSome_get?_define]
    exact h.placed s y hy
  · intro s y w hy hw
    rw [Scopes.lookup?_define hs, if_neg (fun e => hy e.1)] at hw
    exact h.covered s y w hy hw
  · intro k s y hk
    have hy : s ≠ Machine.globals := (h.placed s y (List.mem_of_getElem? hk)).1
    rw [Scopes.lookup?_define hs, if_neg (fun e => hy e.1)]
    exact h.cells k s y hk
  · rw [Scopes.define, Heap.get?_modify, if_pos rfl, h.outermost]
    rfl
  · intro y hy
    rw [Bindings.names_set] at hy
    split at hy
    · exact h.ordinary y hy
    · rcases List.mem_append.mp hy with hy | hy
      · exact h.ordinary y hy
      · rw [List.mem_singleton.mp hy]
        exact hx
  · intro s y w hw
    rw [Scopes.lookup?_define hs] at hw
    split at hw
    · rename_i e
      obtain ⟨rfl, rfl⟩ := e
      exact Suits.ordinary hx w
    · exact h.suits s y w hw

/-- A local variable that has no value yet. -/
theorem introduce (h : Locals home scopes store globals) (hr : r ≠ Machine.globals)
    (hs : (scopes.get? r).isSome) (hx : (r, x) ∉ home) :
    Locals (home ++ [(r, x)]) scopes (store.push none) globals := by
  have unbound : scopes.lookup? r x = none := by
    cases hv : scopes.lookup? r x with
    | none => rfl
    | some v => exact absurd (h.covered r x v hr hv) hx
  refine ⟨by simp [h.size], ?_, ?_, ?_, ?_, h.outermost, h.ordinary, h.suits⟩
  · rw [List.nodup_append]
    exact ⟨h.distinct, by simp, fun a ha b hb e => hx (by rwa [← List.mem_singleton.mp hb, ← e])⟩
  · intro s y hy
    rcases List.mem_append.mp hy with hy | hy
    · exact h.placed s y hy
    · cases List.mem_singleton.mp hy
      exact ⟨hr, hs⟩
  · intro s y w hy hw
    exact List.mem_append_left _ (h.covered s y w hy hw)
  · intro k s y hk
    rw [Store.get?_push]
    by_cases e : k.index < home.length
    · have ne : k ≠ store.next := by
        rintro rfl
        exact absurd e (by simp [Store.next, h.size])
      rw [List.getElem?_append_left e] at hk
      rw [if_neg ne]
      exact h.cells k s y hk
    · rw [List.getElem?_append_right (Nat.le_of_not_lt e)] at hk
      obtain ⟨hi, hy⟩ := List.getElem?_eq_some_iff.mp hk
      have hz : k.index - home.length = 0 := by simpa using hi
      have last : k = store.next := by
        obtain ⟨i⟩ := k
        simp only [Store.next, Location.mk.injEq, h.size] at *
        omega
      simp only [hz, List.getElem_cons_zero] at hy
      cases hy
      rw [if_pos last, unbound]

/-- A scope without names. -/
theorem enter (h : Locals home scopes store globals) :
    Locals home (scopes.add .empty (some outer)) store globals := by
  have fresh : Machine.globals ≠ scopes.next := by
    intro e
    have := h.outermost
    rw [e, Scopes.get?_next] at this
    cases this
  have read : ∀ s y, (scopes.add .empty (some outer)).lookup? s y = scopes.lookup? s y := by
    intro s y
    by_cases e : s = scopes.next
    · rw [e, Scopes.lookup?_add_next, Scopes.lookup?_next]; rfl
    · rw [Scopes.lookup?, Scopes.lookup?, Scopes.add, Heap.get?_push, if_neg e]
  refine ⟨h.size, h.distinct, ?_, ?_, ?_, ?_, h.ordinary, ?_⟩
  · intro s y hy
    obtain ⟨hs, hm⟩ := h.placed s y hy
    exact ⟨hs, Scopes.isSome_get?_add.mpr (.inl hm)⟩
  · intro s y w hy hw
    rw [read] at hw
    exact h.covered s y w hy hw
  · intro k s y hk
    rw [read]
    exact h.cells k s y hk
  · rw [Scopes.add, Heap.get?_push, if_neg fresh]
    exact h.outermost
  · intro s y w hw
    rw [read] at hw
    exact h.suits s y w hw

/-- One more variable of the scope that was made last. -/
theorem extend {b : Bindings Value} (h : Locals home (scopes.add b (some outer)) store globals)
    (hg : scopes.next ≠ Machine.globals) (hx : (scopes.next, x) ∉ home) (hv : Suits x v) :
    Locals (home ++ [(scopes.next, x)]) (scopes.add (b.set x v) (some outer))
      (store.push (some v)) globals := by
  have made : ((scopes.add b (some outer)).get? scopes.next).isSome := by
    rw [Scopes.get?_add_next]; rfl
  have last : (home ++ [(scopes.next, x)])[store.next.index]? = some (scopes.next, x) := by
    simp [Store.next, h.size]
  have written := (h.introduce hg made hx).write last hv
  rwa [Scopes.define_add, Store.set_push] at written

end Locals

end Agreement

end Lox
