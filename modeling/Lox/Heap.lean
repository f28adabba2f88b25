/-! Numbered cells that are added and changed but never taken away. The sort of a
reference says in which of several heaps its cell is. -/

namespace Lox

/-- What a running program allocates. -/
inductive CellSort where
  | scope
  | function
  | klass
  | object
deriving DecidableEq, Repr

structure Ref (sort : CellSort) where
  index : Nat
deriving DecidableEq, Repr

structure Heap (sort : CellSort) (α : Type) where
  cells : Array α

namespace Heap

variable {sort : CellSort} {α : Type}

def empty : Heap sort α := ⟨#[]⟩

def size (h : Heap sort α) : Nat := h.cells.size

def get? (h : Heap sort α) (r : Ref sort) : Option α := h.cells[r.index]?

/-- The reference that the next cell will have. -/
def next (h : Heap sort α) : Ref sort := ⟨h.cells.size⟩

def push (h : Heap sort α) (a : α) : Heap sort α := ⟨h.cells.push a⟩

def modify (h : Heap sort α) (r : Ref sort) (f : α → α) : Heap sort α := ⟨h.cells.modify r.index f⟩

@[simp] theorem size_push (h : Heap sort α) (a : α) : (h.push a).size = h.size + 1 := by
  simp [push, size]

@[simp] theorem size_modify (h : Heap sort α) (r : Ref sort) (f : α → α) :
    (h.modify r f).size = h.size := by
  simp [modify, size]

theorem get?_push (h : Heap sort α) (a : α) (r : Ref sort) :
    (h.push a).get? r = if r = h.next then some a else h.get? r := by
  obtain ⟨i⟩ := r
  simp only [push, get?, next, Array.getElem?_push, Ref.mk.injEq]

theorem get?_push_next {h : Heap sort α} {a : α} : (h.push a).get? h.next = some a := by
  rw [get?_push, if_pos rfl]

/-- A new cell leaves the others as they are. -/
theorem get?_push_of_some {h : Heap sort α} {a b : α} {r : Ref sort} (hr : h.get? r = some b) :
    (h.push a).get? r = some b := by
  rw [get?_push]
  split
  · rename_i e
    subst e
    simp [get?, next] at hr
  · exact hr

theorem get?_modify (h : Heap sort α) (r other : Ref sort) (f : α → α) :
    (h.modify r f).get? other = if other = r then (h.get? r).map f else h.get? other := by
  obtain ⟨i⟩ := r
  obtain ⟨j⟩ := other
  simp only [modify, get?, Array.getElem?_modify, Ref.mk.injEq]
  by_cases e : i = j
  · subst e; simp
  · simp [e, Ne.symm e]

end Heap

end Lox
