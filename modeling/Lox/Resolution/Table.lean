import Lox.Tree

/-! Where references lead: for each reference to a local name, how many scopes
outwards the name is bound. A reference without an entry is to a global name. -/

namespace Lox

structure Table where
  slots : Array (Option Nat)

namespace Table

def empty : Table := ⟨#[]⟩

def hops? (t : Table) (m : Nat) : Option Nat := t.slots[m]?.getD none

/-- Marks are given out in order, so the slots between the last one and a new one
belong to references that have no entry. -/
def record (t : Table) (m : Nat) (hops : Nat) : Table :=
  if m < t.slots.size then ⟨t.slots.modify m fun _ => some hops⟩
  else ⟨(t.slots ++ Array.replicate (m - t.slots.size) none).push (some hops)⟩

@[simp] theorem hops?_empty (m : Nat) : empty.hops? m = none := rfl

theorem hops?_record (t : Table) (m other : Nat) (hops : Nat) :
    (t.record m hops).hops? other = if other = m then some hops else t.hops? other := by
  unfold record hops?
  split
  · rename_i h
    by_cases e : m = other
    · subst e; rw [Array.getElem?_modify]; simp [h]
    · simp [Array.getElem?_modify, e, Ne.symm e]
  · rename_i h
    have size : t.slots.size + (m - t.slots.size) = m := by omega
    simp only [Array.getElem?_push, Array.size_append, Array.size_replicate, size,
      Array.getElem?_append, Array.getElem?_replicate]
    by_cases e : other = m
    · simp [e]
    · simp only [e, if_false]
      by_cases l : other < t.slots.size
      · simp [l]
      · simp only [l, if_false]
        have : t.slots[other]? = none := by simp; omega
        rw [this]
        split <;> rfl

end Table

end Lox
