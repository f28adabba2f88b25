/-! Names bound to values, in the order in which the names were first bound. -/

namespace Lox

structure Bindings (α : Type) where
  pairs : List (String × α)

namespace Bindings

variable {α : Type}

def empty : Bindings α := ⟨[]⟩

def get? (b : Bindings α) (name : String) : Option α := b.pairs.lookup name

def contains (b : Bindings α) (name : String) : Bool := (b.get? name).isSome

def setIn (name : String) (a : α) : List (String × α) → List (String × α)
  | [] => [(name, a)]
  | (other, old) :: rest =>
    if name == other then (other, a) :: rest else (other, old) :: setIn name a rest

/-- A name that is bound keeps its place. -/
def set (b : Bindings α) (name : String) (a : α) : Bindings α := ⟨setIn name a b.pairs⟩

/-- Binds each name in turn, so that the last of several bindings of a name holds. -/
def ofList (pairs : List (String × α)) : Bindings α :=
  pairs.foldl (fun b p => b.set p.1 p.2) empty

def names (b : Bindings α) : List String := b.pairs.map (·.1)

/-- The bound names by the order of their characters' code points. -/
def sortedNames (b : Bindings α) : List String := b.names.mergeSort (· ≤ ·)

@[simp] theorem get?_empty (name : String) : (empty : Bindings α).get? name = none := rfl

theorem lookup_setIn (name other : String) (a : α) (pairs : List (String × α)) :
    (setIn name a pairs).lookup other = if other = name then some a else pairs.lookup other := by
  induction pairs with
  | nil => simp only [setIn, List.lookup_cons, List.lookup_nil]; grind
  | cons p rest ih =>
    simp only [setIn]
    split <;> simp only [List.lookup_cons] <;> grind

theorem get?_set (b : Bindings α) (name other : String) (a : α) :
    (b.set name a).get? other = if other = name then some a else b.get? other :=
  lookup_setIn name other a b.pairs

theorem isSome_lookup (name : String) (pairs : List (String × α)) :
    (pairs.lookup name).isSome = (pairs.map (·.1)).contains name := by
  induction pairs with
  | nil => rfl
  | cons p rest ih =>
    obtain ⟨other, a⟩ := p
    simp only [List.lookup_cons, List.map_cons, List.contains_cons]
    cases name == other with
    | true => rfl
    | false => rw [Bool.false_or]; exact ih

theorem contains_eq (b : Bindings α) (name : String) : b.contains name = b.names.contains name :=
  isSome_lookup name b.pairs

theorem map_fst_setIn (name : String) (a : α) (pairs : List (String × α)) :
    (setIn name a pairs).map (·.1) =
      if (pairs.map (·.1)).contains name then pairs.map (·.1) else pairs.map (·.1) ++ [name] := by
  induction pairs with
  | nil => rfl
  | cons p rest ih =>
    obtain ⟨other, old⟩ := p
    simp only [setIn, List.map_cons, List.contains_cons]
    cases h : name == other with
    | true => simp
    | false =>
      simp only [Bool.false_eq_true, if_false, List.map_cons, ih, Bool.false_or]
      split <;> rfl

/-- A new name comes last. -/
theorem names_set (b : Bindings α) (name : String) (a : α) :
    (b.set name a).names = if b.names.contains name then b.names else b.names ++ [name] :=
  map_fst_setIn name a b.pairs

theorem mem_names {b : Bindings α} {x : String} :
    x ∈ b.names ↔ ∃ a, b.get? x = some a := by
  rw [← List.contains_iff_mem, ← contains_eq, contains, Option.isSome_iff_exists]

theorem mem_names_set {b : Bindings α} {x y : String} {a : α} :
    x ∈ (b.set y a).names ↔ x ∈ b.names ∨ x = y := by
  rw [names_set]
  split
  · rename_i h
    have hy : y ∈ b.names := List.contains_iff_mem.mp h
    exact ⟨.inl, fun h => h.elim id fun e => e ▸ hy⟩
  · rw [List.mem_append, List.mem_singleton]

theorem names_set_of_new {b : Bindings α} {x : String} {a : α}
    (h : x ∉ b.names) : (b.set x a).names = b.names ++ [x] := by
  rw [names_set, if_neg (fun e => h (List.contains_iff_mem.mp e))]

section Pairs

variable {pairs : List (String × α)} {b : Bindings α} {x : String} {a : α}

theorem names_foldl_set (h : (b.names ++ pairs.map (·.1)).Nodup) :
    (pairs.foldl (fun b e => b.set e.1 e.2) b).names = b.names ++ pairs.map (·.1) := by
  induction pairs generalizing b with
  | nil => simp
  | cons e rest ih =>
    have hx : e.1 ∉ b.names := fun hm => (List.nodup_append.mp h).2.2 e.1 hm e.1 (by simp) rfl
    rw [List.map_cons, List.append_cons, ← names_set_of_new (a := e.2) hx] at h
    rw [List.foldl_cons, ih h, names_set_of_new hx, List.map_cons, ← List.append_cons]

theorem get?_foldl_set (h : (pairs.map (·.1)).Nodup) :
    (pairs.foldl (fun b e => b.set e.1 e.2) b).get? x = some a ↔
      (x, a) ∈ pairs ∨ x ∉ pairs.map (·.1) ∧ b.get? x = some a := by
  induction pairs generalizing b with
  | nil => simp
  | cons e rest ih =>
    obtain ⟨y, c⟩ := e
    rw [List.map_cons, List.nodup_cons] at h
    rw [List.foldl_cons, ih h.2, get?_set]
    simp only [List.mem_cons, List.map_cons, Prod.mk.injEq, not_or]
    by_cases e : x = y
    · subst e
      have out : (x, a) ∉ rest := fun hm => h.1 (List.mem_map.mpr ⟨_, hm, rfl⟩)
      simp [out, h.1, eq_comm]
    · simp [e]

theorem get?_ofList (h : (pairs.map (·.1)).Nodup) :
    (ofList pairs).get? x = some a ↔ (x, a) ∈ pairs := by
  rw [ofList, get?_foldl_set h]
  simp

theorem names_ofList (h : (pairs.map (·.1)).Nodup) :
    (ofList pairs).names = pairs.map (·.1) := names_foldl_set (by simpa [names, empty] using h)

end Pairs

end Bindings

end Lox
