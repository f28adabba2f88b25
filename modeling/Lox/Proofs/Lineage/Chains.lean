import Lox.Machine.Object

/-! # From a class to the classes above it

A class is made when its parent is there already. So whoever goes from class to parent
comes to older and older classes, meets none twice and gets to an end within as many steps
as there are classes; a method is looked for along the whole way. -/

namespace Lox

namespace Heap

/-- The classes from the given one upwards, each before its parent. -/
inductive Lineage (classes : Heap .klass Klass) : Option (Ref .klass) → List (Ref .klass) → Prop
  | done : Lineage classes none []
  | up {r : Ref .klass} {k : Klass} {above : List (Ref .klass)} (here : classes.get? r = some k)
      (rest : Lineage classes k.parent above) : Lineage classes (some r) (r :: above)

/-- Every parent is older than the class. -/
def Older (classes : Heap .klass Klass) : Prop :=
  ∀ r k parent, classes.get? r = some k → k.parent = some parent → parent.index < r.index

/-- A method in the table of the class itself. -/
def ownMethod? (classes : Heap .klass Klass) (name : String) (r : Ref .klass) : Option (Ref .function) :=
  (classes.get? r).bind (·.methods.get? name)

variable {classes later : Heap .klass Klass} {start : Option (Ref .klass)} {r : Ref .klass}
  {chain chain' : List (Ref .klass)} {name : String} {n : Nat}

theorem index_lt_size {sort : CellSort} {α : Type} {heap : Heap sort α} {r : Ref sort}
    (h : (heap.get? r).isSome) : r.index < heap.size := by
  obtain ⟨a, ha⟩ := Option.isSome_iff_exists.mp h
  exact (Array.getElem?_eq_some_iff.mp ha).1

theorem isSome_of_index_lt {sort : CellSort} {α : Type} {heap : Heap sort α} {r : Ref sort}
    (h : r.index < heap.size) : (heap.get? r).isSome :=
  Option.isSome_iff_exists.mpr ⟨heap.cells[r.index], Array.getElem?_eq_some_iff.mpr ⟨h, rfl⟩⟩

namespace Lineage

theorem unique (h : classes.Lineage start chain) (h' : classes.Lineage start chain') :
    chain = chain' := by
  induction h generalizing chain' with
  | done => cases h'; rfl
  | up here _ ih =>
    cases h' with
    | up here' rest =>
      obtain rfl := Option.some.inj (here.symm.trans here')
      rw [ih rest]

/-- Every class of the chain is there. -/
theorem isSome (h : classes.Lineage start chain) (hr : r ∈ chain) : (classes.get? r).isSome := by
  induction h with
  | done => cases hr
  | up here _ ih =>
    rcases List.mem_cons.mp hr with rfl | hr
    · rw [here]
      rfl
    · exact ih hr

/-- Below the age of the first class there is room for the whole chain. -/
theorem bounded (older : classes.Older) (h : classes.Lineage start chain)
    (hn : ∀ r, start = some r → r.index < n) :
    chain.length ≤ n ∧ chain.Nodup ∧ ∀ r ∈ chain, r.index < n := by
  induction h generalizing n with
  | done => exact ⟨Nat.zero_le n, List.nodup_nil, nofun⟩
  | @up r k above here _ ih =>
    have first : r.index < n := hn r rfl
    obtain ⟨length, nodup, below⟩ := ih fun parent hp => older r k parent here hp
    refine ⟨?_, List.nodup_cons.mpr ⟨fun again => Nat.lt_irrefl _ (below r again), nodup⟩, ?_⟩
    · rw [List.length_cons]
      omega
    · intro other ho
      rcases List.mem_cons.mp ho with rfl | ho
      · exact first
      · exact Nat.lt_trans (below other ho) first

theorem mono (h : classes.Lineage start chain)
    (keeps : ∀ r k, classes.get? r = some k → later.get? r = some k) : later.Lineage start chain := by
  induction h with
  | done => exact .done
  | up here _ ih => exact .up (keeps _ _ here) ih

/-- With steps enough the nearest class that has a method of the name decides. -/
theorem methodFrom?_eq (h : classes.Lineage start chain) (hn : chain.length ≤ n) :
    classes.methodFrom? name n start = chain.findSome? (classes.ownMethod? name) := by
  induction h generalizing n with
  | done => cases n <;> rfl
  | @up r k above here _ ih =>
    cases n with
    | zero => cases hn
    | succ n =>
      have own : classes.ownMethod? name r = k.methods.get? name := by rw [ownMethod?, here]; rfl
      rw [methodFrom?, here, List.findSome?_cons, own]
      dsimp only
      cases k.methods.get? name with
      | some f => rfl
      | none => exact ih (Nat.le_of_succ_le_succ hn)

end Lineage

/-- The look-up of a method goes along the whole chain and takes the nearest one. -/
theorem Lineage.method?_eq (older : classes.Older) (h : classes.Lineage (some r) chain) :
    classes.method? r name = chain.findSome? (classes.ownMethod? name) := by
  have first : (classes.get? r).isSome := by
    cases h with
    | up here _ => rw [here]; rfl
  have size := (h.bounded older fun _ e => Option.some.inj e ▸ index_lt_size first).1
  exact h.methodFrom?_eq size

end Heap

/-- Parents are older classes, and objects are of a class that there is. -/
structure Machine.Founded (m : Machine) : Prop where
  older : m.classes.Older
  kinds : ∀ i o, m.instances.get? i = some o → (m.classes.get? o.klass).isSome

namespace Machine.Founded

variable {m : Machine} (h : m.Founded)
include h

/-- The parent of a new class is there before it. -/
theorem newClass {k : Klass} (hp : ∀ parent, k.parent = some parent → (m.classes.get? parent).isSome) :
    Founded { m with classes := m.classes.push k } where
  older r c parent hc he := by
    have hc : (m.classes.push k).get? r = some c := hc
    rw [Heap.get?_push] at hc
    split at hc
    · rename_i new
      cases hc
      rw [new]
      exact Heap.index_lt_size (hp parent he)
    · exact h.older r c parent hc he
  kinds i o ho := by
    obtain ⟨c, hc⟩ := Option.isSome_iff_exists.mp (h.kinds i o ho)
    exact Option.isSome_iff_exists.mpr ⟨c, Heap.get?_push_of_some hc⟩

theorem newInstance {o : Instance} (hk : (m.classes.get? o.klass).isSome) :
    Founded { m with instances := m.instances.push o } where
  older := h.older
  kinds i o' ho := by
    have ho : (m.instances.push o).get? i = some o' := ho
    rw [Heap.get?_push] at ho
    split at ho
    · cases ho
      exact hk
    · exact h.kinds i o' ho

theorem setField (i : Ref .object) (x : String) (v : Value) :
    Founded { m with instances := m.instances.modify i fun object =>
      { object with fields := object.fields.set x v } } where
  older := h.older
  kinds j o ho := by
    have ho : (m.instances.modify i fun object =>
      { object with fields := object.fields.set x v }).get? j = some o := ho
    rw [Heap.get?_modify] at ho
    split at ho
    · obtain ⟨o', ho', rfl⟩ := Option.map_eq_some_iff.mp ho
      exact h.kinds i o' ho'
    · exact h.kinds j o ho

end Machine.Founded

end Lox
