import Mathlib.Data.List.Nodup
import Lox.Proofs.Distances.Entries
import Lox.Proofs.ParsedTrees
import Lox.Scan

/-! # The table of a program is its lexical distances

A site has an entry if a local scope around it declares its name in front of it, and
the entry counts the scopes between the two. Every entry is that of a site, and of no
other one, so it is never changed later; and behind each statement the pass stands
where it stood before. -/

namespace Lox

namespace Surroundings

variable {Γ : Surroundings} {x : String} {hops : Nat}

/-- So many scopes lie between a place and the innermost scope around it that declares
the name. -/
def Innermost (Γ : Surroundings) (x : String) (hops : Nat) : Prop :=
  ∃ between names outer, Γ = between ++ names :: outer ∧ between.length = hops ∧
    x ∈ names ∧ ∀ scope ∈ between, x ∉ scope

theorem distance?_isSome : (Γ.distance? x).isSome ↔ ∃ names ∈ Γ, x ∈ names := by
  simp [distance?]

theorem distance?_eq_some : Γ.distance? x = some hops ↔ Γ.Innermost x hops := by
  constructor
  · intro h
    induction Γ generalizing hops with
    | nil => simp at h
    | cons names outer ih =>
      rw [distance?_cons] at h
      split at h
      · rename_i hx
        cases h
        exact ⟨[], names, outer, rfl, rfl, hx, by simp⟩
      · rename_i hx
        obtain ⟨d, hd, rfl⟩ := Option.map_eq_some_iff.mp h
        obtain ⟨between, scope, rest, rfl, rfl, hm, hb⟩ := ih hd
        exact ⟨names :: between, scope, rest, rfl, rfl, hm, List.forall_mem_cons.mpr ⟨hx, hb⟩⟩
  · rintro ⟨between, names, outer, rfl, rfl, hx, hb⟩
    induction between with
    | nil => simp [distance?_cons, hx]
    | cons scope between ih =>
      obtain ⟨hs, hb⟩ := List.forall_mem_cons.mp hb
      simp [distance?_cons, hs, ih hb]

end Surroundings

/-! ## Rows of sites -/

namespace Site

variable {P : Site → Prop} {marks : List Nat} {sites : List Site} {site other : Site} {e : Entry}

theorem entry?_eq_some : site.entry? = some e ↔ site.misuse? = none ∧ e.kind = site.kind ∧
    e.reference = site.reference ∧ site.scopes.distance? site.name = some e.hops := by
  obtain ⟨kind, reference, hops⟩ := e
  unfold entry?
  cases site.misuse? with
  | some _ => simp
  | none =>
    simp only [Option.map_eq_some_iff, Entry.mk.injEq, true_and]
    constructor
    · rintro ⟨d, hd, rfl, rfl, rfl⟩
      exact ⟨rfl, rfl, hd⟩
    · rintro ⟨rfl, rfl, hd⟩
      exact ⟨hops, hd, rfl, rfl, rfl⟩

/-- Sites without an entry leave the others in their order. -/
theorem entries_sublist (sites : List Site) : List.Sublist
    ((sites.filterMap entry?).map (·.reference.mark)) (sites.map (·.reference.mark)) := by
  induction sites with
  | nil => exact .slnil
  | cons site rest ih =>
    cases h : site.entry? with
    | none => simpa [h] using ih.cons site.reference.mark
    | some e =>
      have he : e.reference = site.reference := (entry?_eq_some.mp h).2.2.1
      simpa [h, he] using ih

theorem Lists.mark_mem (h : Lists P marks sites) (hs : P site) : site.reference.mark ∈ marks :=
  h.marks.mem_iff.mp (List.mem_map_of_mem ((h.mem site).mpr hs))

theorem Lists.exists (h : Lists P marks sites) {mark : Nat} (hm : mark ∈ marks) :
    ∃ site, P site ∧ site.reference.mark = mark := by
  obtain ⟨site, hs, rfl⟩ := List.mem_map.mp (h.marks.mem_iff.mpr hm)
  exact ⟨site, (h.mem site).mp hs, rfl⟩

/-- Where no mark is given twice, sites are told apart by their marks. -/
theorem Lists.unique (h : Lists P marks sites) (hn : marks.Nodup) (hs : P site) (ho : P other)
    (heq : site.reference.mark = other.reference.mark) : site = other :=
  List.inj_on_of_nodup_map (h.marks.nodup_iff.mpr hn) ((h.mem site).mpr hs) ((h.mem other).mpr ho) heq

theorem Lists.mem_filterMap {α : Type} (h : Lists P marks sites) (f : Site → Option α) (a : α) :
    a ∈ sites.filterMap f ↔ ∃ site, P site ∧ f site = some a := by
  rw [List.mem_filterMap]
  exact exists_congr fun site => and_congr_left' (h.mem site)

/-- No two entries are for one reference, -/
theorem Lists.once (h : Lists P marks sites) (hn : marks.Nodup) :
    ((sites.filterMap entry?).map (·.reference.mark)).Nodup :=
  (entries_sublist sites).nodup (h.marks.nodup_iff.mpr hn)

/-- so an entry for the reference of a site is that of the site. -/
theorem Lists.own (h : Lists P marks sites) (hn : marks.Nodup) (hs : P site)
    (he : e ∈ sites.filterMap entry?) (heq : e.reference.mark = site.reference.mark) :
    site.entry? = some e := by
  obtain ⟨other, ho, hentry⟩ := (h.mem_filterMap entry? e).mp he
  have same := (entry?_eq_some.mp hentry).2.2.1
  rwa [h.unique hn hs ho (by rw [← heq, same])]

end Site

/-- A mark with one entry only has the address that this entry gives. -/
theorem Table.hops?_recordAll {t : Table} {entries : List Entry} {e : Entry}
    (hn : (entries.map (·.reference.mark)).Nodup) (he : e ∈ entries) :
    (t.recordAll entries).hops? e.reference.mark = some e.hops := by
  induction entries generalizing t with
  | nil => simp at he
  | cons first rest ih =>
    obtain ⟨hf, hr⟩ := List.nodup_cons.mp hn
    rcases List.mem_cons.mp he with rfl | he
    · have later : ∀ f ∈ rest, f.reference.mark ≠ e.reference.mark :=
        fun f hm heq => hf (List.mem_map.mpr ⟨f, hm, heq⟩)
      exact (hops?_recordAll_of_ne (t := t.record e.reference.mark e.hops) later).trans
        (by rw [hops?_record, if_pos rfl])
    · exact ih (t := t.record first.reference.mark first.hops) hr he

/-! ## What a statement leaves as it was -/

/-- Behind a statement the pass is at the place where it was before it: the scopes are
as many, those around the innermost one are the same, and so are the contexts. The
entries that it has made so far stay. -/
structure Walk.Restores (w w' : Walk) : Prop where
  depth : w'.scopes.length = w.scopes.length
  outer : w'.scopes.tail = w.scopes.tail
  routine : w'.routine = w.routine
  klass : w'.klass = w.klass
  entries : w.entries.toList <+: w'.entries.toList

theorem Walk.mark_depth (name : Token) (complete : Bool) (w : Walk) :
    (w.mark name complete).scopes.length = w.scopes.length := by
  unfold mark
  split
  · rfl
  · rename_i h
    rw [h]
    rfl

theorem Walk.declare_depth (name : Token) (w : Walk) :
    (w.declare name).scopes.length = w.scopes.length := by
  unfold declare
  split <;> exact mark_depth ..

theorem Stmt.resolve_depth : ∀ (s : Stmt Nat) (w : Walk),
    (s.resolve w).scopes.length = w.scopes.length
  | .expression value, w | .print value, w => congrArg List.length (value.resolve_scopes w)
  | .declare name initial, w =>
    (Walk.mark_depth ..).trans ((congrArg List.length (Expr.resolve?_scopes initial _)).trans
      (w.declare_depth name))
  | .block body, w => congrArg List.length (Stmt.resolveAll_tail body w.enter)
  | .branch condition yes none, w =>
    (yes.resolve_depth _).trans (congrArg List.length (condition.resolve_scopes w))
  | .branch condition yes (some no), w =>
    (no.resolve_depth _).trans ((yes.resolve_depth _).trans
      (congrArg List.length (condition.resolve_scopes w)))
  | .loop condition body, w =>
    (body.resolve_depth _).trans (congrArg List.length (condition.resolve_scopes w))
  | .function routine, w =>
    (congrArg List.length (Routine.resolve_scopes .function routine _)).trans
      ((Walk.mark_depth ..).trans (w.declare_depth routine.name))
  | .leave keyword value, w =>
    congrArg List.length ((Expr.resolve?_scopes value _).trans
      (w.leave_scopes keyword value.isSome))
  | .klass name parent methods, w =>
    (congrArg List.length (Stmt.resolve_klass_scopes name parent methods w)).trans
      ((Walk.mark_depth ..).trans (Walk.declare_depth name _))

theorem Stmt.resolve_restores (s : Stmt Nat) (w : Walk) : w.Restores (s.resolve w) := by
  have adds := s.resolve_adds w
  obtain ⟨new, entries, _⟩ := adds.entries
  exact ⟨s.resolve_depth w, s.resolve_tail w, adds.routine, adds.klass, new, entries.symm⟩

/-! ## Programs -/

/-- What the entries and the reports of a resolution are, told by the sites of its
program. -/
structure Resolution.Lexical (program : List (Stmt Nat)) (found : Resolution) : Prop where
  /-- The references of the program stand at its sites, -/
  placed : ∀ mark, mark ∈ Stmt.allMarks program ↔
    ∃ site, Stmt.ProgramHasSite program site ∧ site.reference.mark = mark
  /-- each at one of them. -/
  apart : ∀ site other, Stmt.ProgramHasSite program site → Stmt.ProgramHasSite program other →
    site.reference.mark = other.reference.mark → site = other
  /-- A site that is no misuse has an entry if and only if a scope around it declares its
  name in front of it. -/
  entered : ∀ site, Stmt.ProgramHasSite program site → site.misuse? = none →
    ((∃ e ∈ found.entries, e.reference.mark = site.reference.mark) ↔
      ∃ names ∈ site.scopes, site.name ∈ names)
  /-- The entry counts the scopes up to the innermost such scope. -/
  distance : ∀ site, Stmt.ProgramHasSite program site → ∀ e ∈ found.entries,
    e.reference.mark = site.reference.mark → site.misuse? = none ∧ e.kind = site.kind ∧
      e.reference = site.reference ∧ site.scopes.Innermost site.name e.hops
  /-- There are no other entries, -/
  only : ∀ e ∈ found.entries, ∃ site, Stmt.ProgramHasSite program site ∧
    site.reference = e.reference
  /-- and no two for one reference. -/
  once : (found.entries.map (·.reference.mark)).Nodup
  /-- Misuses of `this` and `super` are reported, and nothing else is reported as such. -/
  reported : ∀ error : MisuseError, error.misuse.ofReceiver = true →
    (error ∈ found.errors ↔ ∃ site, Stmt.ProgramHasSite program site ∧ site.report? = some error)
  /-- A table without addresses for the references of the program has the entries as their
  addresses afterwards. -/
  recorded : ∀ t : Table, (∀ mark ∈ Stmt.allMarks program, t.hops? mark = none) →
    ∀ site, Stmt.ProgramHasSite program site →
      (t.recordAll found.entries).hops? site.reference.mark = site.entry?.map (·.hops)

/-- What the pass finds in a program is told by any row of its sites. -/
theorem Site.Lists.lexical {program : List (Stmt Nat)} {sites : List Site} {found : Resolution}
    (h : Site.Lists (Stmt.ProgramHasSite program) (Stmt.allMarks program) sites)
    (hn : (Stmt.allMarks program).Nodup) (he : found.entries = sites.filterMap Site.entry?)
    (hr : found.errors.filter (·.misuse.ofReceiver) = sites.filterMap Site.report?) :
    found.Lexical program := by
  obtain ⟨entries, errors⟩ := found
  obtain rfl : entries = _ := he
  constructor
  case placed =>
    exact fun mark => ⟨h.exists, fun ⟨site, hs, hm⟩ => hm ▸ h.mark_mem hs⟩
  case apart => exact fun site other hs ho => h.unique hn hs ho
  case entered =>
    intro site hs hm
    rw [← Surroundings.distance?_isSome]
    constructor
    · rintro ⟨e, he, heq⟩
      have own := h.own hn hs he heq
      exact Option.isSome_of_eq_some (Site.entry?_eq_some.mp own).2.2.2
    · intro hd
      obtain ⟨hops, hd⟩ := Option.isSome_iff_exists.mp hd
      have entry : site.entry? = some ⟨site.kind, site.reference, hops⟩ :=
        Site.entry?_eq_some.mpr ⟨hm, rfl, rfl, hd⟩
      exact ⟨_, (h.mem_filterMap Site.entry? _).mpr ⟨site, hs, entry⟩, rfl⟩
  case distance =>
    intro site hs e he heq
    obtain ⟨hm, hk, href, hd⟩ := Site.entry?_eq_some.mp (h.own hn hs he heq)
    exact ⟨hm, hk, href, Surroundings.distance?_eq_some.mp hd⟩
  case only =>
    intro e he
    obtain ⟨site, hs, entry⟩ := (h.mem_filterMap Site.entry? e).mp he
    exact ⟨site, hs, (Site.entry?_eq_some.mp entry).2.2.1.symm⟩
  case once => exact h.once hn
  case reported =>
    intro error hkind
    rw [← h.mem_filterMap Site.report?, ← hr, List.mem_filter]
    simp [hkind]
  case recorded =>
    intro t clean site hs
    cases entry : site.entry? with
    | some e =>
      rw [← (Site.entry?_eq_some.mp entry).2.2.1]
      exact Table.hops?_recordAll (h.once hn) ((h.mem_filterMap Site.entry? e).mpr ⟨site, hs, entry⟩)
    | none =>
      refine (Table.hops?_recordAll_of_ne fun e he heq => ?_).trans (clean _ (h.mark_mem hs))
      simp [h.own hn hs he heq] at entry

/-- The entries of a program are the lexical distances of its references, also if it is
not free of misuses. Programs that come later, and have later marks, change none of
them, and each statement leaves the pass where it was. -/
theorem resolution_is_lexical (tokens : List Token) (n : Nat) :
    let (program, next) := Stmt.numberAll (parse tokens).statements n
    (resolve program).Lexical program ∧
      (∀ (later : List Token) (gap : Nat) (t : Table), ∀ mark ∈ Stmt.allMarks program,
        let others := (Stmt.numberAll (parse later).statements (next + gap)).1
        (t.recordAll (resolve others).entries).hops? mark = t.hops? mark) ∧
      ∀ (s : Stmt Nat) (w : Walk), w.Restores (s.resolve w) := by
  have formed : Stmt.AllWellFormed (fun _ => True) (parse tokens).statements :=
    parse_wellFormed fun _ _ => trivial
  have spans := Stmt.numberAll_spans (parse tokens).statements n
  refine ⟨?_, fun later gap t mark hm => ?_, fun s w => s.resolve_restores w⟩
  · have start : Walk.start.At [] .none := ⟨.nil, rfl⟩
    obtain ⟨sites, lists, meets⟩ := Stmt.resolveAll_finds (Stmt.numberAll (parse tokens).statements n).1
      .start (Stmt.numberAll_wellFormed _ n formed) start
    exact lists.lexical spans.nodup meets.entries meets.reports
  · refine resolve_entries _ fun hl => ?_
    have before := (spans.mem hm).2
    have behind := ((Stmt.numberAll_spans (parse later).statements _).mem hl).1
    omega

/-- A class in a method of a subclass. The `super` in the outer method is two scopes away, the
one in the inner method is misused. -/
theorem resolution_is_lexical_nested :
    let source := "class A < A { m() { super.m(); class B { m() { super.m(); return B; } } } }"
    let program := (Stmt.numberAll (parse (scan source).tokens).statements 0).1
    (resolve program).entries.map (fun e => (e.reference.mark, e.hops)) = [(1, 2), (3, 2)] ∧
      (resolve program).errors.map (·.misuse) = [.selfInheritance, .superWithoutParent] ∧
      ∃ site, Stmt.ProgramHasSite program site ∧ site.reference.mark = 1 ∧ site.misuse? = none ∧
        site.scopes.Innermost site.name 2 := by
  intro source program
  have found : (resolve program).entries.map (fun e => (e.reference.mark, e.hops)) = [(1, 2), (3, 2)] ∧
      (resolve program).errors.map (·.misuse) = [.selfInheritance, .superWithoutParent] := by
    decide +kernel
  have lexical : (resolve program).Lexical program := (resolution_is_lexical (scan source).tokens 0).1
  have outer : (1, 2) ∈ (resolve program).entries.map (fun e => (e.reference.mark, e.hops)) := by
    rw [found.1]
    exact List.mem_cons_self
  obtain ⟨e, he, heq⟩ := List.mem_map.mp outer
  obtain ⟨mark, hops⟩ := Prod.mk.inj heq
  obtain ⟨site, hs, same⟩ := lexical.only e he
  obtain ⟨used, -, -, innermost⟩ := lexical.distance site hs e he (by rw [same])
  exact ⟨found.1, found.2, site, hs, by rw [same, mark], used, hops ▸ innermost⟩

end Lox
