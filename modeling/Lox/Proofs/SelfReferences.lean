import Lox.Proofs.Fits

/-! # What belongs to the nearest class

The uses of `this` and `super` that mean the class around the code. Those in the
methods of a class inside the code mean that class instead, so they are left out.
Code that fits its place has such uses only where `this` is in force. -/

namespace Lox

variable {μ : Type}

mutual

def Expr.selfReferences : Expr μ → List (Reference μ)
  | .literal _ | .name _ => []
  | .grouping inner => inner.selfReferences
  | .unary _ right => right.selfReferences
  | .binary left _ right | .logical left _ right => left.selfReferences ++ right.selfReferences
  | .assign _ value => value.selfReferences
  | .call callee _ arguments => callee.selfReferences ++ Expr.allSelfReferences arguments
  | .get object _ => object.selfReferences
  | .set object _ value => object.selfReferences ++ value.selfReferences
  | .this keyword | .super keyword _ => [keyword]

def Expr.allSelfReferences : List (Expr μ) → List (Reference μ)
  | [] => []
  | e :: rest => e.selfReferences ++ Expr.allSelfReferences rest

end

def Expr.selfReferences? : Option (Expr μ) → List (Reference μ)
  | none => []
  | some e => e.selfReferences

mutual

def Stmt.selfReferences : Stmt μ → List (Reference μ)
  | .expression value | .print value => value.selfReferences
  | .declare _ initial => Expr.selfReferences? initial
  | .block body => Stmt.allSelfReferences body
  | .branch condition yes no =>
    condition.selfReferences ++ (yes.selfReferences ++ Stmt.selfReferences? no)
  | .loop condition body => condition.selfReferences ++ body.selfReferences
  | .function routine => Routine.selfReferences routine
  | .leave _ value => Expr.selfReferences? value
  | .klass _ _ _ => []

def Stmt.selfReferences? : Option (Stmt μ) → List (Reference μ)
  | none => []
  | some s => s.selfReferences

def Stmt.allSelfReferences : List (Stmt μ) → List (Reference μ)
  | [] => []
  | s :: rest => s.selfReferences ++ Stmt.allSelfReferences rest

def Routine.selfReferences : Routine (Stmt μ) → List (Reference μ)
  | ⟨_, _, body⟩ => Stmt.allSelfReferences body

end

theorem Routine.selfReferences_eq (r : Routine (Stmt μ)) :
    Routine.selfReferences r = Stmt.allSelfReferences r.body := by
  cases r
  rfl

/-! ## Only methods have them -/

section Fits

variable {hops : Nat → Option Nat} {r : Reference Nat}

mutual

theorem Expr.Fits.this_inForce {Γ : Surroundings} {pending : Option String} :
    ∀ (e : Expr Nat), e.Fits hops Γ pending → r ∈ e.selfReferences → (Γ.distance? "this").isSome
  | .literal _, _, hr => by cases hr
  | .name _, _, hr => by cases hr
  | .grouping inner, h, hr => Expr.Fits.this_inForce inner h hr
  | .unary _ right, h, hr => Expr.Fits.this_inForce right h hr
  | .binary left _ right, ⟨hl, hr⟩, h | .logical left _ right, ⟨hl, hr⟩, h =>
    (List.mem_append.mp h).elim (Expr.Fits.this_inForce left hl) (Expr.Fits.this_inForce right hr)
  | .assign _ value, ⟨_, _, hv⟩, h => Expr.Fits.this_inForce value hv h
  | .call callee _ arguments, ⟨_, hc, ha⟩, h =>
    (List.mem_append.mp h).elim (Expr.Fits.this_inForce callee hc)
      (Expr.AllFit.this_inForce arguments ha)
  | .get object _, h, hr => Expr.Fits.this_inForce object h hr
  | .set object _ value, ⟨ho, hv⟩, h =>
    (List.mem_append.mp h).elim (Expr.Fits.this_inForce object ho) (Expr.Fits.this_inForce value hv)
  | .this _, ⟨_, d, _, hd⟩, _ => Option.isSome_iff_exists.mpr ⟨d, hd⟩
  | .super _ _, ⟨d, _, _, hd⟩, _ => Option.isSome_iff_exists.mpr ⟨d, hd⟩

theorem Expr.AllFit.this_inForce {Γ : Surroundings} {pending : Option String} :
    ∀ (es : List (Expr Nat)), Expr.AllFit hops Γ pending es → r ∈ Expr.allSelfReferences es →
      (Γ.distance? "this").isSome
  | [], _, hr => by cases hr
  | e :: rest, ⟨he, hs⟩, h =>
    (List.mem_append.mp h).elim (Expr.Fits.this_inForce e he) (Expr.AllFit.this_inForce rest hs)

end

theorem Expr.Fits?.this_inForce {Γ : Surroundings} {pending : Option String} (e : Option (Expr Nat))
    (h : Expr.Fits? hops Γ pending e) (hr : r ∈ Expr.selfReferences? e) :
    (Γ.distance? "this").isSome := by
  cases e with
  | none => cases hr
  | some e => exact Expr.Fits.this_inForce e h hr

/-- Neither a declaration nor a scope of ordinary names has to do with `this`. -/
theorem Surroundings.this_declare {Γ : Surroundings} {x : String} (hx : Ordinary x) :
    (Γ.declare x).distance? "this" = Γ.distance? "this" := distance?_declare hx.1.symm

theorem Surroundings.this_scope {Γ : Surroundings} {names : List String}
    (hn : ∀ x ∈ names, Ordinary x) (h : (distance? (names :: Γ) "this").isSome) :
    (Γ.distance? "this").isSome := by
  rw [distance?_cons, if_neg fun hm => (hn "this" hm).1 rfl, Option.isSome_map] at h
  exact h

theorem Surroundings.this_after {Γ : Surroundings} {s : Stmt Nat} (h : s.Fits hops Γ) :
    (Γ.after s).distance? "this" = Γ.distance? "this" := by
  unfold after
  split
  · rename_i x hd
    exact this_declare (h.ordinary hd)
  · rfl

mutual

theorem Stmt.Fits.this_inForce : ∀ (s : Stmt Nat) (Γ : Surroundings), s.Fits hops Γ →
    r ∈ s.selfReferences → (Γ.distance? "this").isSome
  | .expression value, _, h, hr | .print value, _, h, hr => Expr.Fits.this_inForce value h hr
  | .declare _ initial, Γ, ⟨_, hx, hf⟩, hr => by
    rw [← Surroundings.this_declare hx]
    exact Expr.Fits?.this_inForce initial hf hr
  | .block body, _, h, hr =>
    Surroundings.this_scope (fun _ hx => by cases hx) (Stmt.AllFit.this_inForce body _ h hr)
  | .branch condition yes no, Γ, ⟨hc, ⟨hy, _⟩, hn⟩, hr => by
    rcases List.mem_append.mp hr with hr | hr
    · exact Expr.Fits.this_inForce condition hc hr
    · rcases List.mem_append.mp hr with hr | hr
      · exact Stmt.Fits.this_inForce yes Γ hy hr
      · exact Stmt.Fits?.this_inForce no Γ hn hr
  | .loop condition body, Γ, ⟨hc, hb, _⟩, hr =>
    (List.mem_append.mp hr).elim (Expr.Fits.this_inForce condition hc)
      (Stmt.Fits.this_inForce body Γ hb)
  | .function routine, _, ⟨_, hx, hf⟩, hr => by
    rw [← Surroundings.this_declare hx]
    exact Routine.Fits.this_inForce routine _ hf hr
  | .leave _ value, _, h, hr => Expr.Fits?.this_inForce value h hr
  | .klass _ _ _, _, _, hr => by cases hr

theorem Stmt.Fits?.this_inForce : ∀ (s : Option (Stmt Nat)) (Γ : Surroundings), Stmt.Fits? hops Γ s →
    r ∈ Stmt.selfReferences? s → (Γ.distance? "this").isSome
  | none, _, _, hr => by cases hr
  | some s, Γ, ⟨hs, _⟩, hr => Stmt.Fits.this_inForce s Γ hs hr

theorem Stmt.AllFit.this_inForce : ∀ (ss : List (Stmt Nat)) (Γ : Surroundings),
    Stmt.AllFit hops Γ ss → r ∈ Stmt.allSelfReferences ss → (Γ.distance? "this").isSome
  | [], _, _, hr => by cases hr
  | s :: rest, Γ, ⟨hs, hf⟩, hr => by
    rcases List.mem_append.mp hr with hr | hr
    · exact Stmt.Fits.this_inForce s Γ hs hr
    · rw [← Surroundings.this_after hs]
      exact Stmt.AllFit.this_inForce rest _ hf hr

theorem Routine.Fits.this_inForce : ∀ (routine : Routine (Stmt Nat)) (Γ : Surroundings),
    Routine.Fits hops Γ routine → r ∈ Routine.selfReferences routine → (Γ.distance? "this").isSome
  | ⟨_, params, body⟩, _, ⟨_, hp, hf⟩, hr => by
    refine Surroundings.this_scope ?_ (Stmt.AllFit.this_inForce body _ hf hr)
    intro x hx
    obtain ⟨t, ht, rfl⟩ := List.mem_map.mp hx
    exact hp t ht

end

end Fits

end Lox
