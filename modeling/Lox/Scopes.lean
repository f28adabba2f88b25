import Lox.Value

/-! Scopes of a running program. Each scope binds names and, unless it is an
outermost one, is enclosed by another. Reading and writing either stay in the
scope itself or go a given number of hops outwards; neither searches. -/

namespace Lox

structure Scope where
  bindings : Bindings Value
  enclosing : Option (Ref .scope)

abbrev Scopes := Heap .scope Scope

/-- Why a hop count does not lead to a value. -/
inductive ScopeFault where
  | unbound (name : String)
  | outermost
deriving DecidableEq, Repr

namespace Scopes

def enclosing? (s : Scopes) (r : Ref .scope) : Option (Ref .scope) := (s.get? r).bind (·.enclosing)

/-- A new scope inside the given one. -/
def add (s : Scopes) (bindings : Bindings Value) (enclosing : Option (Ref .scope)) : Scopes :=
  s.push ⟨bindings, enclosing⟩

def define (s : Scopes) (r : Ref .scope) (name : String) (v : Value) : Scopes :=
  s.modify r fun scope => { scope with bindings := scope.bindings.set name v }

def lookup? (s : Scopes) (r : Ref .scope) (name : String) : Option Value :=
  (s.get? r).bind (·.bindings.get? name)

/-- Writes a name that the scope binds already. -/
def assign? (s : Scopes) (r : Ref .scope) (name : String) (v : Value) : Option Scopes :=
  if (s.lookup? r name).isSome then some (s.define r name v) else none

/-- The place some hops outwards. One hop past an outermost scope is no scope, and
there are no hops from there. -/
def ancestor (s : Scopes) : Nat → Option (Ref .scope) → Except ScopeFault (Option (Ref .scope))
  | 0, place => .ok place
  | _ + 1, none => .error .outermost
  | n + 1, some r => ancestor s n (s.enclosing? r)

/-- The scope some hops outwards. -/
def scopeAt (s : Scopes) (hops : Nat) (r : Ref .scope) : Except ScopeFault (Ref .scope) := do
  match ← s.ancestor hops (some r) with
  | some found => pure found
  | none => throw .outermost

def getAt (s : Scopes) (hops : Nat) (name : String) (r : Ref .scope) : Except ScopeFault Value := do
  match s.lookup? (← s.scopeAt hops r) name with
  | some v => pure v
  | none => throw (.unbound name)

def assignAt (s : Scopes) (hops : Nat) (name : String) (v : Value) (r : Ref .scope) :
    Except ScopeFault Scopes := do
  pure (s.define (← s.scopeAt hops r) name v)

/-- The number of scopes around a place, counted up to a bound. -/
def countOutwards (s : Scopes) : Nat → Option (Ref .scope) → Nat
  | 0, _ | _, none => 0
  | n + 1, some r => countOutwards s n (s.enclosing? r) + 1

/-- A scope is enclosed by older ones only, so there are fewer around it than there
are scopes. -/
def depth (s : Scopes) (r : Ref .scope) : Nat := s.countOutwards s.size (s.enclosing? r)

def bindings (s : Scopes) (r : Ref .scope) : Bindings Value := ((s.get? r).map (·.bindings)).getD .empty

end Scopes

end Lox
