import Lox.Bindings
import Lox.Heap
import Lox.Tree

/-! Values, and the objects that some of them refer to. -/

namespace Lox

inductive Value where
  | nil
  | bool (b : Bool)
  | number (x : Float)
  | string (s : String)
  /-- the function that reads the time -/
  | clock
  | function (f : Ref .function)
  | klass (k : Ref .klass)
  | object (i : Ref .object)

def Literal.value : Literal → Value
  | .nil => .nil
  | .bool b => .bool b
  | .number x => .number x
  | .string s => .string s

namespace Value

/-- Only `nil` and `false` do not hold. -/
def isTruthy : Value → Bool
  | .nil => false
  | .bool b => b
  | _ => true

/-- Values of different types are never equal; objects are equal only to themselves. -/
def equal : Value → Value → Bool
  | .nil, .nil | .clock, .clock => true
  | .bool a, .bool b => a == b
  | .number x, .number y => x == y
  | .string s, .string t => s == t
  | .function f, .function g => f == g
  | .klass k, .klass l => k == l
  | .object i, .object j => i == j
  | _, _ => false

end Value

/-- A routine together with the scope in which it was written. -/
structure Closure where
  routine : Routine (Stmt Nat)
  scope : Ref .scope
  isInitializer : Bool

def Closure.name (f : Closure) : String := f.routine.name.lexeme

def Closure.arity (f : Closure) : Nat := f.routine.params.length

structure Klass where
  name : String
  parent : Option (Ref .klass)
  methods : Bindings (Ref .function)

structure Instance where
  klass : Ref .klass
  fields : Bindings Value

end Lox
