import Lox.Machine

/-! Classes and their instances. A method is looked up in a class and then in the
classes it inherits from, the nearest first, and it is bound to its receiver by a
scope of its own that holds `this`. -/

namespace Lox

namespace Heap

/-- Looks a method up along at most the given number of classes. -/
def methodFrom? (classes : Heap .klass Klass) (name : String) :
    Nat → Option (Ref .klass) → Option (Ref .function)
  | 0, _ | _, none => none
  | n + 1, some k =>
    match classes.get? k with
    | none => none
    | some c =>
      match c.methods.get? name with
      | some f => some f
      | none => methodFrom? classes name n c.parent

/-- A class inherits from older classes only, so no chain is longer than the heap. -/
def method? (classes : Heap .klass Klass) (k : Ref .klass) (name : String) : Option (Ref .function) :=
  classes.methodFrom? name classes.size (some k)

end Heap

namespace Run

def method? (k : Ref .klass) (name : String) : Run (Option (Ref .function)) :=
  return (← get).classes.method? k name

/-- A copy of a method whose scope binds `this` around the code of the method. -/
def bind (f : Ref .function) (receiver : Value) : Run (Ref .function) := do
  let method ← functionAt f
  let scope ← newScope (.ofList [("this", receiver)]) method.scope
  newFunction { method with scope := scope }

/-- A property of an instance: its own field, or else a method of its class. -/
def property (i : Ref .object) (name : Token) : Run Value := do
  let object ← instanceAt i
  match object.fields.get? name.lexeme with
  | some v => pure v
  | none =>
    match ← method? object.klass name.lexeme with
    | some f => return .function (← bind f (.object i))
    | none => fail name .undefinedProperty

def setField (i : Ref .object) (name : String) (v : Value) : Run Unit :=
  modify fun m => { m with instances := m.instances.modify i fun object =>
    { object with fields := object.fields.set name v } }

/-- A method of the parent of the class in which the code stands, bound to the
receiver. The parent is `hops` scopes outwards, the receiver one less. -/
def superMethod (keyword : Reference Nat) (name : Token) : Run Value := do
  let m ← get
  match m.table.hops? keyword.mark with
  | none => throw .unresolvedSuper
  | some hops =>
    let parent ← ofScope (m.scopes.getAt hops "super" m.current)
    let receiver ← ofScope (m.scopes.getAt (hops - 1) "this" m.current)
    match parent with
    | .klass k =>
      match ← method? k name.lexeme with
      | some f => return .function (← bind f receiver)
      | none => fail name .undefinedProperty
    | _ => throw .superNotClass

end Run

end Lox
