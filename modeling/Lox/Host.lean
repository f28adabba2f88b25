import Lox.Interpreter
import Lox.Reporter

/-! What a session is run on. A program is read, resolved and run by functions that
call themselves, so the stack of the host bounds how deep it may be nested. Where the
stack gives out is up to the host: here it is a parameter, and so is how a terminal is
told to make a text stand out. -/

namespace Lox

/-- What can be read, and what can be resolved, before the stack gives out. It is down to
the tokens of a source, but not to the lines on which they are. What the stack holds of a
run is a part of the limits. -/
structure Stack where
  reads : List Token → Bool
  resolves : List Token → Bool

/-- The tokens of a source without their lines. -/
def Scan.bare (scanned : Scan) : List Token := scanned.tokens.map (·.unlined)

/-- A stack that is not used up by any source. -/
def Stack.ample : Stack := ⟨fun _ => true, fun _ => true⟩

/-! ## How deep a source goes -/

/-- The calls within each other that are made for such a token until what stands behind
it is read as an expression of its own. -/
def Kind.callsInExpression : Kind → Nat
  | .bang | .minus => 1
  | .leftParen => 15
  | _ => 0

/-- The same for a statement of its own. -/
def Kind.callsInBlock : Kind → Nat
  | .leftBrace => 3
  | _ => 0

/-- The most calls that a row of tokens needs, each of which stands within the one in
front of it. Nothing is known of what stands between two rows. -/
def Token.callsFor (needed : Kind → Nat) (row most : Nat) : List Token → Nat
  | [] => max row most
  | t :: rest =>
    match needed t.kind with
    | 0 => callsFor needed 0 (max row most) rest
    | calls => callsFor needed (row + calls) most rest

mutual

/-- The calls within each other that it takes to resolve an expression. -/
def Expr.calls : Expr Unit → Nat
  | .literal _ => 1
  | .name _ | .this _ | .super _ _ => 2
  | .grouping inner => inner.calls + 1
  | .unary _ right => right.calls + 1
  | .binary left _ right | .logical left _ right => max left.calls right.calls + 1
  | .assign _ value => max value.calls 1 + 1
  | .call callee _ arguments => max callee.calls (Expr.callsForAll arguments) + 1
  | .get object _ => object.calls + 1
  | .set object _ value => max object.calls value.calls + 1

def Expr.callsForAll : List (Expr Unit) → Nat
  | [] => 0
  | e :: rest => max e.calls (Expr.callsForAll rest)

end

def Expr.calls? : Option (Expr Unit) → Nat
  | none => 0
  | some e => e.calls

mutual

/-- The calls within each other that it takes to resolve a statement. -/
def Stmt.calls : Stmt Unit → Nat
  | .expression value | .print value => value.calls + 1
  | .declare _ initial => Expr.calls? initial + 1
  | .block body => Stmt.callsForAll body + 1
  | .branch condition yes no => max condition.calls (max yes.calls (Stmt.calls? no)) + 1
  | .loop condition body => max condition.calls body.calls + 1
  | .function routine => Routine.calls routine + 1
  | .leave _ value => Expr.calls? value + 1
  | .klass _ _ methods => Routine.callsForAll methods + 2

def Stmt.calls? : Option (Stmt Unit) → Nat
  | none => 0
  | some s => s.calls

/-- Going through statements is a call of its own. -/
def Stmt.callsForAll : List (Stmt Unit) → Nat
  | [] => 1
  | s :: rest => max (s.calls + 1) (Stmt.callsForAll rest)

def Routine.calls : Routine (Stmt Unit) → Nat
  | ⟨_, _, body⟩ => Stmt.callsForAll body + 1

def Routine.callsForAll : List (Routine (Stmt Unit)) → Nat
  | [] => 0
  | r :: rest => max (Routine.calls r) (Routine.callsForAll rest)

end

/-- A stack that holds so many calls within each other. -/
def Stack.ofCalls (calls : Nat) : Stack where
  reads tokens := Token.callsFor Kind.callsInExpression 0 0 tokens ≤ calls &&
    Token.callsFor Kind.callsInBlock 0 0 tokens ≤ calls
  resolves tokens := Stmt.callsForAll (parse tokens).statements ≤ calls

structure Host where
  limits : Limits
  stack : Stack
  paint : Paint

/-- A host on which nothing but the running of programs is bounded. -/
def Host.ofLimits (limits : Limits) : Host := ⟨limits, .ample, .ansi⟩

/-- The host that the command is run on. Its stack holds 10000 calls. The limits count one call
for each level of a run: a host on which a level takes several is one with lower limits. -/
def Host.standard : Host := ⟨.standard, .ofCalls 10000, .ansi⟩

end Lox
