import Lox.Diagnostic
import Lox.Tree

/-! Reading trees from tokens. A reader takes the tokens that are left, and gives
a value or gives up, with the tokens it leaves and the problems it reports. A
problem need not end a reader: some are reported on the way to a value. -/

namespace Lox

inductive Listed where
  | parameters
  | arguments
deriving DecidableEq, Repr

/-- What a routine is called in messages. -/
inductive RoutineKind where
  | function
  | method
deriving DecidableEq, Repr

def RoutineKind.word : RoutineKind → String
  | function => "function"
  | method => "method"

/-- A list of parameters or arguments may have this many elements. -/
def maxListed : Nat := 255

inductive SyntaxProblem where
  | noClassName | noSuperclassName | noClassBody | openClassBody
  | noRoutineName (kind : RoutineKind)
  | noParameterList (kind : RoutineKind)
  | noParameterName | openParameterList
  | noRoutineBody (kind : RoutineKind)
  | noVariableName | openDeclaration
  | noForClauses | openLoopCondition | openForClauses
  | noIfCondition | openIfCondition
  | openPrint | openReturn
  | noWhileCondition | openWhileCondition
  | openBlock | openExpression
  | noPropertyName | openArgumentList
  | noSuperDot | noSuperMethod
  | openGrouping | noExpression
  | badTarget
  | tooMany (what : Listed)
deriving DecidableEq, Repr

namespace SyntaxProblem

def message : SyntaxProblem → String
  | noClassName => "Expect class name."
  | noSuperclassName => "Expect superclass name."
  | noClassBody => "Expect '\x7b' before class body."
  | openClassBody => "Expect '\x7d' after class body."
  | noRoutineName kind => "Expect " ++ kind.word ++ " name."
  | noParameterList kind => "Expect '(' after " ++ kind.word ++ " name."
  | noParameterName => "Expect parameter name."
  | openParameterList => "Expect ')' after parameters."
  | noRoutineBody kind => "Expect '\x7b' before " ++ kind.word ++ " body."
  | noVariableName => "Expect variable name."
  | openDeclaration => "Expect ';' after variable declaration."
  | noForClauses => "Expect '(' after 'for'."
  | openLoopCondition => "Expect ';' after loop condition."
  | openForClauses => "Expect ')' after for clauses."
  | noIfCondition => "Expect '(' after 'if'."
  | openIfCondition => "Expect ')' after if condition."
  | openPrint => "Expect ';' after value."
  | openReturn => "Expect ';' after return value."
  | noWhileCondition => "Expect '(' after 'while'."
  | openWhileCondition => "Expect ')' after condition."
  | openBlock => "Expect '\x7d' after block."
  | openExpression => "Expect ';' after expression."
  | noPropertyName => "Expect property name after '.'."
  | openArgumentList => "Expect ')' after arguments."
  | noSuperDot => "Expect '.' after 'super'."
  | noSuperMethod => "Expect superclass method name."
  | openGrouping => "Expect ')' after expression."
  | noExpression => "Expect expression."
  | badTarget => "Invalid assignment target."
  | tooMany .parameters => "Can't have more than " ++ toString maxListed ++ " parameters."
  | tooMany .arguments => "Can't have more than " ++ toString maxListed ++ " arguments."

end SyntaxProblem

/-- A problem at a token, or at the end of the tokens. -/
structure SyntaxError where
  problem : SyntaxProblem
  token : Option Token

/-- The text of a syntax error in tokens that end on the given line. -/
def SyntaxError.diagnostic (endLine : Nat) (e : SyntaxError) : Diagnostic :=
  match e.token with
  | some t => ⟨t.line, t.place, e.problem.message⟩
  | none => ⟨endLine, Diagnostic.atEnd, e.problem.message⟩

/-- What a reader makes of some tokens. Without a value it has given up. -/
structure Reply (α : Type) where
  value : Option α
  rest : List Token
  errors : List SyntaxError

def Parse (α : Type) : Type := List Token → Reply α

namespace Parse

variable {α β : Type}

def bind (p : Parse α) (f : α → Parse β) : Parse β := fun tokens =>
  match p tokens with
  | ⟨none, rest, errors⟩ => ⟨none, rest, errors⟩
  | ⟨some a, rest, errors⟩ =>
    let reply := f a rest
    { reply with errors := errors ++ reply.errors }

instance : Monad Parse where
  pure a := fun tokens => ⟨some a, tokens, []⟩
  bind := bind

def report (problem : SyntaxProblem) (token : Option Token) : Parse Unit := fun tokens =>
  ⟨some (), tokens, [⟨problem, token⟩]⟩

/-- Reports a problem at the next token and goes on. -/
def complain (problem : SyntaxProblem) : Parse Unit := fun tokens =>
  report problem tokens.head? tokens

/-- Reports a problem at the next token and gives up. -/
def reject (problem : SyntaxProblem) : Parse α := fun tokens =>
  ⟨none, tokens, [⟨problem, tokens.head?⟩]⟩

/-- Whether the next token is of the given kind. -/
def atKind (kind : Kind) : Parse Bool := fun tokens =>
  ⟨some (tokens.head?.any (·.kind == kind)), tokens, []⟩

/-- Whether no token is left or the next one is of the given kind. -/
def endsAt (kind : Kind) : Parse Bool := fun tokens =>
  ⟨some (tokens.head?.all (·.kind == kind)), tokens, []⟩

/-- Takes the next token if its kind passes the test. -/
def take? (test : Kind → Bool) : Parse (Option Token)
  | [] => ⟨some none, [], []⟩
  | t :: rest => if test t.kind then ⟨some (some t), rest, []⟩ else ⟨some none, t :: rest, []⟩

/-- Takes the next token, which has to be of the given kind. -/
def expect (kind : Kind) (problem : SyntaxProblem) : Parse Token := do
  match ← take? (· == kind) with
  | some t => pure t
  | none => reject problem

/-- Gives a reader the tokens that are left, to bound its rounds. -/
def bounded (p : List Token → Parse α) : Parse α := fun tokens => p tokens tokens

/-- Lets the next token choose a reader for what follows it. A token without one
is left to the reader that stands in for it. -/
def choose (reader? : Token → Option (Parse α)) (otherwise : Parse α) : Parse α
  | [] => otherwise []
  | t :: rest =>
    match reader? t with
    | some p => p rest
    | none => otherwise (t :: rest)

/-- Reads a value unless the next token is of the given kind. -/
def unlessKind (kind : Kind) (p : Parse α) : Parse (Option α) := do
  if ← atKind kind then pure none else some <$> p

/-- Reads values until the tokens end or the next one is of the given kind. A
value takes at least one token, so as many rounds as there are tokens suffice. -/
def untilKind (kind : Kind) (item : Parse α) : List Token → Parse (List α)
  | [] => pure []
  | _ :: bound => do
    if ← endsAt kind then pure []
    else
      let x ← item
      let xs ← untilKind kind item bound
      pure (x :: xs)

/-- Reports an element of a list that already has as many as are allowed. It is read
all the same. -/
def checkRoom (what : Listed) (seen : Nat) : Parse Unit :=
  if seen ≥ maxListed then complain (.tooMany what) else pure ()

/-- Reads a value, and another one after each comma. -/
def commaList (what : Listed) (item : Parse α) : Nat → List Token → Parse (List α)
  | seen, [] => do
    checkRoom what seen
    let x ← item
    pure [x]
  | seen, _ :: bound => do
    checkRoom what seen
    let x ← item
    match ← take? (· == .comma) with
    | some _ =>
      let xs ← commaList what item (seen + 1) bound
      pure (x :: xs)
    | none => pure [x]

/-- The elements of a list whose opening parenthesis has been taken. -/
def parenthesised (what : Listed) (item : Parse α) : Parse (List α) := do
  if ← atKind .rightParen then pure [] else bounded (commaList what item 0)

end Parse

end Lox
