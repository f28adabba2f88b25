import Lox.Parse.Expression

/-! Statements and declarations. A declaration that cannot be read is left out, and
reading goes on at the next place where a statement may begin. -/

namespace Lox

/-- A counting loop is a block that runs its first clause and then loops, with the
last clause behind the body. Clauses that are missing leave no trace, except that
a loop without a condition has one that always holds. -/
def Stmt.counting (initial : Option (Stmt Unit)) (condition step : Option (Expr Unit))
    (body : Stmt Unit) : Stmt Unit :=
  let round := match step with
    | some e => .block [body, .expression e]
    | none => body
  let loop := .loop (condition.getD (.literal (.bool true))) round
  match initial with
  | some s => .block [s, loop]
  | none => loop

namespace Parse

def startsStatement (k : Kind) : Bool :=
  k == .kwClass || k == .kwFun || k == .kwVar || k == .kwFor || k == .kwIf || k == .kwWhile ||
    k == .kwPrint || k == .kwReturn

/-- Drops tokens up to a semicolon, or up to a token that starts a statement. -/
def resumeAfter (previous : Token) : List Token → List Token
  | [] => []
  | t :: rest =>
    if previous.kind == .semicolon || startsStatement t.kind then t :: rest
    else resumeAfter t rest

/-- Where reading goes on after a problem: behind the token it stopped at. -/
def resume : List Token → List Token
  | [] => []
  | t :: rest => resumeAfter t rest

/-- A reader that has given up is replaced by the absence of a value. -/
def recover {α : Type} (p : Parse α) : Parse (Option α) := fun tokens =>
  match p tokens with
  | ⟨some a, rest, errors⟩ => ⟨some (some a), rest, errors⟩
  | ⟨none, rest, errors⟩ => ⟨some none, resume rest, errors⟩

/-- The readers for what stands inside another statement. -/
structure Inner where
  statement : Parse (Stmt Unit)
  declaration : Parse (Option (Stmt Unit))

variable (inner : Inner)

/-- The declarations of a block whose opening brace has been taken. -/
def block : Parse (List (Stmt Unit)) := do
  let items ← bounded (untilKind .rightBrace inner.declaration)
  let _ ← expect .rightBrace .openBlock
  pure (items.filterMap id)

def routine (kind : RoutineKind) : Parse (Routine (Stmt Unit)) := do
  let name ← expect .identifier (.noRoutineName kind)
  let _ ← expect .leftParen (.noParameterList kind)
  let params ← parenthesised .parameters (expect .identifier .noParameterName)
  let _ ← expect .rightParen .openParameterList
  let _ ← expect .leftBrace (.noRoutineBody kind)
  let body ← block inner
  pure ⟨name, params, body⟩

def parentClause : Parse (Option (Reference Unit)) := do
  match ← take? (· == .less) with
  | some _ =>
    let name ← expect .identifier .noSuperclassName
    pure (some ⟨(), name⟩)
  | none => pure none

def classDeclaration : Parse (Stmt Unit) := do
  let name ← expect .identifier .noClassName
  let parent ← parentClause
  let _ ← expect .leftBrace .noClassBody
  let methods ← bounded (untilKind .rightBrace (routine inner .method))
  let _ ← expect .rightBrace .openClassBody
  pure (.klass name parent methods)

def variableDeclaration : Parse (Stmt Unit) := do
  let name ← expect .identifier .noVariableName
  let initial ← match ← take? (· == .equal) with
    | some _ => some <$> wholeExpression
    | none => pure none
  let _ ← expect .semicolon .openDeclaration
  pure (.declare name initial)

def expressionStatement : Parse (Stmt Unit) := do
  let value ← wholeExpression
  let _ ← expect .semicolon .openExpression
  pure (.expression value)

def printStatement : Parse (Stmt Unit) := do
  let value ← wholeExpression
  let _ ← expect .semicolon .openPrint
  pure (.print value)

def returnStatement (keyword : Token) : Parse (Stmt Unit) := do
  let value ← unlessKind .semicolon wholeExpression
  let _ ← expect .semicolon .openReturn
  pure (.leave keyword value)

def ifStatement : Parse (Stmt Unit) := do
  let _ ← expect .leftParen .noIfCondition
  let condition ← wholeExpression
  let _ ← expect .rightParen .openIfCondition
  let yes ← inner.statement
  let no ← match ← take? (· == .kwElse) with
    | some _ => some <$> inner.statement
    | none => pure none
  pure (.branch condition yes no)

def whileStatement : Parse (Stmt Unit) := do
  let _ ← expect .leftParen .noWhileCondition
  let condition ← wholeExpression
  let _ ← expect .rightParen .openWhileCondition
  let body ← inner.statement
  pure (.loop condition body)

/-- The first clause of a counting loop, with its semicolon. -/
def firstClause : Parse (Option (Stmt Unit)) := do
  match ← take? (· == .semicolon) with
  | some _ => pure none
  | none =>
    match ← take? (· == .kwVar) with
    | some _ => some <$> variableDeclaration
    | none => some <$> expressionStatement

def forStatement : Parse (Stmt Unit) := do
  let _ ← expect .leftParen .noForClauses
  let initial ← firstClause
  let condition ← unlessKind .semicolon wholeExpression
  let _ ← expect .semicolon .openLoopCondition
  let step ← unlessKind .rightParen wholeExpression
  let _ ← expect .rightParen .openForClauses
  let body ← inner.statement
  pure (.counting initial condition step body)

def statementFrom? (t : Token) : Option (Parse (Stmt Unit)) :=
  match t.kind with
  | .kwFor => some (forStatement inner)
  | .kwIf => some (ifStatement inner)
  | .kwPrint => some printStatement
  | .kwReturn => some (returnStatement t)
  | .kwWhile => some (whileStatement inner)
  | .leftBrace => some (.block <$> block inner)
  | _ => none

def statement : Parse (Stmt Unit) := choose (statementFrom? inner) expressionStatement

def declarationFrom? (t : Token) : Option (Parse (Stmt Unit)) :=
  match t.kind with
  | .kwClass => some (classDeclaration inner)
  | .kwFun => some (.function <$> routine inner .function)
  | .kwVar => some variableDeclaration
  | _ => none

def declaration : Parse (Option (Stmt Unit)) :=
  recover (choose (declarationFrom? inner) (statement inner))

/-- Readers for statements in which others are nested, one deeper than the bound is
long. -/
def innerWithin : List Token → Inner
  | [] =>
    let innermost : Inner := ⟨reject .noExpression, reject .noExpression⟩
    ⟨statement innermost, declaration innermost⟩
  | _ :: bound =>
    ⟨fun tokens => statement (innerWithin bound) tokens,
      fun tokens => declaration (innerWithin bound) tokens⟩

/-- Each nested statement stands behind a token of its own, so no statement is
nested deeper than there are tokens. -/
def wholeDeclaration : Parse (Option (Stmt Unit)) := bounded fun bound => (innerWithin bound).declaration

def program : Parse (List (Option (Stmt Unit))) := bounded (untilKind .eof wholeDeclaration)

end Parse

/-- The declarations that could be read, and the problems met on the way. -/
structure Parsed where
  statements : List (Stmt Unit)
  errors : List SyntaxError
  endLine : Nat

/-- Reads the tokens in front of the one that ends them. -/
def parse (tokens : List Token) : Parsed :=
  let reply := Parse.program (tokens.takeWhile (·.kind != .eof))
  ⟨(reply.value.getD []).filterMap id, reply.errors,
    ((tokens.find? (·.kind == .eof)).map (·.line)).getD 1⟩

def Parsed.diagnostics (p : Parsed) : List Diagnostic := p.errors.map (·.diagnostic p.endLine)

end Lox
