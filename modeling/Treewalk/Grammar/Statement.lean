import Treewalk.Grammar.Expression

namespace Treewalk

namespace Parse

section Rules

variable (fuel : Nat) (expr : Parse Expr) (stmt : Parse Stmt) (decl : Parse (Option Stmt))

def unlessMark (mark : Punctuator) : Parse (Option Expr) := do
  if ← check (.punct mark) then return none else return some (← expr)

def varDeclaration : Parse Stmt := do
  let name ← expectName "variable"
  let init ← match ← accept (.punct .equal) with
    | some _ => some <$> expr
    | none => pure none
  let _ ← expectMark .semicolon "after variable declaration"
  return .var name init

def expressionStatement : Parse Stmt := do
  let e ← expr
  let _ ← expectMark .semicolon "after expression"
  return .expr e

def printStatement : Parse Stmt := do
  let e ← expr
  let _ ← expectMark .semicolon "after value"
  return .print e

def returnStatement (keyword : Token) : Parse Stmt := do
  let value ← unlessMark expr .semicolon
  let _ ← expectMark .semicolon "after return value"
  return .ret keyword value

def whileStatement : Parse Stmt := do
  let _ ← expectMark .leftParen "after 'while'"
  let condition ← expr
  let _ ← expectMark .rightParen "after condition"
  return .loop condition (← stmt)

def ifStatement : Parse Stmt := do
  let _ ← expectMark .leftParen "after 'if'"
  let condition ← expr
  let _ ← expectMark .rightParen "after if condition"
  let thenBranch ← stmt
  match ← accept (.keyword .elseKw) with
  | some _ => return .ifElse condition thenBranch (← stmt)
  | none => return .ifThen condition thenBranch

def forStart : Parse (Option Stmt) := do
  match ← accept (.punct .semicolon) with
  | some _ => return none
  | none =>
    match ← accept (.keyword .varKw) with
    | some _ => some <$> varDeclaration expr
    | none => some <$> expressionStatement expr

def forStatement : Parse Stmt := do
  let _ ← expectMark .leftParen "after 'for'"
  let start ← forStart expr
  let condition ← unlessMark expr .semicolon
  let _ ← expectMark .semicolon "after loop condition"
  let step ← unlessMark expr .rightParen
  let _ ← expectMark .rightParen "after for clauses"
  return .counting start condition step (← stmt)

def declarations : Nat → Parse (List Stmt)
  | 0 => exhausted
  | fuel + 1 => do
    if (← check (.punct .rightBrace)) || (← atEnd) then return []
    match ← decl with
    | some s => return s :: (← declarations fuel)
    | none => declarations fuel

def block : Parse (List Stmt) := do
  let body ← declarations decl fuel
  let _ ← expectMark .rightBrace "after block"
  return body

def statementRule : Parse Stmt := do
  match (← peek).kind with
  | .keyword .forKw => let _ ← take; forStatement expr stmt
  | .keyword .ifKw => let _ ← take; ifStatement expr stmt
  | .keyword .printKw => let _ ← take; printStatement expr
  | .keyword .returnKw => returnStatement expr (← take)
  | .keyword .whileKw => let _ ← take; whileStatement expr stmt
  | .punct .leftBrace => let _ ← take; return .block (← block fuel decl)
  | _ => expressionStatement expr

def parameters : Nat → Nat → Parse (List Token)
  | 0, _ => exhausted
  | fuel + 1, count => do
    if maxArity ≤ count then report (.tooMany "parameters") (← peek)
    let name ← expectName "parameter"
    match ← accept (.punct .comma) with
    | some _ => return name :: (← parameters fuel (count + 1))
    | none => return [name]

/-- A function from its name on; `what` it is called only words the faults. -/
def function (what : String) : Parse (FunctionDecl Stmt) := do
  let name ← expectName what
  let _ ← expectMark .leftParen ("after " ++ what ++ " name")
  let params ← if ← check (.punct .rightParen) then pure [] else parameters fuel 0
  let _ ← expectMark .rightParen "after parameters"
  let _ ← expectMark .leftBrace ("before " ++ what ++ " body")
  return ⟨name, params, ← block fuel decl⟩

def methods : Nat → Parse (List (FunctionDecl Stmt))
  | 0 => exhausted
  | n + 1 => do
    if (← check (.punct .rightBrace)) || (← atEnd) then return []
    let method ← function fuel decl "method"
    return method :: (← methods n)

def superclass : Parse (Option Expr) := do
  match ← accept (.punct .less) with
  | some _ => return some (.name (← number (← expectName "superclass")))
  | none => return none

def classDeclaration : Parse Stmt := do
  let name ← expectName "class"
  let super ← superclass
  let _ ← expectMark .leftBrace "before class body"
  let body ← methods fuel decl fuel
  let _ ← expectMark .rightBrace "after class body"
  return .classDecl name super body

def declarationRule : Parse Stmt := do
  match (← peek).kind with
  | .keyword .classKw => let _ ← take; classDeclaration fuel decl
  | .keyword .funKw => let _ ← take; return .function (← function fuel decl "function")
  | .keyword .varKw => let _ ← take; varDeclaration expr
  | _ => statementRule fuel expr stmt decl

end Rules

mutual

def statement : Nat → Cursor → EStateM.Result Halt Cursor Stmt
  | 0, c => exhausted c
  | fuel + 1, c =>
    statementRule (fuel + 1) (expression (fuel + 1)) (statement fuel) (declaration fuel) c

def declaration : Nat → Cursor → EStateM.Result Halt Cursor (Option Stmt)
  | 0, c => exhausted c
  | fuel + 1, c =>
    recovering
      (declarationRule (fuel + 1) (expression (fuel + 1)) (statement fuel) (declaration fuel)) c

end

def program : Nat → Cursor → EStateM.Result Halt Cursor (List Stmt)
  | 0, c => exhausted c
  | fuel + 1, c =>
    if c.rest.isEmpty then .ok [] c
    else
      match declaration c.fuel c with
      | .error e c => .error e c
      | .ok s c =>
        match program fuel c with
        | .error e c => .error e c
        | .ok ss c => .ok (s.toList ++ ss) c

end Parse

namespace Cursor

def program (c : Cursor) : List Stmt × Cursor :=
  match Parse.program c.fuel c with
  | .ok ss c => (ss, c)
  | .error _ c => ([], c)

end Cursor

end Treewalk
