import Treewalk.Grammar.Statement

/-!
The parser as an index into a list of tokens, which only `advance` moves. Its rules call each other
and themselves, as deep as they need to. A run has no result if it reads where there is no token.
-/

namespace Treewalk

structure Parser where
  tokens : Array Token
  current : Nat
  nextId : Nat
  faults : List Diagnostic

namespace Parser

/-- The end is put behind a list whose last token is none. -/
def new (tokens : List Token) (nextId : Nat) : Parser where
  tokens :=
    if tokens.getLast?.any (·.kind = .eof) then tokens.toArray
    else tokens.toArray.push ⟨.eof, "", (tokens.getLast?.map Token.line).getD 1⟩
  current := 0
  nextId
  faults := []

abbrev Run := ExceptT Diagnostic (StateT Parser Option)

def tokenAt (i : Nat) : Run Token := fun p => (p.tokens[i]?).map (.ok ·, p)

def peek : Run Token := do tokenAt (← get).current

def previous : Run Token := do tokenAt ((← get).current - 1)

def atEnd : Run Bool := return (← peek).kind = .eof

def check (kind : TokenKind) : Run Bool := do
  if ← atEnd then return false else return (← peek).kind = kind

def advance : Run Token := do
  if ← atEnd then previous
  else
    modify fun p => { p with current := p.current + 1 }
    previous

def accept : List TokenKind → Run (Option Token)
  | [] => return none
  | kind :: kinds => do
    if ← check kind then return some (← advance) else accept kinds

def attempt {α : Type} (w : Run α) : Run (Except Diagnostic α) := fun p => do
  let (result, p) ← w p
  return (.ok result, p)

def failHere {α : Type} (fault : SyntaxFault) : Run α := do
  throw (.syntactic fault (← peek))

def keep (d : Diagnostic) : Run Unit := modify fun p => { p with faults := p.faults ++ [d] }

def report (fault : SyntaxFault) (token : Token) : Run Unit := keep (.syntactic fault token)

def expect (kind : TokenKind) (fault : SyntaxFault) : Run Token := do
  match ← accept [kind] with
  | some t => return t
  | none => failHere fault

def expectMark (mark : Punctuator) (place : String) : Run Token :=
  expect (.punct mark) (.expectedMark mark place)

def expectName (what : String) : Run Token := expect .identifier (.expectedName what)

def number (token : Token) : Run Ref := do
  let p ← get
  set { p with nextId := p.nextId + 1 }
  return ⟨p.nextId, token⟩

def assignTo (target : Expr) (equals : Token) (value : Expr) : Run Expr :=
  match target with
  | .name ref => return .assign (← number ref.token) value
  | .get object property => return .set object property value
  | other => do
    report .invalidTarget equals
    return other

/-- The operators of one level and what they make of their operands. -/
structure Level where
  ops : List TokenKind
  node : Expr → Token → Expr → Expr

def levels : List Level :=
  [⟨[.keyword .orKw], .logical⟩,
   ⟨[.keyword .andKw], .logical⟩,
   ⟨[.punct .bangEqual, .punct .equalEqual], .binary⟩,
   ⟨[.punct .greater, .punct .greaterEqual, .punct .less, .punct .lessEqual], .binary⟩,
   ⟨[.punct .minus, .punct .plus], .binary⟩,
   ⟨[.punct .star, .punct .slash], .binary⟩]

def superclass : Run (Option Expr) := do
  match ← accept [.punct .less] with
  | some _ => return some (.name (← number (← expectName "superclass")))
  | none => return none

/-- The rules that call each other or themselves, by what they return. -/
inductive Rule : Type → Type 1
  | expression : Rule Expr
  /-- Operands between operators of the first level, which associate to the left. -/
  | binary (levels : List Level) : Rule Expr
  | operands (level : Level) (tighter : List Level) (left : Expr) : Rule Expr
  | unary : Rule Expr
  /-- Calls and properties after an expression. -/
  | suffixes (e : Expr) : Rule Expr
  | callTail (callee : Expr) : Rule Expr
  /-- One or more arguments, of which `count` others stand before. -/
  | arguments (count : Nat) : Rule (List Expr)
  | primary : Rule Expr
  /-- An expression, unless a mark stands in its place. -/
  | unlessMark (mark : Punctuator) : Rule (Option Expr)
  | varDeclaration : Rule Stmt
  | expressionStatement : Rule Stmt
  | printStatement : Rule Stmt
  | returnStatement (keyword : Token) : Rule Stmt
  | forStart : Rule (Option Stmt)
  | forStatement : Rule Stmt
  | ifStatement : Rule Stmt
  | whileStatement : Rule Stmt
  | statement : Rule Stmt
  /-- The rest of a block whose brace is already taken. -/
  | block : Rule (List Stmt)
  /-- Declarations up to a closing brace or the end. -/
  | declarations : Rule (List Stmt)
  /-- One or more parameters, of which `count` others stand before. -/
  | parameters (count : Nat) : Rule (List Token)
  /-- A function from its name on; `what` it is called only words the faults. -/
  | function (what : String) : Rule (FunctionDecl Stmt)
  /-- Methods up to a closing brace or the end. -/
  | methods : Rule (List (FunctionDecl Stmt))
  | classDeclaration : Rule Stmt
  /-- A declaration without recovery. -/
  | unguarded : Rule Stmt
  /-- A fault is kept, and parsing goes on where the next statement may start. -/
  | declaration : Rule (Option Stmt)
  /-- Leaves the token ahead, and all others up to the next place where a statement may start. -/
  | synchronize : Rule Unit
  | resume : Rule Unit
  /-- Declarations up to the end. -/
  | program : Rule (List Stmt)

/-- What a rule does, where the rules that it calls do what `run` says. -/
def step {α : Type} (run : ∀ {β : Type}, Rule β → Run β) : Rule α → Run α
  | .expression => do
    let target ← run (.binary levels)
    match ← accept [.punct .equal] with
    | some equals => assignTo target equals (← run .expression)
    | none => return target
  | .binary [] => run .unary
  | .binary (level :: tighter) => do
    let left ← run (.binary tighter)
    run (.operands level tighter left)
  | .operands level tighter left => do
    match ← accept level.ops with
    | some op =>
      let right ← run (.binary tighter)
      run (.operands level tighter (level.node left op right))
    | none => return left
  | .unary => do
    match ← accept [.punct .bang, .punct .minus] with
    | some op => return .unary op (← run .unary)
    | none => run (.suffixes (← run .primary))
  | .suffixes e => do
    match ← accept [.punct .leftParen] with
    | some _ => run (.suffixes (← run (.callTail e)))
    | none =>
      match ← accept [.punct .dot] with
      | some _ => run (.suffixes (.get e (← expect .identifier .expectedProperty)))
      | none => return e
  | .callTail callee => do
    let args ← if ← check (.punct .rightParen) then pure [] else run (.arguments 0)
    let paren ← expectMark .rightParen "after arguments"
    return .call callee paren args
  | .arguments count => do
    if maxArity ≤ count then report (.tooMany "arguments") (← peek)
    let e ← run .expression
    match ← accept [.punct .comma] with
    | some _ => return e :: (← run (.arguments (count + 1)))
    | none => return [e]
  | .primary => do
    match (← peek).kind with
    | .keyword .falseKw => let _ ← advance; return .literal (.bool false)
    | .keyword .trueKw => let _ ← advance; return .literal (.bool true)
    | .keyword .nilKw => let _ ← advance; return .literal .nil
    | .number x => let _ ← advance; return .literal (.number x)
    | .string s => let _ ← advance; return .literal (.string s)
    | .identifier => return .name (← number (← advance))
    | .keyword .thisKw => return .receiver (← number (← advance))
    | .keyword .superKw => do
      let keyword ← advance
      let _ ← expectMark .dot "after 'super'"
      let method ← expectName "superclass method"
      return .inherited (← number keyword) method
    | .punct .leftParen => do
      let _ ← advance
      let inner ← run .expression
      let _ ← expectMark .rightParen "after expression"
      return .group inner
    | _ => failHere .expectedExpression
  | .unlessMark mark => do
    if ← check (.punct mark) then return none else return some (← run .expression)
  | .varDeclaration => do
    let name ← expectName "variable"
    let init ← match ← accept [.punct .equal] with
      | some _ => some <$> run .expression
      | none => pure none
    let _ ← expectMark .semicolon "after variable declaration"
    return .var name init
  | .expressionStatement => do
    let e ← run .expression
    let _ ← expectMark .semicolon "after expression"
    return .expr e
  | .printStatement => do
    let e ← run .expression
    let _ ← expectMark .semicolon "after value"
    return .print e
  | .returnStatement keyword => do
    let value ← run (.unlessMark .semicolon)
    let _ ← expectMark .semicolon "after return value"
    return .ret keyword value
  | .forStart => do
    match ← accept [.punct .semicolon] with
    | some _ => return none
    | none =>
      match ← accept [.keyword .varKw] with
      | some _ => some <$> run .varDeclaration
      | none => some <$> run .expressionStatement
  | .forStatement => do
    let _ ← expectMark .leftParen "after 'for'"
    let start ← run .forStart
    let condition ← run (.unlessMark .semicolon)
    let _ ← expectMark .semicolon "after loop condition"
    let increment ← run (.unlessMark .rightParen)
    let _ ← expectMark .rightParen "after for clauses"
    return .counting start condition increment (← run .statement)
  | .ifStatement => do
    let _ ← expectMark .leftParen "after 'if'"
    let condition ← run .expression
    let _ ← expectMark .rightParen "after if condition"
    let thenBranch ← run .statement
    match ← accept [.keyword .elseKw] with
    | some _ => return .ifElse condition thenBranch (← run .statement)
    | none => return .ifThen condition thenBranch
  | .whileStatement => do
    let _ ← expectMark .leftParen "after 'while'"
    let condition ← run .expression
    let _ ← expectMark .rightParen "after condition"
    return .loop condition (← run .statement)
  | .statement => do
    match (← peek).kind with
    | .keyword .forKw => let _ ← advance; run .forStatement
    | .keyword .ifKw => let _ ← advance; run .ifStatement
    | .keyword .printKw => let _ ← advance; run .printStatement
    | .keyword .returnKw => run (.returnStatement (← advance))
    | .keyword .whileKw => let _ ← advance; run .whileStatement
    | .punct .leftBrace => let _ ← advance; return .block (← run .block)
    | _ => run .expressionStatement
  | .block => do
    let body ← run .declarations
    let _ ← expectMark .rightBrace "after block"
    return body
  | .declarations => do
    if (← check (.punct .rightBrace)) || (← atEnd) then return []
    match ← run .declaration with
    | some s => return s :: (← run .declarations)
    | none => run .declarations
  | .parameters count => do
    if maxArity ≤ count then report (.tooMany "parameters") (← peek)
    let name ← expectName "parameter"
    match ← accept [.punct .comma] with
    | some _ => return name :: (← run (.parameters (count + 1)))
    | none => return [name]
  | .function what => do
    let name ← expectName what
    let _ ← expectMark .leftParen ("after " ++ what ++ " name")
    let params ← if ← check (.punct .rightParen) then pure [] else run (.parameters 0)
    let _ ← expectMark .rightParen "after parameters"
    let _ ← expectMark .leftBrace ("before " ++ what ++ " body")
    return ⟨name, params, ← run .block⟩
  | .methods => do
    if (← check (.punct .rightBrace)) || (← atEnd) then return []
    let method ← run (.function "method")
    return method :: (← run .methods)
  | .classDeclaration => do
    let name ← expectName "class"
    let super ← superclass
    let _ ← expectMark .leftBrace "before class body"
    let body ← run .methods
    let _ ← expectMark .rightBrace "after class body"
    return .classDecl name super body
  | .unguarded => do
    match (← peek).kind with
    | .keyword .classKw => let _ ← advance; run .classDeclaration
    | .keyword .funKw => let _ ← advance; return .function (← run (.function "function"))
    | .keyword .varKw => let _ ← advance; run .varDeclaration
    | _ => run .statement
  | .declaration => do
    match ← attempt (run .unguarded) with
    | .ok s => return some s
    | .error d =>
      keep d
      run .synchronize
      return none
  | .synchronize => do
    let _ ← advance
    run .resume
  | .resume => do
    if ← atEnd then return ()
    else if (← previous).kind = .punct .semicolon then return ()
    else if Cursor.opensStatement (← peek).kind then return ()
    else
      let _ ← advance
      run .resume
  | .program => do
    if ← atEnd then return []
    match ← run .declaration with
    | some s => return s :: (← run .program)
    | none => run .program

/-- What a rule does with at most `depth` calls open in each other. With more there is no result. -/
def run {α : Type} : Nat → Rule α → Run α
  | 0, _ => fun _ => none
  | depth + 1, rule => step (run depth) rule

def wholeExpression (depth : Nat) : Run Expr := do
  let e ← run depth .expression
  if ← atEnd then return e else failHere .expectedEnd

inductive Call
  | parse
  | parseExpression
  | errors
  | takeErrors
  deriving DecidableEq

inductive Answer
  | program (statements : List Stmt)
  | expression (e : Option Expr)
  | errors (faults : List Diagnostic)

def Call.run (depth : Nat) (p : Parser) : Call → Option (Answer × Parser)
  | parse => do
    match ← Parser.run depth .program p with
    | (.ok ss, p) => return (.program ss, p)
    | (.error _, _) => none
  | parseExpression => do
    match ← wholeExpression depth p with
    | (.ok e, p) => return (.expression (some e), p)
    | (.error d, p) => return (.expression none, { p with faults := p.faults ++ [d] })
  | errors => some (.errors p.faults, p)
  | takeErrors => some (.errors p.faults, { p with faults := [] })

def behind (depth : Nat) (p : Parser) : List Call → Option Parser
  | [] => some p
  | call :: calls => do
    let (_, p) ← call.run depth p
    p.behind depth calls

end Parser

end Treewalk
