import Treewalk.Grammar.Cursor

namespace Treewalk

namespace Parse

section Rules

variable (fuel : Nat) (nested : Parse Expr)

def primary : Parse Expr := do
  match (← peek).kind with
  | .keyword .falseKw => let _ ← take; return .literal (.bool false)
  | .keyword .trueKw => let _ ← take; return .literal (.bool true)
  | .keyword .nilKw => let _ ← take; return .literal .nil
  | .number x => let _ ← take; return .literal (.number x)
  | .string s => let _ ← take; return .literal (.string s)
  | .identifier => return .name (← number (← take))
  | .keyword .thisKw => return .receiver (← number (← take))
  | .keyword .superKw => do
    let keyword ← take
    let _ ← expectMark .dot "after 'super'"
    let method ← expectName "superclass method"
    return .inherited (← number keyword) method
  | .punct .leftParen => do
    let _ ← take
    let inner ← nested
    let _ ← expectMark .rightParen "after expression"
    return .group inner
  | _ => failHere .expectedExpression

def arguments : Nat → Nat → Parse (List Expr)
  | 0, _ => exhausted
  | fuel + 1, count => do
    if maxArity ≤ count then report (.tooMany "arguments") (← peek)
    let e ← nested
    match ← accept (.punct .comma) with
    | some _ => return e :: (← arguments fuel (count + 1))
    | none => return [e]

def callTail (callee : Expr) : Parse Expr := do
  let args ← if ← check (.punct .rightParen) then pure [] else arguments nested fuel 0
  let paren ← expectMark .rightParen "after arguments"
  return .call callee paren args

def suffixes : Nat → Expr → Parse Expr
  | 0, _ => exhausted
  | n + 1, e => do
    match ← accept (.punct .leftParen) with
    | some _ => suffixes n (← callTail fuel nested e)
    | none =>
      match ← accept (.punct .dot) with
      | some _ => suffixes n (.get e (← expect .identifier .expectedProperty))
      | none => return e

def call : Parse Expr := do suffixes fuel nested fuel (← primary nested)

def unaryOperators : Nat → Parse (List Token)
  | 0 => exhausted
  | n + 1 => do
    match ← acceptIf (· ∈ [.punct .bang, .punct .minus]) with
    | some op => return op :: (← unaryOperators n)
    | none => return []

def unary : Parse Expr := do
  let ops ← unaryOperators fuel
  return ops.foldr .unary (← call fuel nested)

def operands (ops : List TokenKind) (node : Expr → Token → Expr → Expr) (operand : Parse Expr) :
    Nat → Expr → Parse Expr
  | 0, _ => exhausted
  | n + 1, left => do
    match ← acceptIf (· ∈ ops) with
    | some op => operands ops node operand n (node left op (← operand))
    | none => return left

/-- Operands between operators of one level, which associate to the left. -/
def leftAssoc (ops : List TokenKind) (node : Expr → Token → Expr → Expr) (operand : Parse Expr) :
    Parse Expr := do
  operands ops node operand fuel (← operand)

def factor : Parse Expr :=
  leftAssoc fuel [.punct .star, .punct .slash] .binary (unary fuel nested)

def term : Parse Expr :=
  leftAssoc fuel [.punct .minus, .punct .plus] .binary (factor fuel nested)

def comparison : Parse Expr :=
  leftAssoc fuel [.punct .greater, .punct .greaterEqual, .punct .less, .punct .lessEqual] .binary
    (term fuel nested)

def equality : Parse Expr :=
  leftAssoc fuel [.punct .bangEqual, .punct .equalEqual] .binary (comparison fuel nested)

def conjunction : Parse Expr :=
  leftAssoc fuel [.keyword .andKw] .logical (equality fuel nested)

def disjunction : Parse Expr :=
  leftAssoc fuel [.keyword .orKw] .logical (conjunction fuel nested)

/-- What an assignment to `target` is. Any other expression stays as it is, with a fault. -/
def assignTo (target : Expr) (equals : Token) (value : Expr) : Parse Expr :=
  match target with
  | .name ref => return .assign (← number ref.token) value
  | .get object property => return .set object property value
  | other => do
    report .invalidTarget equals
    return other

def assignment : Parse Expr := do
  let target ← disjunction fuel nested
  match ← accept (.punct .equal) with
  | some equals => assignTo target equals (← nested)
  | none => return target

end Rules

def expression : Nat → Cursor → EStateM.Result Halt Cursor Expr
  | 0, c => exhausted c
  | fuel + 1, c => assignment (fuel + 1) (expression fuel) c

end Parse

namespace Cursor

def fuel (c : Cursor) : Nat := c.rest.length + 1

def expression (c : Cursor) : Option Expr × Cursor :=
  let whole : Parse Expr := do
    let e ← Parse.expression c.fuel
    if ← Parse.atEnd then return e else Parse.failHere .expectedEnd
  match whole c with
  | .ok e c => (some e, c)
  | .error (.fault d) c => (none, c.report d)
  | .error .exhausted c => (none, c)

end Cursor

end Treewalk
