import Treewalk.Token

namespace Treewalk

inductive Literal
  | nil
  | bool (value : Bool)
  | number (value : Float)
  | string (text : String)
  deriving DecidableEq

/-- A numbered occurrence of a name. -/
structure Ref where
  id : Nat
  token : Token
  deriving DecidableEq

inductive Expr
  | literal (value : Literal)
  | group (inner : Expr)
  | unary (operator : Token) (operand : Expr)
  | binary (left : Expr) (operator : Token) (right : Expr)
  | logical (left : Expr) (operator : Token) (right : Expr)
  | name (ref : Ref)
  | assign (ref : Ref) (value : Expr)
  | call (callee : Expr) (paren : Token) (arguments : List Expr)
  | get (object : Expr) (property : Token)
  | set (object : Expr) (property : Token) (value : Expr)
  | receiver (ref : Ref)
  | inherited (ref : Ref) (method : Token)

structure FunctionDecl (σ : Type) where
  name : Token
  params : List Token
  body : List σ

inductive Stmt
  | expr (e : Expr)
  | print (e : Expr)
  | var (name : Token) (init : Option Expr)
  | block (body : List Stmt)
  | ifThen (condition : Expr) (thenBranch : Stmt)
  | ifElse (condition : Expr) (thenBranch elseBranch : Stmt)
  | loop (condition : Expr) (body : Stmt)
  | function (decl : FunctionDecl Stmt)
  | ret (keyword : Token) (value : Option Expr)
  | classDecl (name : Token) (superclass : Option Expr) (methods : List (FunctionDecl Stmt))

namespace Stmt

def branch (condition : Expr) (thenBranch : Stmt) : Option Stmt → Stmt
  | none => ifThen condition thenBranch
  | some elseBranch => ifElse condition thenBranch elseBranch

/-- A counting loop as a plain one: the step follows the body in a block of their own, and the start
opens a block around the loop. -/
def counting (start : Option Stmt) (condition step : Option Expr) (body : Stmt) : Stmt :=
  let body := match step with
    | none => body
    | some e => block [body, expr e]
  let main := loop (condition.getD (.literal (.bool true))) body
  match start with
  | none => main
  | some s => block [s, main]

end Stmt

end Treewalk
