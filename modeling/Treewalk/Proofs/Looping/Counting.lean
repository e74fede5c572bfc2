import Treewalk.Evaluation
import Treewalk.Proofs.Grammar.Completeness.Statement
import Treewalk.Proofs.Scoping.Shape

namespace Treewalk

def Ref.renumber (k : Nat) (ref : Ref) : Ref := { ref with id := ref.id + k }

mutual

def Expr.renumber (k : Nat) : Expr → Expr
  | .literal v => .literal v
  | .group e => .group (e.renumber k)
  | .unary op e => .unary op (e.renumber k)
  | .binary l op r => .binary (l.renumber k) op (r.renumber k)
  | .logical l op r => .logical (l.renumber k) op (r.renumber k)
  | .name ref => .name (ref.renumber k)
  | .assign ref e => .assign (ref.renumber k) (e.renumber k)
  | .call callee paren args => .call (callee.renumber k) paren (Expr.renumberAll k args)
  | .get o property => .get (o.renumber k) property
  | .set o property e => .set (o.renumber k) property (e.renumber k)
  | .receiver ref => .receiver (ref.renumber k)
  | .inherited ref method => .inherited (ref.renumber k) method

def Expr.renumberAll (k : Nat) : List Expr → List Expr
  | [] => []
  | e :: es => e.renumber k :: Expr.renumberAll k es

end

mutual

def Stmt.renumber (k : Nat) : Stmt → Stmt
  | .expr e => .expr (e.renumber k)
  | .print e => .print (e.renumber k)
  | .var name init => .var name (init.map (·.renumber k))
  | .block body => .block (Stmt.renumberAll k body)
  | .ifThen c t => .ifThen (c.renumber k) (t.renumber k)
  | .ifElse c t e => .ifElse (c.renumber k) (t.renumber k) (e.renumber k)
  | .loop c body => .loop (c.renumber k) (body.renumber k)
  | .function decl => .function (Stmt.renumberFunction k decl)
  | .ret keyword value => .ret keyword (value.map (·.renumber k))
  | .classDecl name superclass methods =>
    .classDecl name (superclass.map (·.renumber k)) (Stmt.renumberMethods k methods)

def Stmt.renumberAll (k : Nat) : List Stmt → List Stmt
  | [] => []
  | s :: ss => s.renumber k :: Stmt.renumberAll k ss

def Stmt.renumberFunction (k : Nat) : FunctionDecl Stmt → FunctionDecl Stmt
  | ⟨name, params, body⟩ => ⟨name, params, Stmt.renumberAll k body⟩

def Stmt.renumberMethods (k : Nat) : List (FunctionDecl Stmt) → List (FunctionDecl Stmt)
  | [] => []
  | m :: ms => Stmt.renumberFunction k m :: Stmt.renumberMethods k ms

end

@[simp] theorem Stmt.declared?_renumber (k : Nat) (s : Stmt) :
    (s.renumber k).declared? = s.declared? := by
  cases s with
  | function decl =>
    cases decl
    rfl
  | _ => rfl

namespace Run

/-- Body and step of one round, in the scope of the loop. Both get the fuel that the tree leaves them,
so that a loop runs out of it when its tree does. -/
def round (n : Nat) (step : Option Expr) (body : Stmt) : Run Completion :=
  match step with
  | none => execute n body
  | some e => do
    match ← execute (n - 2) body with
    | .normal => do
      let _ ← evaluate (n - 4) e
      return .normal
    | .returned v => return .returned v

def rounds : Nat → Expr → Option Expr → Stmt → Run Completion
  | 0, _, _, _ => exhausted
  | n + 1, test, step, body => do
    if (← evaluate n test).isTruthy then
      match ← round n step body with
      | .normal => rounds n test step body
      | .returned v => return .returned v
    else return .normal

end Run

/-- The parts of a counting loop. Its body is a statement and so declares nothing. -/
structure Counting where
  start : Option Stmt
  condition : Option Expr
  step : Option Expr
  body : Stmt
  plain : body.declared? = none

namespace Counting

def stmt (loop : Counting) : Stmt := .counting loop.start loop.condition loop.step loop.body

def test (loop : Counting) : Expr := loop.condition.getD (.literal (.bool true))

def renumber (k : Nat) (loop : Counting) : Counting where
  start := loop.start.map (·.renumber k)
  condition := loop.condition.map (·.renumber k)
  step := loop.step.map (·.renumber k)
  body := loop.body.renumber k
  plain := (Stmt.declared?_renumber k loop.body).trans loop.plain

def resolveRound (loop : Counting) (ctx : Context) (r : Resolution) : Resolution :=
  Expr.resolveOption ctx.cls loop.step (loop.body.resolve ctx (loop.test.resolve ctx.cls r))

/-- Resolves the loop without the block around body and step. -/
def resolve (loop : Counting) (ctx : Context) (r : Resolution) : Resolution :=
  match loop.start with
  | none => loop.resolveRound ctx r
  | some s => r.within .empty fun r => loop.resolveRound ctx (s.resolve ctx r)

open Run in
/-- Runs the loop without the block around body and step. -/
def run (loop : Counting) : Nat → Run Completion
  | 0 => exhausted
  | n + 1 =>
    match loop.start with
    | none => rounds n loop.test loop.step loop.body
    | some s => do
      within (← newScope (← current) .empty) do
        match ← execute (n - 1) s with
        | .normal => rounds (n - 3) loop.test loop.step loop.body
        | .returned v => return .returned v

end Counting

namespace Grammar

end Grammar

end Treewalk
