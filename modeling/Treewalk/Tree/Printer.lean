import Treewalk.Tree

namespace Treewalk

def Literal.render : Literal → String
  | nil => "nil"
  | bool true => "true"
  | bool false => "false"
  | number x => Number.literal x
  | string s => s

/-- A head and what follows it, where every part of the tail brings the blank before it. -/
def parenthesize (head tail : String) : String := "(" ++ head ++ tail ++ ")"

mutual

def Expr.render : Expr → String
  | .literal v => v.render
  | .group e => parenthesize "group" (" " ++ e.render)
  | .unary op e => parenthesize op.lexeme (" " ++ e.render)
  | .binary l op r => parenthesize op.lexeme (" " ++ l.render ++ " " ++ r.render)
  | .logical l op r => parenthesize op.lexeme (" " ++ l.render ++ " " ++ r.render)
  | .name ref => ref.token.lexeme
  | .assign ref v => parenthesize "=" (" " ++ ref.token.lexeme ++ " " ++ v.render)
  | .call callee _ args => parenthesize "call" (" " ++ callee.render ++ Expr.renderTail args)
  | .get o p => parenthesize "." (" " ++ o.render ++ " " ++ p.lexeme)
  | .set o p v =>
    parenthesize "=" (" " ++ parenthesize "." (" " ++ o.render ++ " " ++ p.lexeme) ++ " " ++ v.render)
  | .receiver _ => "this"
  | .inherited _ m => parenthesize "super" (" " ++ m.lexeme)

def Expr.renderTail : List Expr → String
  | [] => ""
  | e :: es => " " ++ e.render ++ Expr.renderTail es

end

def Expr.renderOption : Option Expr → String
  | none => ""
  | some e => " " ++ e.render

mutual

def Stmt.render : Stmt → String
  | .expr e => parenthesize ";" (" " ++ e.render)
  | .print e => parenthesize "print" (" " ++ e.render)
  | .var x init => parenthesize "var" (" " ++ x.lexeme ++ Expr.renderOption init)
  | .block body => parenthesize "block" (Stmt.renderTail body)
  | .ifThen c t => parenthesize "if" (" " ++ c.render ++ " " ++ t.render)
  | .ifElse c t e => parenthesize "if" (" " ++ c.render ++ " " ++ t.render ++ " " ++ e.render)
  | .loop c body => parenthesize "while" (" " ++ c.render ++ " " ++ body.render)
  | .function decl => Stmt.renderFunction "fun" decl
  | .ret _ v => parenthesize "return" (Expr.renderOption v)
  | .classDecl x none methods => parenthesize "class" (" " ++ x.lexeme ++ Stmt.renderMethods methods)
  | .classDecl x (some s) methods =>
    parenthesize "class" (" " ++ x.lexeme ++ " < " ++ s.render ++ Stmt.renderMethods methods)

def Stmt.renderTail : List Stmt → String
  | [] => ""
  | s :: ss => " " ++ s.render ++ Stmt.renderTail ss

def Stmt.renderFunction (head : String) : FunctionDecl Stmt → String
  | ⟨name, params, body⟩ =>
    parenthesize head (" " ++ name.lexeme ++ " (" ++ " ".intercalate (params.map Token.lexeme) ++ ")"
      ++ Stmt.renderTail body)

def Stmt.renderMethods : List (FunctionDecl Stmt) → String
  | [] => ""
  | m :: ms => " " ++ Stmt.renderFunction "method" m ++ Stmt.renderMethods ms

end

end Treewalk
