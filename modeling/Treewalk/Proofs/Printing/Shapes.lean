import Treewalk.Proofs.Printing.Terms

/-!
The terms that trees are printed as, and what of a tree is in them: all but the numbers of its
occurrences and the lines of its tokens.
-/

namespace Treewalk

abbrev Term.mark (p : Punctuator) : Term := .word p.spelling

abbrev Term.keyword (k : Keyword) : Term := .word k.spelling

mutual

def Expr.term : Expr → Term
  | .literal v => .word v.render
  | .group e => .list [.word "group", e.term]
  | .unary op e => .list [.word op.lexeme, e.term]
  | .binary l op r | .logical l op r => .list [.word op.lexeme, l.term, r.term]
  | .name ref => .word ref.token.lexeme
  | .assign ref v => .list [.mark .equal, .word ref.token.lexeme, v.term]
  | .call callee _ args => .list (.word "call" :: callee.term :: Expr.terms args)
  | .get o p => .list [.mark .dot, o.term, .word p.lexeme]
  | .set o p v => .list [.mark .equal, .list [.mark .dot, o.term, .word p.lexeme], v.term]
  | .receiver _ => .keyword .thisKw
  | .inherited _ m => .list [.keyword .superKw, .word m.lexeme]

def Expr.terms : List Expr → List Term
  | [] => []
  | e :: es => e.term :: Expr.terms es

end

def Expr.termsOption : Option Expr → List Term
  | none => []
  | some e => [e.term]

def Expr.termsSuperclass : Option Expr → List Term
  | none => []
  | some e => [.mark .less, e.term]

mutual

def Stmt.term : Stmt → Term
  | .expr e => .list [.mark .semicolon, e.term]
  | .print e => .list [.keyword .printKw, e.term]
  | .var x init => .list (.keyword .varKw :: .word x.lexeme :: Expr.termsOption init)
  | .block body => .list (.word "block" :: Stmt.terms body)
  | .ifThen c t => .list [.keyword .ifKw, c.term, t.term]
  | .ifElse c t e => .list [.keyword .ifKw, c.term, t.term, e.term]
  | .loop c body => .list [.keyword .whileKw, c.term, body.term]
  | .function decl => Stmt.termFunction (.keyword .funKw) decl
  | .ret _ v => .list (.keyword .returnKw :: Expr.termsOption v)
  | .classDecl x superclass methods =>
    .list (.keyword .classKw :: .word x.lexeme :: (Expr.termsSuperclass superclass ++
      Stmt.termsMethods methods))

def Stmt.terms : List Stmt → List Term
  | [] => []
  | s :: ss => s.term :: Stmt.terms ss

def Stmt.termFunction (head : Term) : FunctionDecl Stmt → Term
  | ⟨name, params, body⟩ =>
    .list (head :: .word name.lexeme :: .list ((params.map Token.lexeme).map .word) ::
      Stmt.terms body)

def Stmt.termsMethods : List (FunctionDecl Stmt) → List Term
  | [] => []
  | m :: ms => Stmt.termFunction (.word "method") m :: Stmt.termsMethods ms

end

open Term (text tail)
open Punctuator (spelling)

mutual

theorem Expr.text_term : (e : Expr) → e.term.text = e.render
  | .literal _ | .name _ | .receiver _ => by simp [term, render, text, Keyword.spelling]
  | .group e | .unary _ e => by simp [term, render, text, tail, text_term e]
  | .binary l _ r | .logical l _ r => by
    simp [term, render, text, tail, text_term l, text_term r, String.append_assoc]
  | .assign _ v => by
    simp [term, render, text, tail, spelling, text_term v, String.append_assoc]
  | .call callee _ args => by
    simp [term, render, text, tail, text_term callee, tail_terms args, String.append_assoc]
  | .get o _ => by simp [term, render, text, tail, spelling, text_term o, String.append_assoc]
  | .set o _ v => by
    simp [term, render, text, tail, spelling, text_term o, text_term v, String.append_assoc]
  | .inherited _ _ => by simp [term, render, text, tail, Keyword.spelling]

theorem Expr.tail_terms : (es : List Expr) → tail (Expr.terms es) = Expr.renderTail es
  | [] => by simp [terms, tail, renderTail]
  | e :: es => by simp [terms, tail, renderTail, text_term e, tail_terms es]

end

theorem Expr.tail_termsOption (e : Option Expr) :
    tail (Expr.termsOption e) = Expr.renderOption e := by
  cases e with
  | none => rfl
  | some e => simp [termsOption, tail, renderOption, e.text_term]

mutual

theorem Stmt.text_term : (s : Stmt) → s.term.text = s.render
  | .expr e => by simp [term, render, text, tail, spelling, e.text_term]
  | .print e => by simp [term, render, text, tail, Keyword.spelling, e.text_term]
  | .var _ init => by
    simp [term, render, text, tail, Keyword.spelling, Expr.tail_termsOption init]
  | .block body => by simp [term, render, text, tail_terms body]
  | .ifThen c t => by
    simp [term, render, text, tail, Keyword.spelling, c.text_term, text_term t,
      String.append_assoc]
  | .ifElse c t e => by
    simp [term, render, text, tail, Keyword.spelling, c.text_term, text_term t, text_term e,
      String.append_assoc]
  | .loop c body => by
    simp [term, render, text, tail, Keyword.spelling, c.text_term, text_term body,
      String.append_assoc]
  | .function decl => by rw [term, render, text_termFunction (.keyword .funKw) decl]; rfl
  | .ret _ v => by simp [term, render, text, Keyword.spelling, Expr.tail_termsOption v]
  | .classDecl _ none methods => by
    simp [term, render, text, tail, Keyword.spelling, Expr.termsSuperclass,
      tail_termsMethods methods]
  | .classDecl _ (some s) methods => by
    have hless (rest : String) : " < " ++ rest = " <" ++ (" " ++ rest) := by
      rw [← String.append_assoc]
      rfl
    simp [term, render, text, tail, Keyword.spelling, spelling, Expr.termsSuperclass, s.text_term,
      tail_termsMethods methods, String.append_assoc, hless]

theorem Stmt.tail_terms : (ss : List Stmt) → tail (Stmt.terms ss) = Stmt.renderTail ss
  | [] => by simp [terms, tail, renderTail]
  | s :: ss => by simp [terms, tail, renderTail, text_term s, tail_terms ss]

theorem Stmt.text_termFunction (head : Term) : (decl : FunctionDecl Stmt) →
    (Stmt.termFunction head decl).text = Stmt.renderFunction head.text decl
  | ⟨name, params, body⟩ => by
    have hopen (rest : String) : " (" ++ rest = " " ++ ("(" ++ rest) := by
      rw [← String.append_assoc]
      rfl
    simp only [termFunction, renderFunction, text, tail, Term.text_words, tail_terms body,
      String.append_assoc, hopen]

theorem Stmt.tail_termsMethods : (ms : List (FunctionDecl Stmt)) →
    tail (Stmt.termsMethods ms) = Stmt.renderMethods ms
  | [] => by simp [termsMethods, tail, renderMethods]
  | m :: ms => by
    simp [termsMethods, tail, renderMethods, text, text_termFunction (.word "method") m,
      tail_termsMethods ms]

end

theorem Stmt.map_text_terms (ss : List Stmt) : (Stmt.terms ss).map text = ss.map Stmt.render := by
  induction ss with
  | nil => rfl
  | cons s ss ih => rw [terms, List.map_cons, List.map_cons, s.text_term, ih]

def Token.unplaced (t : Token) : Token := { t with line := 0 }

def Ref.unplaced (ref : Ref) : Ref := ⟨0, ref.token.unplaced⟩

mutual

/-- The tree with every number and every line zero. -/
def Expr.unplaced : Expr → Expr
  | .literal v => .literal v
  | .group e => .group e.unplaced
  | .unary op e => .unary op.unplaced e.unplaced
  | .binary l op r => .binary l.unplaced op.unplaced r.unplaced
  | .logical l op r => .logical l.unplaced op.unplaced r.unplaced
  | .name ref => .name ref.unplaced
  | .assign ref v => .assign ref.unplaced v.unplaced
  | .call callee paren args => .call callee.unplaced paren.unplaced (Expr.unplacedAll args)
  | .get o p => .get o.unplaced p.unplaced
  | .set o p v => .set o.unplaced p.unplaced v.unplaced
  | .receiver ref => .receiver ref.unplaced
  | .inherited ref m => .inherited ref.unplaced m.unplaced

def Expr.unplacedAll : List Expr → List Expr
  | [] => []
  | e :: es => e.unplaced :: Expr.unplacedAll es

end

mutual

def Stmt.unplaced : Stmt → Stmt
  | .expr e => .expr e.unplaced
  | .print e => .print e.unplaced
  | .var x init => .var x.unplaced (init.map Expr.unplaced)
  | .block body => .block (Stmt.unplacedAll body)
  | .ifThen c t => .ifThen c.unplaced t.unplaced
  | .ifElse c t e => .ifElse c.unplaced t.unplaced e.unplaced
  | .loop c body => .loop c.unplaced body.unplaced
  | .function decl => .function (Stmt.unplacedFunction decl)
  | .ret keyword v => .ret keyword.unplaced (v.map Expr.unplaced)
  | .classDecl x superclass methods =>
    .classDecl x.unplaced (superclass.map Expr.unplaced) (Stmt.unplacedMethods methods)

def Stmt.unplacedAll : List Stmt → List Stmt
  | [] => []
  | s :: ss => s.unplaced :: Stmt.unplacedAll ss

def Stmt.unplacedFunction : FunctionDecl Stmt → FunctionDecl Stmt
  | ⟨name, params, body⟩ => ⟨name.unplaced, params.map Token.unplaced, Stmt.unplacedAll body⟩

def Stmt.unplacedMethods : List (FunctionDecl Stmt) → List (FunctionDecl Stmt)
  | [] => []
  | m :: ms => Stmt.unplacedFunction m :: Stmt.unplacedMethods ms

end

theorem Stmt.unplacedAll_eq_map (ss : List Stmt) : Stmt.unplacedAll ss = ss.map Stmt.unplaced := by
  induction ss with
  | nil => rfl
  | cons s ss ih => rw [unplacedAll, List.map_cons, ih]

mutual

def Expr.literals : Expr → List Literal
  | .literal v => [v]
  | .group e | .unary _ e | .get e _ | .assign _ e => e.literals
  | .binary l _ r | .logical l _ r | .set l _ r => l.literals ++ r.literals
  | .name _ | .receiver _ | .inherited _ _ => []
  | .call callee _ args => callee.literals ++ Expr.literalsAll args

def Expr.literalsAll : List Expr → List Literal
  | [] => []
  | e :: es => e.literals ++ Expr.literalsAll es

end

def Expr.literalsOption : Option Expr → List Literal
  | none => []
  | some e => e.literals

mutual

def Stmt.literals : Stmt → List Literal
  | .expr e | .print e => e.literals
  | .var _ init => Expr.literalsOption init
  | .block body => Stmt.literalsAll body
  | .ifThen c t => c.literals ++ t.literals
  | .ifElse c t e => c.literals ++ (t.literals ++ e.literals)
  | .loop c body => c.literals ++ body.literals
  | .function decl => Stmt.literalsFunction decl
  | .ret _ v => Expr.literalsOption v
  | .classDecl _ superclass methods =>
    Expr.literalsOption superclass ++ Stmt.literalsMethods methods

def Stmt.literalsAll : List Stmt → List Literal
  | [] => []
  | s :: ss => s.literals ++ Stmt.literalsAll ss

def Stmt.literalsFunction : FunctionDecl Stmt → List Literal
  | ⟨_, _, body⟩ => Stmt.literalsAll body

def Stmt.literalsMethods : List (FunctionDecl Stmt) → List Literal
  | [] => []
  | m :: ms => Stmt.literalsFunction m ++ Stmt.literalsMethods ms

end

/-- A literal that is no string, and finite if it is a number. -/
def Literal.isPlain : Literal → Bool
  | .nil | .bool _ => true
  | .number x => x.isFinite
  | .string _ => false

end Treewalk
