import Treewalk.Proofs.Scoping.Binding

/-!
Renaming of one local variable. A renaming picks a scope by its place in the tree. Where that scope
declares the old name as a variable or a parameter, the declaration and the occurrences that are
bound to it take the new name, and all else stays as it is.
-/

namespace Treewalk

/-- The variable `old` of one scope is called `new`. -/
structure Renaming where
  old : String
  new : String
  old_isName : Keyword.ofWord? old = none
  new_isName : Keyword.ofWord? new = none
  /-- The place of a block or a function in the tree, innermost step first. -/
  target : List Nat

def Stmt.isVariable (name : String) : Stmt → Bool
  | .var t _ => t.lexeme = name
  | _ => false

namespace Renaming

variable (ρ : Renaming)

def word (marked : Bool) (name : String) : String :=
  if marked ∧ name = ρ.old then ρ.new else name

def token (marked : Bool) (t : Token) : Token := { t with lexeme := ρ.word marked t.lexeme }

/-- Whether a block or a function at a place is the scope that is renamed, and has the variable. -/
def isTarget (path : List Nat) (params : List Token) (body : List Stmt) : Bool :=
  path = ρ.target && (params.any (·.lexeme = ρ.old) || body.any (·.isVariable ρ.old))

/-- Whether an occurrence is bound in the scope that is renamed. The marks are those of the scopes
around it, innermost first; the global level has none. -/
def isBound (D : Distances) (marks : List Bool) (ref : Ref) : Bool :=
  D[ref.id]?.elim false (marks.getD · false)

def ref (D : Distances) (marks : List Bool) (ref : Ref) : Ref :=
  { ref with token := ρ.token (isBound D marks ref) ref.token }

end Renaming

section Rename

variable (ρ : Renaming) (D : Distances)

mutual

def Expr.rename (marks : List Bool) : Expr → Expr
  | .literal v => .literal v
  | .group e => .group (e.rename marks)
  | .unary op e => .unary op (e.rename marks)
  | .binary l op r => .binary (l.rename marks) op (r.rename marks)
  | .logical l op r => .logical (l.rename marks) op (r.rename marks)
  | .name ref => .name (ρ.ref D marks ref)
  | .assign ref e => .assign (ρ.ref D marks ref) (e.rename marks)
  | .call callee paren args => .call (callee.rename marks) paren (Expr.renameAll marks args)
  | .get o property => .get (o.rename marks) property
  | .set o property e => .set (o.rename marks) property (e.rename marks)
  | .receiver ref => .receiver ref
  | .inherited ref method => .inherited ref method

def Expr.renameAll (marks : List Bool) : List Expr → List Expr
  | [] => []
  | e :: es => e.rename marks :: Expr.renameAll marks es

end

mutual

def Stmt.rename (path : List Nat) (marks : List Bool) : Stmt → Stmt
  | .expr e => .expr (e.rename ρ D marks)
  | .print e => .print (e.rename ρ D marks)
  | .var name init =>
    .var (ρ.token (marks.headD false) name) (init.map (Expr.rename ρ D marks))
  | .block body => .block (Stmt.renameAll path 0 (ρ.isTarget path [] body :: marks) body)
  | .ifThen c t => .ifThen (c.rename ρ D marks) (t.rename (0 :: path) marks)
  | .ifElse c t e =>
    .ifElse (c.rename ρ D marks) (t.rename (0 :: path) marks) (e.rename (1 :: path) marks)
  | .loop c body => .loop (c.rename ρ D marks) (body.rename (0 :: path) marks)
  | .function decl => .function (Stmt.renameFunction path marks decl)
  | .ret keyword value => .ret keyword (value.map (Expr.rename ρ D marks))
  | .classDecl name none methods =>
    .classDecl name none (Stmt.renameMethods path 0 (false :: marks) methods)
  | .classDecl name (some e) methods =>
    .classDecl name (some (e.rename ρ D marks))
      (Stmt.renameMethods path 0 (false :: false :: marks) methods)

def Stmt.renameAll (path : List Nat) (i : Nat) (marks : List Bool) : List Stmt → List Stmt
  | [] => []
  | s :: ss => s.rename (i :: path) marks :: Stmt.renameAll path (i + 1) marks ss

def Stmt.renameFunction (path : List Nat) (marks : List Bool) :
    FunctionDecl Stmt → FunctionDecl Stmt
  | ⟨name, params, body⟩ =>
    ⟨name, params.map (ρ.token (ρ.isTarget path params body)),
      Stmt.renameAll path 0 (ρ.isTarget path params body :: marks) body⟩

def Stmt.renameMethods (path : List Nat) (i : Nat) (marks : List Bool) :
    List (FunctionDecl Stmt) → List (FunctionDecl Stmt)
  | [] => []
  | m :: ms => Stmt.renameFunction (i :: path) marks m :: Stmt.renameMethods path (i + 1) marks ms

end

end Rename

mutual

def Expr.names : Expr → List String
  | .literal _ | .receiver _ | .inherited _ _ => []
  | .group e | .unary _ e | .get e _ => e.names
  | .binary l _ r | .logical l _ r | .set l _ r => l.names ++ r.names
  | .name ref => [ref.token.lexeme]
  | .assign ref e => ref.token.lexeme :: e.names
  | .call callee _ args => callee.names ++ Expr.namesAll args

def Expr.namesAll : List Expr → List String
  | [] => []
  | e :: es => e.names ++ Expr.namesAll es

end

def Expr.namesOption : Option Expr → List String
  | none => []
  | some e => e.names

mutual

def Stmt.names : Stmt → List String
  | .expr e | .print e => e.names
  | .var name init => name.lexeme :: Expr.namesOption init
  | .block body => Stmt.namesAll body
  | .ifThen c t | .loop c t => c.names ++ t.names
  | .ifElse c t e => c.names ++ (t.names ++ e.names)
  | .function decl => decl.name.lexeme :: Stmt.namesFunction decl
  | .ret _ value => Expr.namesOption value
  | .classDecl name superclass methods =>
    name.lexeme :: (Expr.namesOption superclass ++ Stmt.namesMethods methods)

def Stmt.namesAll : List Stmt → List String
  | [] => []
  | s :: ss => s.names ++ Stmt.namesAll ss

def Stmt.namesFunction : FunctionDecl Stmt → List String
  | ⟨_, params, body⟩ => params.map Token.lexeme ++ Stmt.namesAll body

def Stmt.namesMethods : List (FunctionDecl Stmt) → List String
  | [] => []
  | m :: ms => Stmt.namesFunction m ++ Stmt.namesMethods ms

end

namespace Renaming

variable {ρ : Renaming} {marked other : Bool} {name k : String}

@[simp] theorem word_false (ρ : Renaming) (name : String) : ρ.word false name = name := by
  simp [word]

theorem word_of_ne (marked : Bool) (h : name ≠ ρ.old) : ρ.word marked name = name := by
  simp [word, h]

theorem word_inj (hn : name ≠ ρ.new) (hk : k ≠ ρ.new) :
    ρ.word marked name = ρ.word marked k ↔ name = k := by
  refine ⟨fun h => ?_, fun h => h ▸ rfl⟩
  unfold word at h
  split at h
  · next h₁ =>
    split at h
    · next h₂ => exact h₁.2.trans h₂.2.symm
    · exact absurd h.symm hk
  · split at h
    · exact absurd h hn
    · exact h

theorem word_keyword (ρ : Renaming) (marked : Bool) (k : Keyword) :
    ρ.word marked k.spelling = k.spelling := by
  refine word_of_ne marked fun h => ?_
  have hold := ρ.old_isName
  rw [← h, Keyword.ofWord?_spelling] at hold
  cases hold

theorem keyword_ne_new (ρ : Renaming) (k : Keyword) : k.spelling ≠ ρ.new := by
  intro h
  have hnew := ρ.new_isName
  rw [← h, Keyword.ofWord?_spelling] at hnew
  cases hnew

def Alike (ρ : Renaming) (marked : Bool) (b b' : Bindings α) : Prop :=
  ∀ name, name ≠ ρ.new → b'.get? (ρ.word marked name) = b.get? name

namespace Alike

variable {b b' : Bindings α}

theorem empty (ρ : Renaming) (marked : Bool) : ρ.Alike marked (.empty : Bindings α) .empty :=
  fun _ _ => rfl

theorem insert (h : ρ.Alike marked b b') (hk : k ≠ ρ.new) (a : α) :
    ρ.Alike marked (b.insert k a) (b'.insert (ρ.word marked k) a) := by
  intro name hn
  rw [Bindings.get?_insert, Bindings.get?_insert, h name hn]
  simp only [word_inj hk hn]

theorem contains (h : ρ.Alike marked b b') (hn : name ≠ ρ.new) :
    b'.contains (ρ.word marked name) = b.contains name := by
  rw [Bindings.contains, h name hn, Bindings.contains]

end Alike

end Renaming

end Treewalk
