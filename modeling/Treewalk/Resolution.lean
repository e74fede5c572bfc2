import Std.Data.TreeMap
import Treewalk.Bindings
import Treewalk.Diagnostic
import Treewalk.Tree

/-!
Resolution: for every numbered occurrence of a name, how many scopes out its binding is. The global
level is no scope, and an occurrence without a distance is global. Misuse of scopes, functions and
classes is reported on the way and never stops the walk.
-/

namespace Treewalk

/-- How many scopes out the binding of an occurrence is, by its number. -/
abbrev Distances := Std.TreeMap Nat Nat

inductive FunctionContext
  | outside | function | method | initializer
  deriving DecidableEq

inductive ClassContext
  | outside | base | derived
  deriving DecidableEq

structure Context where
  function : FunctionContext
  cls : ClassContext

/-- Names of one scope, and whether they may be read yet. -/
abbrev StaticScope := Bindings Bool

/-- The open scopes, innermost first, and what has been found. -/
structure Resolution where
  scopes : List StaticScope
  distances : Distances
  faults : List Diagnostic

namespace Resolution

def report (fault : ResolutionFault) (token : Token) (r : Resolution) : Resolution :=
  { r with faults := r.faults ++ [.resolution fault token] }

def declare (name : Token) (r : Resolution) : Resolution :=
  match r.scopes with
  | [] => r
  | scope :: outer =>
    if scope.contains name.lexeme then r.report .redeclared name
    else { r with scopes := scope.insert name.lexeme false :: outer }

def define (name : Token) (r : Resolution) : Resolution :=
  match r.scopes with
  | [] => r
  | scope :: outer => { r with scopes := scope.insert name.lexeme true :: outer }

def introduce (name : Token) (r : Resolution) : Resolution := (r.declare name).define name

/-- Records the distance to the innermost scope that has the name. -/
def bind (ref : Ref) (r : Resolution) : Resolution :=
  match r.scopes.findIdx? (·.contains ref.token.lexeme) with
  | none => r
  | some d => { r with distances := r.distances.insert ref.id d }

/-- Whether the innermost scope has the name, but not yet for reading. -/
def isUnready (name : Token) (r : Resolution) : Bool :=
  match r.scopes with
  | [] => false
  | scope :: _ => scope.get? name.lexeme == some false

def within (scope : StaticScope) (body : Resolution → Resolution) (r : Resolution) : Resolution :=
  { body { r with scopes := scope :: r.scopes } with scopes := r.scopes }

@[simp] theorem scopes_within (scope : StaticScope) (body : Resolution → Resolution)
    (r : Resolution) : (r.within scope body).scopes = r.scopes := rfl

@[simp] theorem scopes_report (fault : ResolutionFault) (token : Token) (r : Resolution) :
    (r.report fault token).scopes = r.scopes := rfl

@[simp] theorem scopes_bind (ref : Ref) (r : Resolution) : (r.bind ref).scopes = r.scopes := by
  unfold bind
  split <;> rfl

def readName (ref : Ref) (r : Resolution) : Resolution :=
  (if r.isUnready ref.token then r.report .readInInitializer ref.token else r).bind ref

def useThis (cls : ClassContext) (ref : Ref) (r : Resolution) : Resolution :=
  match cls with
  | .outside => r.report .thisOutsideClass ref.token
  | .base | .derived => r.bind ref

def useSuper (cls : ClassContext) (ref : Ref) (r : Resolution) : Resolution :=
  match cls with
  | .outside => (r.report .superOutsideClass ref.token).bind ref
  | .base => (r.report .superWithoutSuperclass ref.token).bind ref
  | .derived => r.bind ref

def useReturn (kind : FunctionContext) (keyword : Token) (hasValue : Bool) (r : Resolution) :
    Resolution :=
  match kind with
  | .outside => r.report .returnOutsideFunction keyword
  | .initializer => if hasValue then r.report .valueFromInitializer keyword else r
  | .function | .method => r

def checkSuperclass (name : Token) (superclass : Expr) (r : Resolution) : Resolution :=
  match superclass with
  | .name ref => if ref.token.lexeme = name.lexeme then r.report .inheritsItself ref.token else r
  | _ => r

end Resolution

open Resolution

mutual

def Expr.resolve (cls : ClassContext) : Expr → Resolution → Resolution
  | .literal _, r => r
  | .group e, r => e.resolve cls r
  | .unary _ e, r => e.resolve cls r
  | .binary l _ e, r => e.resolve cls (l.resolve cls r)
  | .logical l _ e, r => e.resolve cls (l.resolve cls r)
  | .name ref, r => r.readName ref
  | .assign ref v, r => (v.resolve cls r).bind ref
  | .call callee _ args, r => Expr.resolveAll cls args (callee.resolve cls r)
  | .get o _, r => o.resolve cls r
  | .set o _ v, r => o.resolve cls (v.resolve cls r)
  | .receiver ref, r => r.useThis cls ref
  | .inherited ref _, r => r.useSuper cls ref

def Expr.resolveAll (cls : ClassContext) : List Expr → Resolution → Resolution
  | [], r => r
  | e :: es, r => Expr.resolveAll cls es (e.resolve cls r)

end

def Expr.resolveOption (cls : ClassContext) : Option Expr → Resolution → Resolution
  | none, r => r
  | some e, r => e.resolve cls r

def initializerName : String := "init"

def thisScope : StaticScope := Bindings.empty.insert "this" true

def superScope : StaticScope := Bindings.empty.insert "super" true

mutual

def Stmt.resolve (ctx : Context) : Stmt → Resolution → Resolution
  | .expr e, r => e.resolve ctx.cls r
  | .print e, r => e.resolve ctx.cls r
  | .var name init, r => (Expr.resolveOption ctx.cls init (r.declare name)).define name
  | .block body, r => r.within .empty (Stmt.resolveAll ctx body)
  | .ifThen c t, r => t.resolve ctx (c.resolve ctx.cls r)
  | .ifElse c t e, r => e.resolve ctx (t.resolve ctx (c.resolve ctx.cls r))
  | .loop c body, r => body.resolve ctx (c.resolve ctx.cls r)
  | .function decl, r =>
    Stmt.resolveFunction { ctx with function := .function } decl (r.introduce decl.name)
  | .ret keyword value, r =>
    Expr.resolveOption ctx.cls value (r.useReturn ctx.function keyword value.isSome)
  | .classDecl name none methods, r =>
    (r.introduce name).within thisScope (Stmt.resolveMethods .base methods)
  | .classDecl name (some superclass) methods, r =>
    (superclass.resolve .derived ((r.introduce name).checkSuperclass name superclass)).within
      superScope fun r => r.within thisScope (Stmt.resolveMethods .derived methods)

def Stmt.resolveAll (ctx : Context) : List Stmt → Resolution → Resolution
  | [], r => r
  | s :: ss, r => Stmt.resolveAll ctx ss (s.resolve ctx r)

/-- The parameters and the body share one scope. -/
def Stmt.resolveFunction (ctx : Context) : FunctionDecl Stmt → Resolution → Resolution
  | ⟨_, params, body⟩, r =>
    r.within .empty fun r => Stmt.resolveAll ctx body (params.foldl (fun r p => r.introduce p) r)

def Stmt.resolveMethods (cls : ClassContext) : List (FunctionDecl Stmt) → Resolution → Resolution
  | [], r => r
  | m :: ms, r =>
    let kind := if m.name.lexeme = initializerName then .initializer else .method
    Stmt.resolveMethods cls ms (Stmt.resolveFunction ⟨kind, cls⟩ m r)

end

/-- Statements of the global level, resolved on top of the distances known so far. -/
def resolve (stmts : List Stmt) (distances : Distances) : Resolution :=
  Stmt.resolveAll ⟨.outside, .outside⟩ stmts ⟨[], distances, []⟩

end Treewalk
