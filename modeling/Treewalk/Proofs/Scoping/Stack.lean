import Treewalk.Proofs.Scoping.WellScoped

/-!
The walk of resolution on one record that is changed in place. Scopes are pushed on a stack and popped
again, and what encloses the code is saved on the way in and put back on the way out. This is the
same walk: nothing that is resolved in between disturbs the scopes further out.
-/

namespace Treewalk

open Resolution

/-- A resolution under way: the stack of open scopes, and what function and class are around. -/
structure Resolver extends Resolution where
  function : FunctionContext
  cls : ClassContext

namespace Resolver

def new (distances : Distances) : Resolver := ⟨⟨[], distances, []⟩, .outside, .outside⟩

def context (s : Resolver) : Context := ⟨s.function, s.cls⟩

def act (step : Resolution → Resolution) (s : Resolver) : Resolver :=
  { s with toResolution := step s.toResolution }

def beginScope (s : Resolver) : Resolver := { s with scopes := .empty :: s.scopes }

def endScope (s : Resolver) : Resolver := { s with scopes := s.scopes.tail }

def bindImplicit (name : String) (s : Resolver) : Resolver :=
  match s.scopes with
  | [] => s
  | scope :: outer => { s with scopes := scope.insert name true :: outer }

mutual

def expr (s : Resolver) : Expr → Resolver
  | .literal _ => s
  | .group e | .unary _ e | .get e _ => s.expr e
  | .binary l _ e | .logical l _ e => (s.expr l).expr e
  | .name ref => s.act (readName ref)
  | .assign ref v => (s.expr v).act (bind ref)
  | .call callee _ args => (s.expr callee).exprs args
  | .set o _ v => (s.expr v).expr o
  | .receiver ref => s.act (useThis s.cls ref)
  | .inherited ref _ => s.act (useSuper s.cls ref)

def exprs (s : Resolver) : List Expr → Resolver
  | [] => s
  | e :: es => (s.expr e).exprs es

end

def exprOption (s : Resolver) : Option Expr → Resolver
  | none => s
  | some e => s.expr e

mutual

def stmt (s : Resolver) : Stmt → Resolver
  | .expr e | .print e => s.expr e
  | .var name init => ((s.act (declare name)).exprOption init).act (define name)
  | .block body => (s.beginScope.stmts body).endScope
  | .ifThen c t | .loop c t => (s.expr c).stmt t
  | .ifElse c t e => ((s.expr c).stmt t).stmt e
  | .function decl => (s.act (introduce decl.name)).functionBody .function decl
  | .ret keyword value =>
    (s.act (useReturn s.function keyword value.isSome)).exprOption value
  | .classDecl name none members =>
    let enclosing := s.cls
    let s := { s with cls := .base }.act (introduce name)
    let s := ((s.beginScope.bindImplicit "this").methods members).endScope
    { s with cls := enclosing }
  | .classDecl name (some superclass) members =>
    let enclosing := s.cls
    let s := ({ s with cls := .base }.act (introduce name)).act (checkSuperclass name superclass)
    let s := { s with cls := .derived }.expr superclass
    let s := (s.beginScope.bindImplicit "super").beginScope.bindImplicit "this"
    let s := (s.methods members).endScope.endScope
    { s with cls := enclosing }

def stmts (s : Resolver) : List Stmt → Resolver
  | [] => s
  | t :: ts => (s.stmt t).stmts ts

def functionBody (s : Resolver) (kind : FunctionContext) : FunctionDecl Stmt → Resolver
  | ⟨_, params, body⟩ =>
    let enclosing := s.function
    let s := { s with function := kind }.beginScope
    let s := ((s.act fun r => params.foldl (fun r p => r.introduce p) r).stmts body).endScope
    { s with function := enclosing }

def methods (s : Resolver) : List (FunctionDecl Stmt) → Resolver
  | [] => s
  | m :: ms =>
    (s.functionBody (if m.name.lexeme = initializerName then .initializer else .method) m).methods ms

end

end Resolver

namespace Scopes

theorem tail_define (name : String) (scopes : List StaticScope) :
    (define name scopes).tail = scopes.tail := by
  cases scopes <;> rfl

theorem tail_defineAll (names : List String) (scopes : List StaticScope) :
    (defineAll names scopes).tail = scopes.tail := by
  induction names generalizing scopes with
  | nil => rfl
  | cons name names ih => exact (ih (define name scopes)).trans (tail_define name scopes)

end Scopes

theorem Stmt.tail_scopes_resolveAll (ctx : Context) (ss : List Stmt) (r : Resolution) :
    (Stmt.resolveAll ctx ss r).scopes.tail = r.scopes.tail := by
  induction ss generalizing r with
  | nil => rfl
  | cons s ss ih =>
    rw [Stmt.resolveAll, ih, s.scopes_resolve_declares, Scopes.tail_defineAll]

namespace Resolver

mutual

theorem expr_eq : (e : Expr) → (s : Resolver) → s.expr e = s.act (e.resolve s.cls)
  | .literal _, _ => rfl
  | .group e, s | .unary _ e, s | .get e _, s => expr_eq e s
  | .binary l _ e, s | .logical l _ e, s => by
    rw [expr, expr_eq l s, expr_eq e _]
    rfl
  | .set o _ v, s => by
    rw [expr, expr_eq v s, expr_eq o _]
    rfl
  | .name _, _ => rfl
  | .assign ref v, s => by
    rw [expr, expr_eq v s]
    rfl
  | .call callee _ args, s => by
    rw [expr, expr_eq callee s, exprs_eq args _]
    rfl
  | .receiver _, _ => rfl
  | .inherited _ _, _ => rfl

theorem exprs_eq : (es : List Expr) → (s : Resolver) → s.exprs es = s.act (Expr.resolveAll s.cls es)
  | [], _ => rfl
  | e :: es, s => by
    rw [exprs, expr_eq e s, exprs_eq es _]
    rfl

end

theorem exprOption_eq (e : Option Expr) (s : Resolver) :
    s.exprOption e = s.act (Expr.resolveOption s.cls e) := by
  cases e with
  | none => rfl
  | some e => exact expr_eq e s

theorem endScope_resolveAll (s : Resolver) (ctx : Context) (scope : StaticScope)
    (before : Resolution → Resolution) (hbefore : ∀ r, (before r).scopes.tail = r.scopes.tail)
    (body : List Stmt) :
    ({ s with scopes := scope :: s.scopes }.act fun r =>
        Stmt.resolveAll ctx body (before r)).endScope =
      s.act (Resolution.within scope fun r => Stmt.resolveAll ctx body (before r)) := by
  have htail : (Stmt.resolveAll ctx body (before { s.toResolution with
      scopes := scope :: s.scopes })).scopes.tail = s.scopes := by
    rw [Stmt.tail_scopes_resolveAll, hbefore]
    rfl
  simp only [endScope, act, Resolution.within, htail]

theorem endScope_resolveMethods (s : Resolver) (cls : ClassContext) (scope : StaticScope)
    (ms : List (FunctionDecl Stmt)) :
    ({ s with scopes := scope :: s.scopes }.act (Stmt.resolveMethods cls ms)).endScope =
      s.act (Resolution.within scope (Stmt.resolveMethods cls ms)) := by
  simp only [endScope, act, Resolution.within, Stmt.scopes_resolveMethods, List.tail_cons]

mutual

theorem stmt_eq : (t : Stmt) → (s : Resolver) → s.stmt t = s.act (t.resolve s.context)
  | .expr e, s | .print e, s => expr_eq e s
  | .var name init, s => by
    rw [stmt, exprOption_eq]
    rfl
  | .block body, s => by
    rw [stmt, stmts_eq body]
    exact endScope_resolveAll s s.context .empty id (fun _ => rfl) body
  | .ifThen c t, s | .loop c t, s => by
    rw [stmt, expr_eq c, stmt_eq t]
    rfl
  | .ifElse c t e, s => by
    rw [stmt, expr_eq c, stmt_eq t, stmt_eq e]
    rfl
  | .function decl, s => by
    rw [stmt, functionBody_eq]
    rfl
  | .ret keyword value, s => by
    rw [stmt, exprOption_eq]
    rfl
  | .classDecl name none members, s => by
    rw [stmt, methods_eq members]
    have hpop := endScope_resolveMethods ({ s with cls := .base }.act (introduce name)) .base
      thisScope members
    exact congrArg (fun t : Resolver => { t with cls := s.cls }) hpop
  | .classDecl name (some superclass) members, s => by
    rw [stmt, expr_eq superclass, methods_eq members]
    -- the scope of `super` is on the stack before that of `this`, and is popped after it
    let s' : Resolver :=
      { ({ s with cls := .base }.act (introduce name)).act (checkSuperclass name superclass) with
        cls := .derived }.act (superclass.resolve .derived)
    have hpop := endScope_resolveMethods { s' with scopes := superScope :: s'.scopes } .derived
      thisScope members
    exact congrArg (fun t : Resolver => { t.endScope with cls := s.cls }) hpop

theorem stmts_eq : (ts : List Stmt) → (s : Resolver) →
    s.stmts ts = s.act (Stmt.resolveAll s.context ts)
  | [], _ => rfl
  | t :: ts, s => by
    rw [stmts, stmt_eq t, stmts_eq ts]
    rfl

theorem functionBody_eq : (decl : FunctionDecl Stmt) → (s : Resolver) → (kind : FunctionContext) →
    s.functionBody kind decl = s.act (Stmt.resolveFunction ⟨kind, s.cls⟩ decl)
  | ⟨_, params, body⟩, s, kind => by
    rw [functionBody, stmts_eq body]
    have hparams (r : Resolution) :
        (params.foldl (fun r p => r.introduce p) r).scopes.tail = r.scopes.tail := by
      rw [scopes_introduceNames, Scopes.tail_defineAll]
    have hpop := endScope_resolveAll { s with function := kind } ⟨kind, s.cls⟩ .empty
      (fun r => params.foldl (fun r p => r.introduce p) r) hparams body
    exact congrArg (fun t : Resolver => { t with function := s.function }) hpop

theorem methods_eq : (ms : List (FunctionDecl Stmt)) → (s : Resolver) →
    s.methods ms = s.act (Stmt.resolveMethods s.cls ms)
  | [], _ => rfl
  | m :: ms, s => by
    rw [methods, functionBody_eq m, methods_eq ms]
    rfl

end

/-- A program is resolved alike, and at its end no scope is open and nothing is around. -/
theorem stmts_new (distances : Distances) (stmts : List Stmt) :
    (new distances).stmts stmts = ⟨resolve stmts distances, .outside, .outside⟩ := by
  rw [stmts_eq]
  rfl

end Resolver

end Treewalk
