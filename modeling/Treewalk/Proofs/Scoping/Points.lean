import Treewalk.Session

namespace Treewalk

open Run

inductive Code
  | expr (e : Expr)
  | exprs (es : List Expr)
  | apply (f : Value) (paren : Token) (args : List Value)
  | invoke (f : Closure) (args : List Value)
  | stmt (s : Stmt)
  | stmts (ss : List Stmt)
  | rounds (condition : Expr) (body : Stmt)

structure Point where
  fuel : Nat
  code : Code
  machine : Machine

def Machine.inside (m : Machine) (parent : ScopeId) (bindings : Bindings Value) : Machine :=
  { m with
    heap := (m.heap.addChild parent bindings).2
    current := (m.heap.addChild parent bindings).1 }

/-- What the run of a point runs next inside itself. -/
inductive Calls : Point → Point → Prop
  | group : Calls ⟨n + 1, .expr (.group e), m⟩ ⟨n, .expr e, m⟩
  | unary : Calls ⟨n + 1, .expr (.unary op e), m⟩ ⟨n, .expr e, m⟩
  | binaryLeft : Calls ⟨n + 1, .expr (.binary l op r), m⟩ ⟨n, .expr l, m⟩
  | binaryRight : evaluate n l m = .ok a m₁ →
      Calls ⟨n + 1, .expr (.binary l op r), m⟩ ⟨n, .expr r, m₁⟩
  | logicalLeft : Calls ⟨n + 1, .expr (.logical l op r), m⟩ ⟨n, .expr l, m⟩
  | logicalRight : evaluate n l m = .ok a m₁ → decides op a = false →
      Calls ⟨n + 1, .expr (.logical l op r), m⟩ ⟨n, .expr r, m₁⟩
  | assign : Calls ⟨n + 1, .expr (.assign ref e), m⟩ ⟨n, .expr e, m⟩
  | callee : Calls ⟨n + 1, .expr (.call callee paren args), m⟩ ⟨n, .expr callee, m⟩
  | arguments : evaluate n callee m = .ok f m₁ →
      Calls ⟨n + 1, .expr (.call callee paren args), m⟩ ⟨n, .exprs args, m₁⟩
  | apply : evaluate n callee m = .ok f m₁ → evaluateAll n args m₁ = .ok vs m₂ →
      Calls ⟨n + 1, .expr (.call callee paren args), m⟩ ⟨n, .apply f paren vs, m₂⟩
  | get : Calls ⟨n + 1, .expr (.get o name), m⟩ ⟨n, .expr o, m⟩
  | setObject : Calls ⟨n + 1, .expr (.set o name e), m⟩ ⟨n, .expr o, m⟩
  | setValue : evaluate n o m = .ok (.object object) m₁ →
      Calls ⟨n + 1, .expr (.set o name e), m⟩ ⟨n, .expr e, m₁⟩
  | head : Calls ⟨n + 1, .exprs (e :: es), m⟩ ⟨n, .expr e, m⟩
  | tail : evaluate n e m = .ok v m₁ → Calls ⟨n + 1, .exprs (e :: es), m⟩ ⟨n, .exprs es, m₁⟩
  | function {fn : FunctionId} : m.heap.functions[fn.index]? = some f → f.arity = args.length →
      Calls ⟨n + 1, .apply (.function fn) paren args, m⟩ ⟨n, .invoke f args, m⟩
  | initializer : m.heap.method? cls initializerName = some f → f.arity = args.length →
      (do bindMethod f (.object (← newObject cls))) m = .ok bound m₁ →
      Calls ⟨n + 1, .apply (.cls cls) paren args, m⟩ ⟨n, .invoke bound args, m₁⟩
  | body : Calls ⟨n + 1, .invoke f args, m⟩ ⟨n, .stmts f.decl.body,
      m.inside f.scope (.ofList ((f.decl.params.map Token.lexeme).zip args))⟩
  | expr : Calls ⟨n + 1, .stmt (.expr e), m⟩ ⟨n, .expr e, m⟩
  | print : Calls ⟨n + 1, .stmt (.print e), m⟩ ⟨n, .expr e, m⟩
  | var : Calls ⟨n + 1, .stmt (.var name (some e)), m⟩ ⟨n, .expr e, m⟩
  | block : Calls ⟨n + 1, .stmt (.block body), m⟩ ⟨n, .stmts body, m.inside m.current .empty⟩
  | ifThenCondition : Calls ⟨n + 1, .stmt (.ifThen c t), m⟩ ⟨n, .expr c, m⟩
  | ifThenBranch : evaluate n c m = .ok v m₁ → v.isTruthy = true →
      Calls ⟨n + 1, .stmt (.ifThen c t), m⟩ ⟨n, .stmt t, m₁⟩
  | ifElseCondition : Calls ⟨n + 1, .stmt (.ifElse c t e), m⟩ ⟨n, .expr c, m⟩
  | ifElseThen : evaluate n c m = .ok v m₁ → v.isTruthy = true →
      Calls ⟨n + 1, .stmt (.ifElse c t e), m⟩ ⟨n, .stmt t, m₁⟩
  | ifElseElse : evaluate n c m = .ok v m₁ → v.isTruthy = false →
      Calls ⟨n + 1, .stmt (.ifElse c t e), m⟩ ⟨n, .stmt e, m₁⟩
  | loop : Calls ⟨n + 1, .stmt (.loop c body), m⟩ ⟨n, .rounds c body, m⟩
  | ret : Calls ⟨n + 1, .stmt (.ret keyword (some e)), m⟩ ⟨n, .expr e, m⟩
  | superclass : Calls ⟨n + 1, .stmt (.classDecl name (some e) methods), m⟩ ⟨n, .expr e, m⟩
  | first : Calls ⟨n + 1, .stmts (s :: ss), m⟩ ⟨n, .stmt s, m⟩
  | rest : execute n s m = .ok .normal m₁ → Calls ⟨n + 1, .stmts (s :: ss), m⟩ ⟨n, .stmts ss, m₁⟩
  | condition : Calls ⟨n + 1, .rounds c body, m⟩ ⟨n, .expr c, m⟩
  | round : evaluate n c m = .ok v m₁ → v.isTruthy = true →
      Calls ⟨n + 1, .rounds c body, m⟩ ⟨n, .stmt body, m₁⟩
  | again : evaluate n c m = .ok v m₁ → v.isTruthy = true → execute n body m₁ = .ok .normal m₂ →
      Calls ⟨n + 1, .rounds c body, m⟩ ⟨n, .rounds c body, m₂⟩

/-- A construct that opens a scope: a block, a call, a receiver around a method of a class, or the
superclass around all of them. -/
inductive Opener
  | block (body : List Stmt)
  | frame (decl : FunctionDecl Stmt)
  | receiver (methods : List (FunctionDecl Stmt))
  | superclass (methods : List (FunctionDecl Stmt))

def Heap.nextScope (h : Heap) : ScopeId := ⟨h.scopes.size⟩

/-- The run of a point makes a scope for a construct. -/
inductive Opens : Point → ScopeId → Opener → Prop
  | block : Opens ⟨n + 1, .stmt (.block body), m⟩ m.heap.nextScope (.block body)
  | frame : Opens ⟨n + 1, .invoke f args, m⟩ m.heap.nextScope (.frame f.decl)
  | superclass : evaluate n e m = .ok (.cls parent) m₁ →
      Opens ⟨n + 1, .stmt (.classDecl name (some e) methods), m⟩ m₁.heap.nextScope
        (.superclass methods)
  | method {obj : Object} : evaluate n o m = .ok (.object object) m₁ →
      m₁.heap.objects[object.index]? = some obj → obj.fields.get? name.lexeme = none →
      m₁.heap.method? obj.cls name.lexeme = some f → f.decl ∈ methods →
      Opens ⟨n + 1, .expr (.get o name), m⟩ m₁.heap.nextScope (.receiver methods)
  | inherited : m.distances[ref.id]? = some (d + 1) →
      m.heap.lookupAt? m.current (d + 1) "super" = some (.cls parent) →
      m.heap.lookupAt? m.current d "this" = some receiver →
      m.heap.method? parent name.lexeme = some f → f.decl ∈ methods →
      Opens ⟨n + 1, .expr (.inherited ref name), m⟩ m.heap.nextScope (.receiver methods)
  | initializer : m.heap.method? cls initializerName = some f → f.arity = args.length →
      f.decl ∈ methods →
      Opens ⟨n + 1, .apply (.cls cls) paren args, m⟩ m.heap.nextScope (.receiver methods)

inductive Subject
  | expr (e : Expr)
  | exprs (es : List Expr)
  | stmt (s : Stmt)
  | stmts (ss : List Stmt)
  | function (decl : FunctionDecl Stmt)
  | methods (decls : List (FunctionDecl Stmt))

structure Visit where
  context : Context
  subject : Subject
  state : Resolution
  openers : List Opener

def Resolution.inside (r : Resolution) (scope : StaticScope) : Resolution :=
  { r with scopes := scope :: r.scopes }

/-- What the resolution of a visit resolves inside itself. -/
inductive Resolves : Visit → Visit → Prop
  | group : Resolves ⟨ctx, .expr (.group e), r, os⟩ ⟨ctx, .expr e, r, os⟩
  | unary : Resolves ⟨ctx, .expr (.unary op e), r, os⟩ ⟨ctx, .expr e, r, os⟩
  | binaryLeft : Resolves ⟨ctx, .expr (.binary l op e), r, os⟩ ⟨ctx, .expr l, r, os⟩
  | binaryRight :
      Resolves ⟨ctx, .expr (.binary l op e), r, os⟩ ⟨ctx, .expr e, l.resolve ctx.cls r, os⟩
  | logicalLeft : Resolves ⟨ctx, .expr (.logical l op e), r, os⟩ ⟨ctx, .expr l, r, os⟩
  | logicalRight :
      Resolves ⟨ctx, .expr (.logical l op e), r, os⟩ ⟨ctx, .expr e, l.resolve ctx.cls r, os⟩
  | assign : Resolves ⟨ctx, .expr (.assign ref e), r, os⟩ ⟨ctx, .expr e, r, os⟩
  | callee : Resolves ⟨ctx, .expr (.call callee paren args), r, os⟩ ⟨ctx, .expr callee, r, os⟩
  | arguments : Resolves ⟨ctx, .expr (.call callee paren args), r, os⟩
      ⟨ctx, .exprs args, callee.resolve ctx.cls r, os⟩
  | get : Resolves ⟨ctx, .expr (.get o name), r, os⟩ ⟨ctx, .expr o, r, os⟩
  | setValue : Resolves ⟨ctx, .expr (.set o name e), r, os⟩ ⟨ctx, .expr e, r, os⟩
  | setObject :
      Resolves ⟨ctx, .expr (.set o name e), r, os⟩ ⟨ctx, .expr o, e.resolve ctx.cls r, os⟩
  | head : Resolves ⟨ctx, .exprs (e :: es), r, os⟩ ⟨ctx, .expr e, r, os⟩
  | tail : Resolves ⟨ctx, .exprs (e :: es), r, os⟩ ⟨ctx, .exprs es, e.resolve ctx.cls r, os⟩
  | expr : Resolves ⟨ctx, .stmt (.expr e), r, os⟩ ⟨ctx, .expr e, r, os⟩
  | print : Resolves ⟨ctx, .stmt (.print e), r, os⟩ ⟨ctx, .expr e, r, os⟩
  | var : Resolves ⟨ctx, .stmt (.var name (some e)), r, os⟩ ⟨ctx, .expr e, r.declare name, os⟩
  | block : Resolves ⟨ctx, .stmt (.block body), r, os⟩
      ⟨ctx, .stmts body, r.inside .empty, .block body :: os⟩
  | ifThenCondition : Resolves ⟨ctx, .stmt (.ifThen c t), r, os⟩ ⟨ctx, .expr c, r, os⟩
  | ifThenBranch :
      Resolves ⟨ctx, .stmt (.ifThen c t), r, os⟩ ⟨ctx, .stmt t, c.resolve ctx.cls r, os⟩
  | ifElseCondition : Resolves ⟨ctx, .stmt (.ifElse c t e), r, os⟩ ⟨ctx, .expr c, r, os⟩
  | ifElseThen :
      Resolves ⟨ctx, .stmt (.ifElse c t e), r, os⟩ ⟨ctx, .stmt t, c.resolve ctx.cls r, os⟩
  | ifElseElse : Resolves ⟨ctx, .stmt (.ifElse c t e), r, os⟩
      ⟨ctx, .stmt e, t.resolve ctx (c.resolve ctx.cls r), os⟩
  | loopCondition : Resolves ⟨ctx, .stmt (.loop c body), r, os⟩ ⟨ctx, .expr c, r, os⟩
  | loopBody :
      Resolves ⟨ctx, .stmt (.loop c body), r, os⟩ ⟨ctx, .stmt body, c.resolve ctx.cls r, os⟩
  | function : Resolves ⟨ctx, .stmt (.function decl), r, os⟩
      ⟨{ ctx with function := .function }, .function decl, r.introduce decl.name, os⟩
  | ret : Resolves ⟨ctx, .stmt (.ret keyword (some e)), r, os⟩
      ⟨ctx, .expr e, r.useReturn ctx.function keyword true, os⟩
  | baseMethods : Resolves ⟨ctx, .stmt (.classDecl name none ms), r, os⟩
      ⟨⟨.method, .base⟩, .methods ms, (r.introduce name).inside thisScope, .receiver ms :: os⟩
  | superclass : Resolves ⟨ctx, .stmt (.classDecl name (some e) ms), r, os⟩
      ⟨{ ctx with cls := .derived }, .expr e, (r.introduce name).checkSuperclass name e, os⟩
  | derivedMethods : Resolves ⟨ctx, .stmt (.classDecl name (some e) ms), r, os⟩
      ⟨⟨.method, .derived⟩, .methods ms,
        ((e.resolve .derived ((r.introduce name).checkSuperclass name e)).inside superScope).inside
          thisScope, .receiver ms :: .superclass ms :: os⟩
  | first : Resolves ⟨ctx, .stmts (s :: ss), r, os⟩ ⟨ctx, .stmt s, r, os⟩
  | rest : Resolves ⟨ctx, .stmts (s :: ss), r, os⟩ ⟨ctx, .stmts ss, s.resolve ctx r, os⟩
  | body : Resolves ⟨ctx, .function decl, r, os⟩
      ⟨ctx, .stmts decl.body, decl.params.foldl (fun r p => r.introduce p) (r.inside .empty),
        .frame decl :: os⟩
  | method : Resolves ⟨ctx, .methods (decl :: ms), r, os⟩
      ⟨⟨if decl.name.lexeme = initializerName then .initializer else .method, ctx.cls⟩,
        .function decl, r, os⟩
  | otherMethods : Resolves ⟨ctx, .methods (decl :: ms), r, os⟩
      ⟨ctx, .methods ms, Stmt.resolveFunction
        ⟨if decl.name.lexeme = initializerName then .initializer else .method, ctx.cls⟩ decl r, os⟩

end Treewalk
