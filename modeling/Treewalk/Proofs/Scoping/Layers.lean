import Treewalk.Proofs.Scoping.History

namespace Treewalk

open Scopes

def Scopes.Plain (scope : StaticScope) : Prop :=
  scope.get? "this" = none ∧ scope.get? "super" = none

/-- The open scopes around a statement. Those of a class lie right around its methods. -/
inductive Layered : ClassContext → List StaticScope → List Opener → Prop
  | globals : Layered .outside [] []
  | block : Plain scope → Layered cls scopes os → Layered cls (scope :: scopes) (.block body :: os)
  | frame : Plain scope → Layered cls scopes os → Layered cls (scope :: scopes) (.frame decl :: os)
  | base : Plain scope → decl ∈ methods → Layered cls scopes os →
      Layered .base (scope :: thisScope :: scopes) (.frame decl :: .receiver methods :: os)
  | derived : Plain scope → decl ∈ methods → Layered cls scopes os →
      Layered .derived (scope :: thisScope :: superScope :: scopes)
        (.frame decl :: .receiver methods :: .superclass methods :: os)

inductive Classed (methods : List (FunctionDecl Stmt)) :
    ClassContext → List StaticScope → List Opener → Prop
  | base : Layered cls scopes os →
      Classed methods .base (thisScope :: scopes) (.receiver methods :: os)
  | derived : Layered cls scopes os → Classed methods .derived (thisScope :: superScope :: scopes)
      (.receiver methods :: .superclass methods :: os)

namespace Scopes

variable {scope : StaticScope}

theorem plain_empty : Plain .empty := ⟨rfl, rfl⟩

theorem Plain.insert (h : Plain scope) {t : Token} (ht : t.IsName) (ready : Bool) :
    Plain (scope.insert t.lexeme ready) := by
  simp [Plain, ht.ne_this, ht.ne_super, h.1, h.2]

theorem plain_parameterScope {params : List Token} (h : ∀ p ∈ params, p.IsName) :
    Plain (parameterScope params) := by
  suffices hs : ∀ scope, Plain scope →
      Plain (params.foldl (fun scope p => scope.insert p.lexeme true) scope) from hs .empty plain_empty
  induction params with
  | nil => exact fun _ hs => hs
  | cons p params ih =>
    obtain ⟨hp, hps⟩ := List.forall_mem_cons.mp h
    exact fun scope hs => ih hps _ (hs.insert hp true)

end Scopes

namespace Layered

variable {cls : ClassContext} {scopes : List StaticScope} {os : List Opener}

theorem length (h : Layered cls scopes os) : scopes.length = os.length := by
  induction h <;> simp [*]

theorem of_eq (h : Layered cls scopes os) (hs : scopes' = scopes) : Layered cls scopes' os :=
  hs ▸ h

theorem head (h : Layered cls (scope :: scopes) os) (hs : Plain scope → Plain scope') :
    Layered cls (scope' :: scopes) os := by
  cases h with
  | block hp h => exact .block (hs hp) h
  | frame hp h => exact .frame (hs hp) h
  | base hp hm h => exact .base (hs hp) hm h
  | derived hp hm h => exact .derived (hs hp) hm h

theorem define (h : Layered cls scopes os) {t : Token} (ht : t.IsName) :
    Layered cls (Scopes.define t.lexeme scopes) os := by
  cases scopes with
  | nil => exact h
  | cons scope scopes => exact h.head fun hp => hp.insert ht true

theorem declare (h : Layered cls scopes os) {t : Token} (ht : t.IsName) :
    Layered cls (Scopes.declare t.lexeme scopes) os := by
  cases scopes with
  | nil => exact h
  | cons scope scopes =>
    rw [Scopes.declare]
    split
    · exact h
    · exact h.head fun hp => hp.insert ht false

theorem after (h : Layered cls scopes os) {s : Stmt} (hs : s.Proper) :
    Layered cls (s.scopesAfter scopes) os := by
  unfold Stmt.scopesAfter
  split
  · next t ht => exact h.define (hs.isName_declared t ht)
  · exact h

end Layered

theorem Classed.method (h : Classed methods cls scopes os) (hp : Plain scope)
    (hd : decl ∈ methods) : Layered cls (scope :: scopes) (.frame decl :: os) := by
  cases h with
  | base h => exact .base hp hd h
  | derived h => exact .derived hp hd h

def Visit.Regular (v : Visit) : Prop :=
  match v.subject with
  | .expr e => (∃ ref, e = .name ref) ∨ Layered v.context.cls v.state.scopes v.openers
  | .exprs _ => Layered v.context.cls v.state.scopes v.openers
  | .stmt s => s.Proper ∧ Layered v.context.cls v.state.scopes v.openers
  | .stmts ss => Stmt.ProperAll ss ∧ Layered v.context.cls v.state.scopes v.openers
  | .function decl => Stmt.ProperFunction decl ∧
      (Layered v.context.cls v.state.scopes v.openers ∨
        ∃ methods, decl ∈ methods ∧ Classed methods v.context.cls v.state.scopes v.openers)
  | .methods decls => Stmt.ProperMethods decls ∧
      ∃ methods, decls ⊆ methods ∧ Classed methods v.context.cls v.state.scopes v.openers

def Visit.outcome (v : Visit) : Resolution :=
  match v.subject with
  | .expr e => e.resolve v.context.cls v.state
  | .exprs es => Expr.resolveAll v.context.cls es v.state
  | .stmt s => s.resolve v.context v.state
  | .stmts ss => Stmt.resolveAll v.context ss v.state
  | .function decl => Stmt.resolveFunction v.context decl v.state
  | .methods decls => Stmt.resolveMethods v.context.cls decls v.state

theorem SeenExpr.layered {seen : Visit → Prop} {scopes : List StaticScope} {os : List Opener}
    (h : SeenExpr seen e scopes os) (he : ∀ ref, e ≠ .name ref)
    (hreg : ∀ v, seen v → v.Regular ∧ v.outcome.faults = []) :
    ∃ (ctx : Context) (r : Resolution), seen ⟨ctx, .expr e, r, os⟩ ∧ r.scopes = scopes ∧
      Layered ctx.cls scopes os ∧ (e.resolve ctx.cls r).faults = [] := by
  obtain ⟨⟨ctx, _, r, _⟩, hv, rfl, rfl, rfl⟩ := h.plain he
  obtain ⟨⟨ref, hname⟩ | hl, hfaults⟩ := hreg _ hv
  · exact absurd hname (he ref)
  · exact ⟨ctx, r, hv, rfl, hl, hfaults⟩

theorem Visit.Regular.part {ctx : Context} {e e' : Expr} {r r' : Resolution} {os : List Opener}
    (hv : Visit.Regular ⟨ctx, .expr e, r, os⟩) (he : ∀ ref, e ≠ .name ref)
    (hr : r'.scopes = r.scopes) : Visit.Regular ⟨ctx, .expr e', r', os⟩ := by
  obtain ⟨ref, rfl⟩ | hl := hv
  · exact absurd rfl (he ref)
  · exact .inr (hl.of_eq hr)

theorem Resolves.regular (h : Resolves v w) (hv : v.Regular) : w.Regular := by
  cases h with
  | group | unary | binaryLeft | logicalLeft | assign | callee | get | setValue =>
    exact hv.part (by simp) rfl
  | binaryRight | logicalRight | setObject =>
    exact hv.part (by simp) (Expr.extends_resolve _ _ _).2
  | arguments =>
    obtain ⟨_, heq⟩ | hl := hv
    · cases heq
    · exact hl.of_eq (Expr.extends_resolve _ _ _).2
  | head => exact .inr hv
  | tail => exact hv.of_eq (Expr.extends_resolve _ _ _).2
  | expr | print | ifThenCondition | ifElseCondition | loopCondition => exact .inr hv.2
  | var => exact .inr ((hv.2.declare hv.1.1).of_eq (Resolution.scopes_declare _ _))
  | block => exact ⟨hv.1, .block plain_empty hv.2⟩
  | ifThenBranch | loopBody => exact ⟨hv.1.2.1, hv.2.of_eq (Expr.extends_resolve _ _ _).2⟩
  | ifElseThen => exact ⟨hv.1.2.1.1, hv.2.of_eq (Expr.extends_resolve _ _ _).2⟩
  | @ifElseElse ctx c t e r =>
    refine ⟨hv.1.2.2.1, hv.2.of_eq ?_⟩
    rw [t.scopes_resolve ctx hv.1.2.1.1, Stmt.scopesAfter_of_none hv.1.2.1.2,
      (c.extends_resolve ctx.cls r).2]
  | @function ctx decl r =>
    have hn : decl.name.IsName := by
      obtain ⟨hp, -⟩ := hv
      cases decl
      exact hp.1
    exact ⟨hv.1, .inl ((hv.2.define hn).of_eq (Resolution.scopes_introduce _ r))⟩
  | ret => exact .inr (hv.2.of_eq (Resolution.scopes_useReturn _ _ _ _))
  | @baseMethods ctx name ms r =>
    refine ⟨hv.1.2.2.2, ms, List.Subset.refl ms, .base ((hv.2.define hv.1.1).of_eq ?_)⟩
    exact Resolution.scopes_introduce name r
  | superclass => exact .inl (hv.1.2.2.1 _ rfl)
  | @derivedMethods ctx name e ms r =>
    refine ⟨hv.1.2.2.2, ms, List.Subset.refl ms, .derived ((hv.2.define hv.1.1).of_eq ?_)⟩
    rw [(e.extends_resolve .derived _).2, Resolution.scopes_checkSuperclass,
      Resolution.scopes_introduce]
  | first => exact ⟨hv.1.1, hv.2⟩
  | @rest ctx s ss r =>
    exact ⟨hv.1.2, (hv.2.after hv.1.1).of_eq (s.scopes_resolve ctx hv.1.1 r)⟩
  | @body ctx decl r =>
    obtain ⟨hp, hl⟩ := hv
    cases decl with | mk name params body
    have hplain := plain_parameterScope hp.2.1
    have hscopes := Resolution.scopes_introduceAll params (r.inside .empty) .empty r.scopes rfl
    refine ⟨hp.2.2, ?_⟩
    obtain hl | ⟨methods, hd, hc⟩ := hl
    · exact (hl.frame hplain).of_eq hscopes
    · exact (hc.method hplain hd).of_eq hscopes
  | method =>
    obtain ⟨hp, methods, hsub, hc⟩ := hv
    exact ⟨hp.1, .inr ⟨methods, hsub List.mem_cons_self, hc⟩⟩
  | @otherMethods ctx decl ms r =>
    obtain ⟨hp, methods, hsub, hc⟩ := hv
    refine ⟨hp.2, methods, fun d hd => hsub (List.mem_cons_of_mem decl hd), ?_⟩
    show Classed _ _ (Resolution.scopes _) _
    rw [Stmt.scopes_resolveFunction]
    exact hc

theorem Resolves.faults (h : Resolves v w) : w.outcome.faults <+: v.outcome.faults := by
  cases h with
  | group | unary | get | expr | print | binaryRight | logicalRight | arguments | setObject | tail |
    block | ifThenBranch | ifElseElse | loopBody | function | ret | baseMethods | derivedMethods |
    rest | otherMethods => exact List.prefix_rfl
  | @body _ decl =>
    cases decl
    exact List.prefix_rfl
  | @binaryLeft ctx _ _ e | @logicalLeft ctx _ _ e => exact (e.extends_resolve ctx.cls _).1.faults
  | @setValue ctx o => exact (o.extends_resolve ctx.cls _).1.faults
  | assign => exact (Resolution.extends_bind _ _).faults
  | @callee ctx _ _ args | @head ctx _ args => exact (Expr.extends_resolveAll ctx.cls args _).1.faults
  | var => exact (Resolution.extends_define _ _).faults
  | @ifThenCondition ctx _ t | @loopCondition ctx _ t => exact (t.extends_resolve ctx _).faults
  | @ifElseCondition ctx _ t e =>
    exact ((t.extends_resolve ctx _).trans (e.extends_resolve ctx _)).faults
  | @ifElseThen ctx _ _ e => exact (e.extends_resolve ctx _).faults
  | @superclass ctx _ _ ms =>
    exact (Resolution.Extends.within (.within (Stmt.extends_resolveMethods .derived ms _))).faults
  | @first ctx _ ss => exact (Stmt.extends_resolveAll ctx ss _).faults
  | @method ctx _ ms => exact (Stmt.extends_resolveMethods ctx.cls ms _).faults

section History

variable {points : Point → Prop} {seen : Visit → Prop} {s : Session}

theorem Visits.regular (h : Visits s source v) : v.Regular ∧ v.outcome.faults = [] := by
  induction h with
  | start ha =>
    obtain ⟨-, hproper, -⟩ := Session.formed_parse ha.parsed
    exact ⟨⟨hproper, .globals⟩, ha.resolved⟩
  | step _ hr ih => exact ⟨hr.regular ih.1, List.prefix_nil.mp (ih.2 ▸ hr.faults)⟩

theorem History.regular (h : History s points seen) (hv : seen v) :
    v.Regular ∧ v.outcome.faults = [] := by
  induction h with
  | new => exact hv.elim
  | native _ _ ih => exact ih hv
  | unit _ _ _ ih => exact hv.elim ih Visits.regular

end History

def Opener.Plain : Opener → Prop
  | .block _ | .frame _ => True
  | .receiver _ | .superclass _ => False

def Opener.methods? : Opener → Option (List (FunctionDecl Stmt))
  | .receiver methods => some methods
  | _ => none

def Visit.classMethods? (v : Visit) : Option (List (FunctionDecl Stmt)) :=
  v.openers.findSome? Opener.methods?

structure Layer (cls : ClassContext) (scopes : List StaticScope) (os : List Opener) (k : Nat)
    (decl : FunctionDecl Stmt) (methods : List (FunctionDecl Stmt)) : Prop where
  plain : ∀ i ≤ k, ∀ o, os[i]? = some o → o.Plain
  frame : os[k]? = some (.frame decl)
  receiver : os[k + 1]? = some (.receiver methods)
  mem : decl ∈ methods
  this : distance scopes "this" = some (k + 1)
  superclass : cls = .derived → os[k + 2]? = some (.superclass methods)
  super : cls = .derived → distance scopes "super" = some (k + 2)

theorem Layer.push (h : Layer cls scopes os k decl methods) (hs : Plain scope) {o : Opener}
    (ho : o.Plain) : Layer cls (scope :: scopes) (o :: os) (k + 1) decl methods := by
  refine ⟨fun i hi o' ho' => ?_, h.frame, h.receiver, h.mem, ?_, h.superclass, fun hc => ?_⟩
  · cases i with
    | zero =>
      cases ho'
      exact ho
    | succ i => exact h.plain i (Nat.le_of_succ_le_succ hi) o' ho'
  · simp [distance_cons, Bindings.contains, hs.1, h.this]
  · simp [distance_cons, Bindings.contains, hs.2, h.super hc]

theorem Layered.layer (h : Layered cls scopes os) (hc : cls ≠ .outside) :
    ∃ k decl methods, Layer cls scopes os k decl methods := by
  induction h with
  | globals => exact absurd rfl hc
  | block hp _ ih | frame hp _ ih =>
    obtain ⟨k, decl, methods, hl⟩ := ih hc
    exact ⟨k + 1, decl, methods, hl.push hp trivial⟩
  | @base scope methods decl _ _ _ hp hd _ =>
    refine ⟨0, decl, methods, fun i hi o ho => ?_, rfl, rfl, hd, ?_, by simp, by simp⟩
    · obtain rfl := Nat.le_zero.mp hi
      cases ho
      trivial
    · simp [distance_cons, Bindings.contains, hp.1, thisScope]
  | @derived scope methods decl _ _ _ hp hd _ =>
    refine ⟨0, decl, methods, fun i hi o ho => ?_, rfl, rfl, hd, ?_, fun _ => rfl, fun _ => ?_⟩
    · obtain rfl := Nat.le_zero.mp hi
      cases ho
      trivial
    · simp [distance_cons, Bindings.contains, hp.1, thisScope]
    · simp [distance_cons, Bindings.contains, hp.2, thisScope, superScope]

theorem findSome?_methods? {os : List Opener} {n : Nat}
    (hp : ∀ i < n, ∀ o, os[i]? = some o → o.Plain) (hr : os[n]? = some (.receiver methods)) :
    os.findSome? Opener.methods? = some methods := by
  induction os generalizing n with
  | nil => cases hr
  | cons o os ih =>
    cases n with
    | zero =>
      cases hr
      rfl
    | succ n =>
      have ho := hp 0 (Nat.succ_pos n) o rfl
      have hrest := ih (fun i hi => hp (i + 1) (Nat.succ_lt_succ hi)) hr
      cases o with
      | block | frame => exact hrest
      | receiver | superclass => exact ho.elim

theorem Layer.methods? (h : Layer cls scopes os k decl methods) :
    os.findSome? Opener.methods? = some methods :=
  findSome?_methods? (fun i hi => h.plain i (Nat.le_of_lt_succ hi)) h.receiver

theorem Layered.plain_head (h : Layered cls scopes (o :: os)) : o.Plain := by
  cases h <;> trivial

end Treewalk
