import Treewalk.Proofs.Running.Steps
import Treewalk.Proofs.Scoping.History
import Treewalk.Proofs.SideBySide.Parsing

namespace Treewalk

namespace Diagnostic

def isLexical : Diagnostic → Bool
  | lexical _ _ => true
  | _ => false

def isSyntactic : Diagnostic → Bool
  | syntactic _ _ => true
  | _ => false

def isResolution : Diagnostic → Bool
  | resolution _ _ => true
  | _ => false

end Diagnostic

def Outcome.flags (o : Outcome) : Bool × Bool × Bool := (o.isMalformed, o.isUnresolved, o.isFailed)

theorem Scanned.lexical_ofSource (source : String) :
    ∀ d ∈ (Scanned.ofSource source).faults, d.isLexical := by
  intro d hd
  obtain ⟨item, -, hitem⟩ := List.mem_filterMap.mp hd
  cases item with
  | token _ => cases hitem
  | fault _ _ =>
    cases hitem
    rfl

theorem Cursor.syntactic_program (tokens : List Token) (nextId : Nat) :
    ∀ d ∈ (Cursor.ofTokens tokens nextId).program.2.faults, d.isSyntactic := by
  have hself : (Cursor.ofTokens tokens nextId).Alike .exact (fun _ _ _ => True)
      (Cursor.ofTokens tokens nextId) :=
    ⟨List.forall₂_same.mpr fun _ _ => rfl, rfl, .nil, fun _ => ⟨none, trivial⟩⟩
  have hfaults := (Cursor.alike_program Wording.IsPlain.exact.toKeepsNames hself).2.faults
  intro d hd
  obtain ⟨i, hi, rfl⟩ := List.getElem_of_mem hd
  have h := hfaults.get hi hi
  rw [List.get_eq_getElem] at h
  generalize (Cursor.ofTokens tokens nextId).program.2.faults[i] = d at h ⊢
  cases h
  rfl

namespace Resolution

def Own (r : Resolution) : Prop := ∀ d ∈ r.faults, d.isResolution

variable {r : Resolution}

theorem Own.report (h : r.Own) (fault : ResolutionFault) (token : Token) :
    (r.report fault token).Own := by
  intro d hd
  obtain hd | hd := List.mem_append.mp hd
  · exact h d hd
  · rw [List.mem_singleton.mp hd]
    rfl

theorem Own.bind (h : r.Own) (ref : Ref) : (r.bind ref).Own := by
  unfold Resolution.bind
  split
  · exact h
  · exact h

theorem Own.declare (h : r.Own) (name : Token) : (r.declare name).Own := by
  unfold Resolution.declare
  split
  · exact h
  · split
    · exact h.report _ _
    · exact h

theorem Own.define (h : r.Own) (name : Token) : (r.define name).Own := by
  unfold Resolution.define
  split
  · exact h
  · exact h

theorem Own.within {body : Resolution → Resolution} (h : r.Own) (scope : StaticScope)
    (hb : ∀ r : Resolution, r.Own → (body r).Own) : (r.within scope body).Own :=
  hb { r with scopes := scope :: r.scopes } h

theorem Own.introduce (h : r.Own) (name : Token) : (r.introduce name).Own :=
  (h.declare name).define name

theorem Own.introduceAll (h : r.Own) (params : List Token) :
    (params.foldl (fun r p => r.introduce p) r).Own := by
  induction params generalizing r with
  | nil => exact h
  | cons p params ih => exact ih (h.introduce p)

theorem Own.readName (h : r.Own) (ref : Ref) : (r.readName ref).Own := by
  unfold Resolution.readName
  split
  · exact (h.report _ _).bind ref
  · exact h.bind ref

theorem Own.useThis (h : r.Own) (cls : ClassContext) (ref : Ref) : (r.useThis cls ref).Own := by
  cases cls with
  | outside => exact h.report _ _
  | base | derived => exact h.bind ref

theorem Own.useSuper (h : r.Own) (cls : ClassContext) (ref : Ref) : (r.useSuper cls ref).Own := by
  cases cls with
  | outside | base => exact (h.report _ _).bind ref
  | derived => exact h.bind ref

theorem Own.useReturn (h : r.Own) (kind : FunctionContext) (keyword : Token) (hasValue : Bool) :
    (r.useReturn kind keyword hasValue).Own := by
  unfold Resolution.useReturn
  split
  · exact h.report _ _
  · split
    · exact h.report _ _
    · exact h
  · exact h
  · exact h

theorem Own.checkSuperclass (h : r.Own) (name : Token) (e : Expr) :
    (r.checkSuperclass name e).Own := by
  unfold Resolution.checkSuperclass
  split
  · split
    · exact h.report _ _
    · exact h
  · exact h

end Resolution

open Resolution

mutual

theorem Expr.own_resolve (cls : ClassContext) : (e : Expr) → (r : Resolution) → r.Own →
    (e.resolve cls r).Own
  | .literal _, _, h => h
  | .group e, r, h | .unary _ e, r, h | .get e _, r, h => Expr.own_resolve cls e r h
  | .binary l _ e, r, h | .logical l _ e, r, h | .set e _ l, r, h =>
    Expr.own_resolve cls e (l.resolve cls r) (Expr.own_resolve cls l r h)
  | .name ref, _, h => h.readName ref
  | .assign ref v, r, h => (Expr.own_resolve cls v r h).bind ref
  | .call callee _ args, r, h =>
    Expr.own_resolveAll cls args (callee.resolve cls r) (Expr.own_resolve cls callee r h)
  | .receiver ref, _, h => h.useThis cls ref
  | .inherited ref _, _, h => h.useSuper cls ref

theorem Expr.own_resolveAll (cls : ClassContext) : (es : List Expr) → (r : Resolution) → r.Own →
    (Expr.resolveAll cls es r).Own
  | [], _, h => h
  | e :: es, r, h => Expr.own_resolveAll cls es (e.resolve cls r) (Expr.own_resolve cls e r h)

end

theorem Expr.own_resolveOption (cls : ClassContext) (e : Option Expr) {r : Resolution}
    (h : r.Own) : (Expr.resolveOption cls e r).Own := by
  cases e with
  | none => exact h
  | some e => exact e.own_resolve cls r h

mutual

theorem Stmt.own_resolve (ctx : Context) : (s : Stmt) → (r : Resolution) → r.Own →
    (s.resolve ctx r).Own
  | .expr e, r, h | .print e, r, h => e.own_resolve ctx.cls r h
  | .var name init, _, h => (Expr.own_resolveOption ctx.cls init (h.declare name)).define name
  | .block body, _, h => h.within .empty (Stmt.own_resolveAll ctx body)
  | .ifThen c t, r, h | .loop c t, r, h =>
    Stmt.own_resolve ctx t (c.resolve ctx.cls r) (c.own_resolve ctx.cls r h)
  | .ifElse c t e, r, h =>
    Stmt.own_resolve ctx e (t.resolve ctx (c.resolve ctx.cls r))
      (Stmt.own_resolve ctx t _ (c.own_resolve ctx.cls r h))
  | .function decl, _, h => Stmt.own_resolveFunction _ decl _ (h.introduce decl.name)
  | .ret keyword value, _, h => Expr.own_resolveOption ctx.cls value (h.useReturn _ keyword _)
  | .classDecl name none ms, _, h =>
    (h.introduce name).within thisScope (Stmt.own_resolveMethods .base ms)
  | .classDecl name (some e) ms, _, h =>
    (e.own_resolve .derived _ ((h.introduce name).checkSuperclass name e)).within superScope
      fun _ h => h.within thisScope (Stmt.own_resolveMethods .derived ms)

theorem Stmt.own_resolveAll (ctx : Context) : (ss : List Stmt) → (r : Resolution) → r.Own →
    (Stmt.resolveAll ctx ss r).Own
  | [], _, h => h
  | s :: ss, r, h => Stmt.own_resolveAll ctx ss (s.resolve ctx r) (Stmt.own_resolve ctx s r h)

theorem Stmt.own_resolveFunction (ctx : Context) : (decl : FunctionDecl Stmt) →
    (r : Resolution) → r.Own → (Stmt.resolveFunction ctx decl r).Own
  | ⟨_, params, body⟩, _, h =>
    h.within .empty fun _ h => Stmt.own_resolveAll ctx body _ (h.introduceAll params)

theorem Stmt.own_resolveMethods (cls : ClassContext) : (ms : List (FunctionDecl Stmt)) →
    (r : Resolution) → r.Own → (Stmt.resolveMethods cls ms r).Own
  | [], _, h => h
  | m :: ms, r, h => Stmt.own_resolveMethods cls ms _ (Stmt.own_resolveFunction _ m r h)

end

theorem own_resolve (stmts : List Stmt) (D : Distances) : (resolve stmts D).Own :=
  Stmt.own_resolveAll _ stmts _ fun _ hd => absurd hd List.not_mem_nil

namespace Run

variable {α : Type}

def Raises (x : Run α) : Prop := ∀ m d m', x m = .error (.fault d) m' → d.isRuntime

end Run

open Run

theorem raises_interpret (fuel : Nat) (ss : List Stmt) : Raises (interpret fuel ss) := by
  intro m d m' h
  obtain ⟨_, _, -, rfl⟩ | ⟨-, _, rfl⟩ := (evaluates_interpret fuel ss).faults h <;> rfl

namespace Session

variable {s : Session} {fuel : Nat} {source : String}

/-- A unit that ended before its execution: it would have ended so without a single step, and but
for the table of distances the machine is what it was. -/
structure Unexecuted (s : Session) (fuel : Nat) (source : String) : Prop where
  steps : s.runWith 0 source = s.runWith fuel source
  machine : ∃ D, (s.runWith fuel source).2.machine = { s.machine with distances := D }

theorem faults_parse (s : Session) (source : String) :
    ∃ lexical syntactic, (s.parse source).2.1 = lexical ++ syntactic ∧
      (∀ d ∈ lexical, d.isLexical) ∧ ∀ d ∈ syntactic, d.isSyntactic :=
  ⟨_, _, rfl, Scanned.lexical_ofSource source, Cursor.syntactic_program _ _⟩

/-- A unit succeeds, or it ends with the faults of one stage. Otherwise its execution has no end
within the given steps. -/
theorem runWith_channels (s : Session) (fuel : Nat) (source : String) :
    let o := (s.runWith fuel source).1
    (o.flags = (false, false, false) ∧ o.diagnostics = [] ∧ o.isSuccess ∧ o.exitCode = 0) ∨
    (o.flags = (true, false, false) ∧ o.diagnostics ≠ [] ∧
      (∃ lexical syntactic, o.diagnostics = lexical ++ syntactic ∧
        (∀ d ∈ lexical, d.isLexical) ∧ ∀ d ∈ syntactic, d.isSyntactic) ∧
      s.Unexecuted fuel source ∧ o.exitCode = 65) ∨
    (o.flags = (false, true, false) ∧ o.diagnostics ≠ [] ∧
      (∀ d ∈ o.diagnostics, d.isResolution) ∧ s.Unexecuted fuel source ∧ o.exitCode = 65) ∨
    (o.flags = (false, false, true) ∧ (∃ d, o.diagnostics = [d] ∧ d.isRuntime) ∧
      o.exitCode = 70) ∨
    (o = .unfinished ∧ s.Accepts source ∧ ∃ m,
      Treewalk.interpret fuel (s.parse source).1 (s.prepared source).machine =
        .error .exhausted m) := by
  intro o
  by_cases hp : (s.parse source).2.1 = []
  · by_cases hr : ((s.parse source).2.2.resolve (s.parse source).1).1 = []
    · have ho : o = .ofResult _ := congrArg Prod.fst (runWith_accepted ⟨hp, hr⟩)
      cases hi : Treewalk.interpret fuel (s.parse source).1 (s.prepared source).machine with
      | ok _ m =>
        rw [ho, hi]
        exact .inl ⟨rfl, rfl, rfl, rfl⟩
      | error halt m =>
        rw [ho, hi]
        cases halt with
        | fault d =>
          exact .inr (.inr (.inr (.inl ⟨rfl, ⟨d, rfl, raises_interpret _ _ _ _ _ hi⟩, rfl⟩)))
        | exhausted => exact .inr (.inr (.inr (.inr ⟨rfl, ⟨hp, hr⟩, m, rfl⟩)))
    · have ho : o = .unresolved _ := congrArg Prod.fst (runWith_unresolved hp hr)
      have hu : s.Unexecuted fuel source := by
        refine ⟨(runWith_unresolved hp hr).trans (runWith_unresolved hp hr).symm, ?_⟩
        rw [runWith_unresolved hp hr]
        exact ⟨_, rfl⟩
      rw [ho]
      exact .inr (.inr (.inl ⟨rfl, hr, own_resolve _ _, hu, rfl⟩))
  · have ho : o = .malformed _ := congrArg Prod.fst (runWith_malformed hp)
    have hu : s.Unexecuted fuel source := by
      refine ⟨(runWith_malformed hp).trans (runWith_malformed hp).symm, ?_⟩
      rw [runWith_malformed hp]
      exact ⟨_, rfl⟩
    rw [ho]
    exact .inr (.inl ⟨rfl, hp, s.faults_parse source, hu, rfl⟩)

end Session

end Treewalk
