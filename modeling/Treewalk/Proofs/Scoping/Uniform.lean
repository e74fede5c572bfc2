import Mathlib.Logic.Function.Iterate
import Treewalk.Proofs.Scoping.WellScoped
import Treewalk.Proofs.Session.Joining

namespace Treewalk

/-- What comes to be open, recorded and reported depends on the open scopes alone. -/
def Uniform (step : Resolution → Resolution) : Prop :=
  ∀ scopes, ∃ after, ∃ found : List (Nat × Nat), ∃ faults, ∀ D earlier,
    step ⟨scopes, D, earlier⟩ = ⟨after, D.insertMany found, earlier ++ faults⟩

namespace Uniform

variable {f g : Resolution → Resolution}

theorem of_scopes (after : List StaticScope → List StaticScope)
    (h : ∀ r, f r = { r with scopes := after r.scopes }) : Uniform f :=
  fun scopes => ⟨after scopes, [], [], fun D earlier => by simp [h]⟩

theorem refl : Uniform fun r => r := of_scopes id fun _ => rfl

theorem comp (hg : Uniform g) (hf : Uniform f) : Uniform fun r => g (f r) := fun scopes => by
  obtain ⟨between, found, faults, hf⟩ := hf scopes
  obtain ⟨after, found', faults', hg⟩ := hg between
  refine ⟨after, found ++ found', faults ++ faults', fun D earlier => ?_⟩
  dsimp only
  rw [hf, hg, Std.TreeMap.insertMany_append, List.append_assoc]

theorem within (scope : StaticScope) (hf : Uniform f) : Uniform (Resolution.within scope f) :=
  fun scopes => by
    obtain ⟨_, found, faults, hf⟩ := hf (scope :: scopes)
    exact ⟨scopes, found, faults, fun D earlier => by rw [Resolution.within, hf]⟩

theorem ite {p : List StaticScope → Bool} (hf : Uniform f) (hg : Uniform g) :
    Uniform fun r => if p r.scopes then f r else g r := fun scopes => by
  cases hp : p scopes with
  | true => simpa [hp] using hf scopes
  | false => simpa [hp] using hg scopes

end Uniform

namespace Resolution

theorem uniform_report (fault : ResolutionFault) (token : Token) : Uniform (report fault token) :=
  fun scopes => ⟨scopes, [], [.resolution fault token], fun D earlier => by simp [report]⟩

theorem uniform_declare (name : Token) : Uniform (declare name) := fun scopes => by
  cases scopes with
  | nil => exact Uniform.refl []
  | cons scope outer =>
    by_cases hc : scope.contains name.lexeme
    · simpa [declare, hc] using uniform_report .redeclared name (scope :: outer)
    · refine ⟨scope.insert name.lexeme false :: outer, [], [], fun D earlier => ?_⟩
      simp [declare, hc]

theorem uniform_define (name : Token) : Uniform (define name) :=
  .of_scopes (Scopes.define name.lexeme) fun r => by
    rw [← scopes_define, define]
    cases r.scopes <;> rfl

theorem uniform_introduce (name : Token) : Uniform (introduce name) :=
  (uniform_define name).comp (uniform_declare name)

theorem uniform_introduceAll (params : List Token) :
    Uniform fun r => params.foldl (fun r p => r.introduce p) r := by
  induction params with
  | nil => exact .refl
  | cons p params ih => exact ih.comp (uniform_introduce p)

theorem uniform_bind (ref : Ref) : Uniform (bind ref) := fun scopes => by
  cases hd : scopes.findIdx? (·.contains ref.token.lexeme) with
  | none => exact ⟨scopes, [], [], fun D earlier => by simp [bind, hd]⟩
  | some d =>
    exact ⟨scopes, [(ref.id, d)], [], fun D earlier => by simp [bind, hd]⟩

theorem uniform_readName (ref : Ref) : Uniform (readName ref) :=
  (uniform_bind ref).comp (.ite (p := fun scopes => isUnready ref.token ⟨scopes, ∅, []⟩)
    (uniform_report .readInInitializer ref.token) .refl)

theorem uniform_useThis (cls : ClassContext) (ref : Ref) : Uniform (useThis cls ref) := by
  cases cls with
  | outside => exact uniform_report .thisOutsideClass ref.token
  | base | derived => exact uniform_bind ref

theorem uniform_useSuper (cls : ClassContext) (ref : Ref) : Uniform (useSuper cls ref) := by
  cases cls with
  | outside | base => exact (uniform_bind ref).comp (uniform_report _ ref.token)
  | derived => exact uniform_bind ref

theorem uniform_useReturn (kind : FunctionContext) (keyword : Token) (hasValue : Bool) :
    Uniform (useReturn kind keyword hasValue) := by
  cases kind with
  | outside => exact uniform_report .returnOutsideFunction keyword
  | initializer => cases hasValue with
    | true => exact uniform_report .valueFromInitializer keyword
    | false => exact .refl
  | function | method => exact .refl

theorem uniform_checkSuperclass (name : Token) (superclass : Expr) :
    Uniform (checkSuperclass name superclass) := by
  unfold checkSuperclass
  split
  · split
    · exact uniform_report .inheritsItself _
    · exact .refl
  · exact .refl

end Resolution

open Resolution

mutual

theorem Expr.uniform_resolve (cls : ClassContext) : (e : Expr) → Uniform (e.resolve cls)
  | .literal _ => .refl
  | .group e | .unary _ e | .get e _ => Expr.uniform_resolve cls e
  | .binary l _ e | .logical l _ e =>
    (Expr.uniform_resolve cls e).comp (Expr.uniform_resolve cls l)
  | .set o _ v => (Expr.uniform_resolve cls o).comp (Expr.uniform_resolve cls v)
  | .name ref => uniform_readName ref
  | .assign ref v => (uniform_bind ref).comp (Expr.uniform_resolve cls v)
  | .call callee _ args => (Expr.uniform_resolveAll cls args).comp (Expr.uniform_resolve cls callee)
  | .receiver ref => uniform_useThis cls ref
  | .inherited ref _ => uniform_useSuper cls ref

theorem Expr.uniform_resolveAll (cls : ClassContext) : (es : List Expr) →
    Uniform (Expr.resolveAll cls es)
  | [] => .refl
  | e :: es => (Expr.uniform_resolveAll cls es).comp (Expr.uniform_resolve cls e)

end

theorem Expr.uniform_resolveOption (cls : ClassContext) (e : Option Expr) :
    Uniform (Expr.resolveOption cls e) := by
  cases e with
  | none => exact .refl
  | some e => exact e.uniform_resolve cls

mutual

theorem Stmt.uniform_resolve (ctx : Context) : (s : Stmt) → Uniform (s.resolve ctx)
  | .expr e | .print e => e.uniform_resolve ctx.cls
  | .var name init => (uniform_define name).comp
      ((Expr.uniform_resolveOption ctx.cls init).comp (uniform_declare name))
  | .block body => .within _ (Stmt.uniform_resolveAll ctx body)
  | .ifThen c t | .loop c t => (Stmt.uniform_resolve ctx t).comp (c.uniform_resolve ctx.cls)
  | .ifElse c t e => (Stmt.uniform_resolve ctx e).comp
      ((Stmt.uniform_resolve ctx t).comp (c.uniform_resolve ctx.cls))
  | .function decl => (Stmt.uniform_resolveFunction _ decl).comp (uniform_introduce decl.name)
  | .ret keyword value => (Expr.uniform_resolveOption ctx.cls value).comp
      (uniform_useReturn ctx.function keyword value.isSome)
  | .classDecl name none methods =>
    (Uniform.within thisScope (Stmt.uniform_resolveMethods .base methods)).comp
      (uniform_introduce name)
  | .classDecl name (some e) methods =>
    (Uniform.within superScope
        (.within thisScope (Stmt.uniform_resolveMethods .derived methods))).comp
      ((e.uniform_resolve .derived).comp
        ((uniform_checkSuperclass name e).comp (uniform_introduce name)))

theorem Stmt.uniform_resolveAll (ctx : Context) : (ss : List Stmt) →
    Uniform (Stmt.resolveAll ctx ss)
  | [] => .refl
  | s :: ss => (Stmt.uniform_resolveAll ctx ss).comp (Stmt.uniform_resolve ctx s)

theorem Stmt.uniform_resolveFunction (ctx : Context) : (decl : FunctionDecl Stmt) →
    Uniform (Stmt.resolveFunction ctx decl)
  | ⟨_, params, body⟩ =>
    .within _ ((Stmt.uniform_resolveAll ctx body).comp (uniform_introduceAll params))

theorem Stmt.uniform_resolveMethods (cls : ClassContext) : (ms : List (FunctionDecl Stmt)) →
    Uniform (Stmt.resolveMethods cls ms)
  | [] => .refl
  | m :: ms => (Stmt.uniform_resolveMethods cls ms).comp (Stmt.uniform_resolveFunction _ m)

end

theorem Stmt.scopes_resolveAll_global (ctx : Context) (ss : List Stmt) {r : Resolution}
    (hr : r.scopes = []) : (Stmt.resolveAll ctx ss r).scopes = [] := by
  induction ss generalizing r with
  | nil => exact hr
  | cons s ss ih =>
    refine ih ?_
    rw [s.scopes_resolve_declares ctx, hr, Scopes.defineAll_eq_nil_iff]

theorem resolve_uniform (stmts : List Stmt) : ∃ found : List (Nat × Nat), ∃ faults,
    ∀ D earlier, Stmt.resolveAll ⟨.outside, .outside⟩ stmts ⟨[], D, earlier⟩ =
      ⟨[], D.insertMany found, earlier ++ faults⟩ := by
  obtain ⟨after, found, faults, h⟩ := Stmt.uniform_resolveAll ⟨.outside, .outside⟩ stmts []
  have hs : after = [] := by
    rw [← Stmt.scopes_resolveAll_global ⟨.outside, .outside⟩ stmts (r := ⟨[], ∅, []⟩) rfl, h]
  exact ⟨found, faults, fun D earlier => hs ▸ h D earlier⟩

theorem insertMany_again {D D' : Distances} {found : List (Nat × Nat)}
    (h : D'.Equiv (D.insertMany found)) : (D'.insertMany found).Equiv (D.insertMany found) := by
  refine .of_forall_constGet?_eq fun i => ?_
  rw [Std.TreeMap.getElem?_insertMany_list, h.getElem?_eq, Std.TreeMap.getElem?_insertMany_list,
    ← Option.or_assoc, Option.or_self]

namespace Session

def withDistances (s : Session) (D : Distances) : Session :=
  { s with machine := { s.machine with distances := D } }

theorem resolve_withDistances (stmts : List Stmt) : ∃ found : List (Nat × Nat), ∃ faults,
    ∀ s D, (withDistances s D).resolve stmts = (faults, s.withDistances (D.insertMany found)) := by
  obtain ⟨found, faults, h⟩ := resolve_uniform stmts
  refine ⟨found, faults, fun s D => ?_⟩
  rw [resolve, Treewalk.resolve]
  simp only [withDistances, h, List.nil_append]

theorem resolve_join (s : Session) (xs ys : List Stmt) : s.resolve (xs ++ ys) =
    ((s.resolve xs).1 ++ ((s.resolve xs).2.resolve ys).1, ((s.resolve xs).2.resolve ys).2) := by
  obtain ⟨found, faults, hx⟩ := resolve_uniform xs
  obtain ⟨found', faults', hy⟩ := resolve_uniform ys
  simp only [resolve, Treewalk.resolve, Stmt.resolveAll_append, hx, hy, List.nil_append]

theorem resolve_iterate (s : Session) (xs : List Stmt) (n : Nat) :
    ∃ D, ((fun s => (s.resolve xs).2)^[n] s).resolve xs = ((s.resolve xs).1, s.withDistances D) ∧
      D.Equiv (s.resolve xs).2.machine.distances := by
  obtain ⟨found, faults, h⟩ := resolve_withDistances xs
  have hs : s.resolve xs = (faults, s.withDistances (s.machine.distances.insertMany found)) :=
    h s s.machine.distances
  -- the marks and faults are the same on every table, which only grows by those marks
  suffices ∃ D : Distances, ((fun s => (s.resolve xs).2)^[n] s).resolve xs =
      (faults, s.withDistances (D.insertMany found)) ∧
        (D.insertMany found).Equiv (s.machine.distances.insertMany found) by
    obtain ⟨D, hr, he⟩ := this
    rw [hr, hs]
    exact ⟨_, rfl, he⟩
  induction n with
  | zero => exact ⟨s.machine.distances, hs, .rfl⟩
  | succ n ih =>
    obtain ⟨D, hr, he⟩ := ih
    refine ⟨D.insertMany found, ?_, insertMany_again he⟩
    rw [Function.iterate_succ_apply', hr]
    exact h s _

/-- Two programs are resolved as one after the other. A program resolved again has the same faults
and leaves the same table, however often that is. -/
theorem resolve_composes (s : Session) (xs ys : List Stmt) :
    s.resolve (xs ++ ys) =
        ((s.resolve xs).1 ++ ((s.resolve xs).2.resolve ys).1, ((s.resolve xs).2.resolve ys).2) ∧
      ∀ n, ∃ D, D.Equiv (s.resolve xs).2.machine.distances ∧
        ((fun s => (s.resolve xs).2)^[n] s).resolve xs =
          ((s.resolve xs).1, s.withDistances D) := by
  refine ⟨resolve_join s xs ys, fun n => ?_⟩
  obtain ⟨D, hr, he⟩ := resolve_iterate s xs n
  exact ⟨D, he, hr⟩

end Session

end Treewalk
