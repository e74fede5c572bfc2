import Treewalk.Proofs.SideBySide.Parsing
import Treewalk.Resolution

namespace Treewalk

def Pairing.shift (n n' : Nat) : Pairing := fun i i' _ => ∃ k, i = n + k ∧ i' = n' + k

inductive Wording.SameReport (w : Wording) : Diagnostic → Diagnostic → Prop
  | resolution : w.Same t t' → w.SameReport (.resolution fault t) (.resolution fault t')

namespace Resolution

/-- The same scopes are open, and the same distances are known from the first numbers on. -/
structure Alike (w : Wording) (n n' : Nat) (r r' : Resolution) : Prop where
  scopes : r'.scopes = r.scopes
  faults : List.Forall₂ w.SameReport r.faults r'.faults
  distances : ∀ k, r'.distances[n' + k]? = r.distances[n + k]?

namespace Alike

variable {w : Wording} {n n' : Nat} {r r' : Resolution} {t t' : Token} {ref ref' : Ref}

theorem report (h : r.Alike w n n' r') (ht : w.Same t t') (fault : ResolutionFault) :
    (r.report fault t).Alike w n n' (r'.report fault t') :=
  ⟨h.scopes, List.rel_append h.faults (.cons (.resolution ht) .nil), h.distances⟩

theorem declare (h : r.Alike w n n' r') (ht : w.Same t t') :
    (r.declare t).Alike w n n' (r'.declare t') := by
  unfold Resolution.declare
  rw [h.scopes, w.lexeme_eq ht]
  split
  · exact h
  · split
    · exact h.report ht _
    · exact ⟨rfl, h.faults, h.distances⟩

theorem define (h : r.Alike w n n' r') (ht : w.Same t t') :
    (r.define t).Alike w n n' (r'.define t') := by
  unfold Resolution.define
  rw [h.scopes, w.lexeme_eq ht]
  split
  · exact h
  · exact ⟨rfl, h.faults, h.distances⟩

theorem introduce (h : r.Alike w n n' r') (ht : w.Same t t') :
    (r.introduce t).Alike w n n' (r'.introduce t') :=
  (h.declare ht).define ht

theorem introduceAll (h : r.Alike w n n' r') {ts ts' : List Token}
    (hts : List.Forall₂ w.Same ts ts') :
    (ts.foldl (fun r t => r.introduce t) r).Alike w n n'
      (ts'.foldl (fun r t => r.introduce t) r') := by
  induction hts generalizing r r' with
  | nil => exact h
  | cons ht _ ih => exact ih (h.introduce ht)

theorem bind (h : r.Alike w n n' r') (hid : Pairing.shift n n' ref.id ref'.id d)
    (ht : w.Same ref.token ref'.token) : (r.bind ref).Alike w n n' (r'.bind ref') := by
  unfold Resolution.bind
  rw [h.scopes, w.lexeme_eq ht]
  split
  · exact h
  · next d _ =>
    refine ⟨rfl, h.faults, fun k => ?_⟩
    obtain ⟨j, hj, hj'⟩ := hid
    simp [Std.TreeMap.getElem?_insert, hj, hj', h.distances k]

theorem readName (h : r.Alike w n n' r') (hid : Pairing.shift n n' ref.id ref'.id d)
    (ht : w.Same ref.token ref'.token) : (r.readName ref).Alike w n n' (r'.readName ref') := by
  have hu : r'.isUnready ref'.token = r.isUnready ref.token := by
    simp only [isUnready, h.scopes, w.lexeme_eq ht]
  unfold Resolution.readName
  rw [hu]
  split
  · exact (h.report ht _).bind hid ht
  · exact h.bind hid ht

theorem useThis (h : r.Alike w n n' r') (hid : Pairing.shift n n' ref.id ref'.id d)
    (ht : w.Same ref.token ref'.token) (cls : ClassContext) :
    (r.useThis cls ref).Alike w n n' (r'.useThis cls ref') := by
  cases cls with
  | outside => exact h.report ht _
  | base | derived => exact h.bind hid ht

theorem useSuper (h : r.Alike w n n' r') (hid : Pairing.shift n n' ref.id ref'.id d)
    (ht : w.Same ref.token ref'.token) (cls : ClassContext) :
    (r.useSuper cls ref).Alike w n n' (r'.useSuper cls ref') := by
  cases cls with
  | outside | base => exact (h.report ht _).bind hid ht
  | derived => exact h.bind hid ht

theorem useReturn (h : r.Alike w n n' r') (ht : w.Same t t') (kind : FunctionContext)
    (hasValue : Bool) :
    (r.useReturn kind t hasValue).Alike w n n' (r'.useReturn kind t' hasValue) := by
  unfold Resolution.useReturn
  split
  · exact h.report ht _
  · split
    · exact h.report ht _
    · exact h
  · exact h
  · exact h

theorem checkSuperclass (h : r.Alike w n n' r') (ht : w.Same t t')
    (hs : w.Same ref.token ref'.token) :
    (r.checkSuperclass t (.name ref)).Alike w n n' (r'.checkSuperclass t' (.name ref')) := by
  simp only [Resolution.checkSuperclass, w.lexeme_eq ht, w.lexeme_eq hs]
  split
  · exact h.report hs _
  · exact h

theorem within (h : r.Alike w n n' r') (scope : StaticScope) {body body' : Resolution → Resolution}
    (hb : ∀ r r', r.Alike w n n' r' → (body r).Alike w n n' (body' r')) :
    (r.within scope body).Alike w n n' (r'.within scope body') := by
  have hopen : Resolution.Alike w n n' { r with scopes := scope :: r.scopes }
      { r' with scopes := scope :: r'.scopes } :=
    ⟨congrArg (scope :: ·) h.scopes, h.faults, h.distances⟩
  have hin := hb _ _ hopen
  exact ⟨h.scopes, hin.faults, hin.distances⟩

end Alike

end Resolution

open Resolution

variable {w : Wording} {n n' : Nat}

mutual

theorem Expr.Alike.resolve (hw : w.KeepsNames) (cls : ClassContext) : {e e' : Expr} →
    e.Alike w (.shift n n') marks e' → {r r' : Resolution} → r.Alike w n n' r' →
    (e.resolve cls r).Alike w n n' (e'.resolve cls r')
  | _, _, .literal, _, _, hr => hr
  | _, _, .group he, _, _, hr => Expr.Alike.resolve hw cls he hr
  | _, _, .unary _ he, _, _, hr => Expr.Alike.resolve hw cls he hr
  | _, _, .binary hl _ he, _, _, hr =>
    Expr.Alike.resolve hw cls he (Expr.Alike.resolve hw cls hl hr)
  | _, _, .logical hl _ he, _, _, hr =>
    Expr.Alike.resolve hw cls he (Expr.Alike.resolve hw cls hl hr)
  | _, _, .name ⟨_, hp, hn⟩, _, _, hr => hr.readName hp (hw.same hn)
  | _, _, .assign ⟨_, hp, hn⟩ he, _, _, hr =>
    (Expr.Alike.resolve hw cls he hr).bind hp (hw.same hn)
  | _, _, .call hc _ ha, _, _, hr =>
    Expr.AlikeAll.resolve hw cls ha (Expr.Alike.resolve hw cls hc hr)
  | _, _, .get ho _, _, _, hr => Expr.Alike.resolve hw cls ho hr
  | _, _, .set ho _ he, _, _, hr => Expr.Alike.resolve hw cls ho (Expr.Alike.resolve hw cls he hr)
  | _, _, .receiver ⟨_, hp, hn⟩, _, _, hr => hr.useThis hp (hw.same hn) cls
  | _, _, .inherited hp ht _, _, _, hr => hr.useSuper hp ht cls

theorem Expr.AlikeAll.resolve (hw : w.KeepsNames) (cls : ClassContext) : {es es' : List Expr} →
    Expr.AlikeAll w (.shift n n') marks es es' → {r r' : Resolution} → r.Alike w n n' r' →
    (Expr.resolveAll cls es r).Alike w n n' (Expr.resolveAll cls es' r')
  | _, _, .nil, _, _, hr => hr
  | _, _, .cons he hes, _, _, hr =>
    Expr.AlikeAll.resolve hw cls hes (Expr.Alike.resolve hw cls he hr)

end

theorem Expr.AlikeOption.resolve (hw : w.KeepsNames) (cls : ClassContext) {e e' : Option Expr}
    (he : Expr.AlikeOption w (.shift n n') marks e e') {r r' : Resolution}
    (hr : r.Alike w n n' r') :
    (Expr.resolveOption cls e r).Alike w n n' (Expr.resolveOption cls e' r') := by
  cases he with
  | none => exact hr
  | some he => exact he.resolve hw cls hr

mutual

theorem Stmt.Alike.resolve (hw : w.KeepsNames) : (ctx : Context) → {marks : List Bool} →
    {s s' : Stmt} → s.Alike w (.shift n n') marks s' → {r r' : Resolution} → r.Alike w n n' r' →
    (s.resolve ctx r).Alike w n n' (s'.resolve ctx r')
  | ctx, _, _, _, .expr he, _, _, hr => he.resolve hw ctx.cls hr
  | ctx, _, _, _, .print he, _, _, hr => he.resolve hw ctx.cls hr
  | ctx, _, _, _, .var hn hi, _, _, hr =>
    (hi.resolve hw ctx.cls (hr.declare (hw.same hn))).define (hw.same hn)
  | ctx, _, _, _, .block hb, _, _, hr =>
    hr.within .empty fun _ _ hr => Stmt.AlikeAll.resolve hw ctx hb hr
  | ctx, _, _, _, .ifThen hc ht, _, _, hr =>
    Stmt.Alike.resolve hw ctx ht (hc.resolve hw ctx.cls hr)
  | ctx, _, _, _, .ifElse hc ht he, _, _, hr =>
    Stmt.Alike.resolve hw ctx he (Stmt.Alike.resolve hw ctx ht (hc.resolve hw ctx.cls hr))
  | ctx, _, _, _, .loop hc hb, _, _, hr =>
    Stmt.Alike.resolve hw ctx hb (hc.resolve hw ctx.cls hr)
  | ctx, _, _, _, .function hn hf, _, _, hr =>
    Stmt.AlikeFunction.resolve hw { ctx with function := .function } hf (hr.introduce hn.same)
  | ctx, _, _, _, .ret hk hv, _, _, hr => by
    rw [Stmt.resolve, Stmt.resolve, hv.isSome_eq]
    exact hv.resolve hw ctx.cls (hr.useReturn hk _ _)
  | _, _, _, _, .base hn hms, _, _, hr =>
    (hr.introduce hn.same).within thisScope fun _ _ hr =>
      Stmt.AlikeMethods.resolve hw .base hms hr
  | _, _, _, _, .derived hn ⟨_, hp, hs⟩ hms, _, _, hr =>
    (((hr.introduce hn.same).checkSuperclass hn.same (hw.same hs)).readName hp (hw.same hs)).within
      superScope fun _ _ hr =>
        hr.within thisScope fun _ _ hr => Stmt.AlikeMethods.resolve hw .derived hms hr

theorem Stmt.AlikeAll.resolve (hw : w.KeepsNames) : (ctx : Context) → {marks : List Bool} →
    {ss ss' : List Stmt} → Stmt.AlikeAll w (.shift n n') marks ss ss' → {r r' : Resolution} →
    r.Alike w n n' r' → (Stmt.resolveAll ctx ss r).Alike w n n' (Stmt.resolveAll ctx ss' r')
  | _, _, _, _, .nil, _, _, hr => hr
  | ctx, _, _, _, .cons hs hss, _, _, hr =>
    Stmt.AlikeAll.resolve hw ctx hss (Stmt.Alike.resolve hw ctx hs hr)

theorem Stmt.AlikeFunction.resolve (hw : w.KeepsNames) : (ctx : Context) → {marks : List Bool} →
    {f f' : FunctionDecl Stmt} → Stmt.AlikeFunction w (.shift n n') marks f f' →
    {r r' : Resolution} → r.Alike w n n' r' →
    (Stmt.resolveFunction ctx f r).Alike w n n' (Stmt.resolveFunction ctx f' r')
  | ctx, _, _, _, .mk _ hp hb, _, _, hr =>
    hr.within .empty fun _ _ hr =>
      Stmt.AlikeAll.resolve hw ctx hb (hr.introduceAll (hp.imp fun _ _ h => hw.same h))

theorem Stmt.AlikeMethods.resolve (hw : w.KeepsNames) : (cls : ClassContext) → {marks : List Bool} →
    {ms ms' : List (FunctionDecl Stmt)} → Stmt.AlikeMethods w (.shift n n') marks ms ms' →
    {r r' : Resolution} → r.Alike w n n' r' →
    (Stmt.resolveMethods cls ms r).Alike w n n' (Stmt.resolveMethods cls ms' r')
  | _, _, _, _, .nil, _, _, hr => hr
  | cls, _, _, _, .cons hf hms, _, _, hr => by
    rw [Stmt.resolveMethods, Stmt.resolveMethods, hf.lexeme_name]
    exact Stmt.AlikeMethods.resolve hw cls hms (Stmt.AlikeFunction.resolve hw _ hf hr)

end

end Treewalk
