import Treewalk.Proofs.Looping.Trees
import Treewalk.Proofs.Scoping.Layers

/-!
How a copy of a tree is resolved where some of the scopes around the tree are missing. A scope that
declares nothing can be left out: the copy is the tree lifted out of it.
-/

namespace Treewalk

open Scopes

namespace Scopes

/-- The same open scopes, but for gaps, in which nothing is declared. -/
inductive Lifted : List Bool → List StaticScope → List StaticScope → Prop
  | plain : Lifted [] scopes scopes
  | kept : Lifted gaps scopes scopes' → Lifted (false :: gaps) (scope :: scopes) (scope :: scopes')
  | gap : Lifted gaps scopes scopes' → Lifted (true :: gaps) (.empty :: scopes) scopes'

structure Homed (cls cls' : ClassContext) (scopes : List StaticScope) : Prop where
  nested : Nested cls scopes
  outside : cls' = .outside → distance scopes "this" = none

namespace Lifted

variable {gaps : List Bool} {scopes scopes' : List StaticScope} {name : String}

theorem distance (h : Lifted gaps scopes scopes') (name : String) :
    Option.Rel (Passes gaps) (distance scopes name) (distance scopes' name) := by
  induction h with
  | @plain scopes =>
    cases Scopes.distance scopes name with
    | none => exact .none
    | some d => exact .some .plain
  | @kept _ scopes scopes' scope _ ih =>
    rw [distance_cons, distance_cons]
    split
    · exact .some .here
    · generalize Scopes.distance scopes name = d, Scopes.distance scopes' name = d' at ih
      cases ih with
      | none => exact .none
      | some hd => exact .some (.kept hd)
  | @gap _ scopes scopes' _ ih =>
    rw [distance_cons, if_neg (by simp [Bindings.contains])]
    generalize Scopes.distance scopes name = d, Scopes.distance scopes' name = d' at ih
    cases ih with
    | none => exact .none
    | some hd => exact .some (.gap hd)

theorem around (h : Lifted gaps scopes scopes') {k : Nat} (hthis : (ready? scopes k "this").isSome)
    (hk : Passes gaps (k + 1) d) : PassesAround gaps (k + 1) d := by
  suffices hs : ∃ d', d = d' + 1 ∧ Passes gaps k d' by
    obtain ⟨d', rfl, hd⟩ := hs
    exact .succ hd hk
  induction h generalizing k d with
  | plain =>
    cases hk
    exact ⟨k, rfl, .plain⟩
  | kept _ ih =>
    cases hk with
    | kept hk =>
      cases k with
      | zero =>
        obtain rfl := hk.zero
        exact ⟨0, rfl, .here⟩
      | succ k =>
        obtain ⟨d', rfl, hd⟩ := ih hthis hk
        exact ⟨d' + 1, rfl, .kept hd⟩
  | gap _ ih =>
    cases hk with
    | gap hk =>
      cases k with
      | zero => cases hthis
      | succ k =>
        obtain ⟨d', rfl, hd⟩ := ih hthis hk
        exact ⟨d', rfl, .gap hd⟩

theorem define (h : Lifted gaps scopes scopes') (hg : gaps.headD false = false) (name : String) :
    Lifted gaps (define name scopes) (define name scopes') := by
  cases h with
  | plain => exact .plain
  | kept h => exact .kept h
  | gap => cases hg

theorem declare (h : Lifted gaps scopes scopes') (hg : gaps.headD false = false) (name : String) :
    Lifted gaps (declare name scopes) (declare name scopes') := by
  cases h with
  | plain => exact .plain
  | @kept _ _ _ scope h =>
    rw [Scopes.declare, Scopes.declare]
    split <;> exact .kept h
  | gap => cases hg

end Lifted

namespace Homed

variable {cls cls' : ClassContext} {scopes : List StaticScope} {scope : StaticScope}

theorem push (h : Homed cls cls' scopes) (hs : Plain scope) : Homed cls cls' (scope :: scopes) := by
  refine ⟨h.nested.push hs.2, fun hc => ?_⟩
  simp [distance_cons, Bindings.contains, hs.1, h.outside hc]

theorem define (h : Homed cls cls' scopes) {t : Token} (ht : t.IsName) :
    Homed cls cls' (define t.lexeme scopes) :=
  ⟨h.nested.define ht.ne_super ht.ne_this, fun hc => by
    rw [distance_define_of_ne ht.ne_this, h.outside hc]⟩

theorem declare (h : Homed cls cls' scopes) {t : Token} (ht : t.IsName) :
    Homed cls cls' (declare t.lexeme scopes) :=
  ⟨h.nested.declare ht.ne_super ht.ne_this, fun hc => by
    rw [distance_declare_of_ne ht.ne_this, h.outside hc]⟩

theorem after (h : Homed cls cls' scopes) {s : Stmt} (hs : s.Proper) :
    Homed cls cls' (s.scopesAfter scopes) := by
  unfold Stmt.scopesAfter
  split
  · next t ht => exact h.define (hs.isName_declared t ht)
  · exact h

end Homed

end Scopes

theorem Scopes.Lifted.after {gaps : List Bool} {scopes scopes' : List StaticScope} {s : Stmt}
    (h : Lifted gaps scopes scopes') (hg : gaps.headD false = true → s.declared? = none) :
    Lifted gaps (s.scopesAfter scopes) (s.scopesAfter scopes') := by
  unfold Stmt.scopesAfter
  split
  · next t ht =>
    refine h.define ?_ t.lexeme
    cases hb : gaps.headD false with
    | false => rfl
    | true => exact absurd (hg hb) (by simp [ht])
  · exact h

theorem Stmt.scopesAfter_renumber (k : Nat) (s : Stmt) (scopes : List StaticScope) :
    (s.renumber k).scopesAfter scopes = s.scopesAfter scopes := by
  rw [Stmt.scopesAfter, Stmt.scopesAfter, Stmt.declared?_renumber]

theorem Layered.outside (h : Layered cls scopes os) (hc : cls = .outside) :
    distance scopes "this" = none := by
  induction h with
  | globals => rfl
  | block hp _ ih | frame hp _ ih => simp [distance_cons, Bindings.contains, hp.1, ih hc]
  | base | derived => cases hc

namespace Resolution

structure Records (D : Distances) (ids : List Nat) (r r' : Resolution) : Prop where
  nodup : ids.Nodup
  fresh : ∀ i ∈ ids, r.distances[i]? = none
  agrees : ∀ i ∈ ids, D[i]? = r'.distances[i]?

namespace Records

variable {D : Distances} {a b ids : List Nat} {r r₁ r₂ r' : Resolution} {ref : Ref}

theorem perm (h : Records D a r r') (hp : a.Perm b) : Records D b r r' :=
  ⟨hp.nodup_iff.mp h.nodup, fun i hi => h.fresh i (hp.mem_iff.mpr hi),
    fun i hi => h.agrees i (hp.mem_iff.mpr hi)⟩

theorem split (h : Records D (a ++ b) r r₂) (h₁ : Extends a r r₁) (h₂ : Extends b r₁ r₂) :
    Records D a r r₁ ∧ Records D b r₁ r₂ := by
  obtain ⟨ha, hb, hdisj⟩ := List.nodup_append.mp h.nodup
  obtain ⟨hagrees, hfresh⟩ := h₁.split h₂ hdisj h.fresh h.agrees
  exact ⟨⟨ha, fun i hi => h.fresh i (List.mem_append_left b hi), hagrees⟩,
    ⟨hb, hfresh, fun i hi => h.agrees i (List.mem_append_right a hi)⟩⟩

theorem after (h : Records D ids r r₂) (h₁ : Extends [] r r₁) (h₂ : Extends ids r₁ r₂) :
    Records D ids r₁ r₂ :=
  (split (a := []) h h₁ h₂).2

theorem before (h : Records D ids r r₂) (h₁ : Extends ids r r₁) (h₂ : Extends [] r₁ r₂) :
    Records D ids r r₁ := by
  rw [← List.append_nil ids] at h
  exact (h.split h₁ h₂).1

theorem within {body : Resolution → Resolution} {scope : StaticScope}
    (h : Records D ids r (r.within scope body)) :
    Records D ids { r with scopes := scope :: r.scopes }
      (body { r with scopes := scope :: r.scopes }) :=
  ⟨h.nodup, h.fresh, h.agrees⟩

theorem bind (h : Records D [ref.id] r (r.bind ref)) :
    D[ref.id]? = distance r.scopes ref.token.lexeme := by
  rw [h.agrees _ (List.mem_singleton_self _), distances_bind ref r
    (h.fresh _ (List.mem_singleton_self _))]

theorem readName (h : Records D [ref.id] r (r.readName ref)) :
    D[ref.id]? = distance r.scopes ref.token.lexeme := by
  unfold Resolution.readName at h
  split at h
  · exact (h.after (extends_report _ _ r) (extends_bind ref _)).bind
  · exact h.bind

theorem useThis (h : Records D [ref.id] r (r.useThis cls ref)) :
    D[ref.id]? = if cls = .outside then none else distance r.scopes ref.token.lexeme := by
  cases cls with
  | outside =>
    rw [h.agrees _ (List.mem_singleton_self _)]
    exact h.fresh _ (List.mem_singleton_self _)
  | base | derived => exact h.bind

theorem useSuper (h : Records D [ref.id] r (r.useSuper cls ref)) :
    D[ref.id]? = distance r.scopes ref.token.lexeme := by
  cases cls with
  | outside | base => exact (h.after (extends_report _ _ r) (extends_bind ref _)).bind
  | derived => exact h.bind

end Records

end Resolution

open Resolution

section Copies

variable {D D' : Distances} {k : Nat} {cls cls' : ClassContext} {gaps : List Bool}
  {scopes scopes' : List StaticScope} {ref : Ref}

theorem Ref.lifted_of_distance (hl : Scopes.Lifted gaps scopes scopes')
    (hd : D[ref.id]? = distance scopes ref.token.lexeme)
    (hd' : D'[(ref.renumber k).id]? = distance scopes' ref.token.lexeme) :
    ref.Lifted D D' gaps (ref.renumber k) := by
  refine ⟨rfl, ?_⟩
  rw [hd, hd']
  exact hl.distance ref.token.lexeme

mutual

theorem Expr.lifted_renumber (hl : Scopes.Lifted gaps scopes scopes') (hh : Homed cls cls' scopes) :
    (e : Expr) → e.Bound D cls scopes → {r : Resolution} → r.scopes = scopes' →
    Records D' (e.renumber k).refs r ((e.renumber k).resolve cls' r) →
    e.Lifted D D' gaps (e.renumber k)
  | .literal _, _, _, _, _ => .literal
  | .group e, hb, _, hr, h => .group (Expr.lifted_renumber hl hh e hb hr h)
  | .unary _ e, hb, _, hr, h => .unary (Expr.lifted_renumber hl hh e hb hr h)
  | .get e _, hb, _, hr, h => .get (Expr.lifted_renumber hl hh e hb hr h)
  | .binary l _ e, hb, r, hr, h => by
    obtain ⟨hx, hs⟩ := (l.renumber k).extends_resolve cls' r
    obtain ⟨h₁, h₂⟩ := h.split hx ((e.renumber k).extends_resolve cls' _).1
    exact .binary (Expr.lifted_renumber hl hh l hb.1 hr h₁)
      (Expr.lifted_renumber hl hh e hb.2 (hs.trans hr) h₂)
  | .logical l _ e, hb, r, hr, h => by
    obtain ⟨hx, hs⟩ := (l.renumber k).extends_resolve cls' r
    obtain ⟨h₁, h₂⟩ := h.split hx ((e.renumber k).extends_resolve cls' _).1
    exact .logical (Expr.lifted_renumber hl hh l hb.1 hr h₁)
      (Expr.lifted_renumber hl hh e hb.2 (hs.trans hr) h₂)
  | .set o _ v, hb, r, hr, h => by
    obtain ⟨hx, hs⟩ := (v.renumber k).extends_resolve cls' r
    obtain ⟨h₁, h₂⟩ := (h.perm List.perm_append_comm).split hx
      ((o.renumber k).extends_resolve cls' _).1
    exact .set (Expr.lifted_renumber hl hh o hb.1 (hs.trans hr) h₂)
      (Expr.lifted_renumber hl hh v hb.2 hr h₁)
  | .name ref, hb, _, hr, h => by
    subst hr
    exact .name (Ref.lifted_of_distance hl hb.2.1 h.readName)
  | .assign ref v, hb, r, hr, h => by
    obtain ⟨hx, hs⟩ := (v.renumber k).extends_resolve cls' r
    obtain ⟨h₁, h₂⟩ := h.split hx (extends_bind (ref.renumber k) _)
    refine .assign (Ref.lifted_of_distance hl hb.2.2 ?_) (Expr.lifted_renumber hl hh v hb.1 hr h₁)
    rw [← hr, ← hs]
    exact h₂.bind
  | .call callee _ args, hb, r, hr, h => by
    obtain ⟨hx, hs⟩ := (callee.renumber k).extends_resolve cls' r
    obtain ⟨h₁, h₂⟩ := h.split hx (Expr.extends_resolveAll cls' (Expr.renumberAll k args) _).1
    exact .call (Expr.lifted_renumber hl hh callee hb.1 hr h₁)
      (Expr.liftedAll_renumber hl hh args hb.2 (hs.trans hr) h₂)
  | .receiver ref, hb, _, hr, h => by
    subst hr
    refine .receiver (Ref.lifted_of_distance hl hb.2 ?_)
    have hd := h.useThis
    split at hd
    · next hc =>
      -- on both sides there is no receiver
      have hn := hl.distance "this"
      rw [hh.outside hc] at hn
      rw [hd, hb.1]
      change _ = distance _ "this"
      generalize distance _ _ = d' at hn ⊢
      cases hn
      rfl
    · exact hd
  | .inherited ref _, hb, _, hr, h => by
    subst hr
    obtain ⟨rfl, hlexeme, hd⟩ := hb
    obtain ⟨j, hj, -, hthis⟩ := hh.nested
    have hd' : D'[(ref.renumber k).id]? = distance _ ref.token.lexeme := h.useSuper
    have hrel := hl.distance "super"
    rw [hlexeme] at hd hd'
    change _ = distance _ "super" at hd hd'
    rw [hj] at hd hrel
    refine .inherited ⟨rfl, ?_⟩
    rw [hd, hd']
    generalize distance _ _ = d' at hrel ⊢
    cases hrel with
    | some hp => exact .some (hl.around (by rw [hthis]; rfl) hp)

theorem Expr.liftedAll_renumber (hl : Scopes.Lifted gaps scopes scopes')
    (hh : Homed cls cls' scopes) :
    (es : List Expr) → Expr.BoundAll D cls scopes es → {r : Resolution} → r.scopes = scopes' →
    Records D' (Expr.refsAll (Expr.renumberAll k es)) r
      (Expr.resolveAll cls' (Expr.renumberAll k es) r) →
    Expr.LiftedAll D D' gaps es (Expr.renumberAll k es)
  | [], _, _, _, _ => .nil
  | e :: es, hb, r, hr, h => by
    obtain ⟨hx, hs⟩ := (e.renumber k).extends_resolve cls' r
    obtain ⟨h₁, h₂⟩ := h.split hx (Expr.extends_resolveAll cls' (Expr.renumberAll k es) _).1
    exact .cons (Expr.lifted_renumber hl hh e hb.1 hr h₁)
      (Expr.liftedAll_renumber hl hh es hb.2 (hs.trans hr) h₂)

end

theorem Expr.liftedOption_renumber (hl : Scopes.Lifted gaps scopes scopes')
    (hh : Homed cls cls' scopes) {e : Option Expr} (hb : Expr.BoundOption D cls scopes e)
    {r : Resolution} (hr : r.scopes = scopes')
    (h : Records D' (Expr.refsOption (e.map (·.renumber k))) r
      (Expr.resolveOption cls' (e.map (·.renumber k)) r)) :
    Expr.LiftedOption D D' gaps e (e.map (·.renumber k)) := by
  cases e with
  | none => exact .none
  | some e => exact .some (Expr.lifted_renumber hl hh e hb hr h)

mutual

theorem Stmt.lifted_renumber : (s : Stmt) → s.Proper → {ctx ctx' : Context} → {gaps : List Bool} →
    {scopes scopes' : List StaticScope} → Scopes.Lifted gaps scopes scopes' →
    Homed ctx.cls ctx'.cls scopes → (gaps.headD false = true → s.declared? = none) →
    s.Bound D ctx scopes → {r : Resolution} → r.scopes = scopes' →
    Records D' (s.renumber k).refs r ((s.renumber k).resolve ctx' r) →
    s.Lifted D D' gaps (s.renumber k)
  | .expr e, _, _, _, _, _, _, hl, hh, _, hb, _, hr, h =>
    .expr (Expr.lifted_renumber hl hh e hb hr h)
  | .print e, _, _, _, _, _, _, hl, hh, _, hb, _, hr, h =>
    .print (Expr.lifted_renumber hl hh e hb hr h)
  | .var name init, hp, ctx, ctx', gaps, _, _, hl, hh, hg, hb, r, hr, h => by
    have hhead : gaps.headD false = false := by simpa [Stmt.declared?] using hg
    have hinit := (Expr.extends_resolveOption ctx'.cls (init.map (·.renumber k)) (r.declare name)).1
    have hrest := hinit.trans (extends_define name _)
    rw [List.append_nil] at hrest
    have hi := (h.after (extends_declare name r) hrest).before hinit (extends_define name _)
    refine .var hhead (Expr.liftedOption_renumber (hl.declare hhead _) (hh.declare hp.1) hb.2.2 ?_ hi)
    rw [scopes_declare, hr]
  | .block body, hp, _, _, _, _, _, hl, hh, _, hb, _, hr, h =>
    .block (Stmt.liftedAll_renumber body hp hl.kept (hh.push plain_empty) rfl hb
      (congrArg (Bindings.empty :: ·) hr) h.within)
  | .ifThen c t, hp, _, ctx', _, _, _, hl, hh, _, hb, r, hr, h => by
    obtain ⟨hx, hs⟩ := (c.renumber k).extends_resolve ctx'.cls r
    obtain ⟨h₁, h₂⟩ := h.split hx ((t.renumber k).extends_resolve ctx' _)
    exact .ifThen (Expr.lifted_renumber hl hh c hb.1 hr h₁)
      (Stmt.lifted_renumber t hp.2.1 hl hh (fun _ => hp.2.2) hb.2.1 (hs.trans hr) h₂)
  | .ifElse c t e, hp, _, ctx', _, _, _, hl, hh, _, hb, r, hr, h => by
    obtain ⟨hx, hs⟩ := (c.renumber k).extends_resolve ctx'.cls r
    have ht := (t.renumber k).extends_resolve ctx' ((c.renumber k).resolve ctx'.cls r)
    have hs' : ((t.renumber k).resolve ctx' ((c.renumber k).resolve ctx'.cls r)).scopes =
        r.scopes := by
      rw [(t.renumber k).scopes_resolve ctx' (t.proper_renumber k hp.2.1.1),
        Stmt.scopesAfter_of_none ((t.declared?_renumber k).trans hp.2.1.2), hs]
    obtain ⟨h₁, h₂⟩ := h.split hx (ht.trans ((e.renumber k).extends_resolve ctx' _))
    obtain ⟨h₂, h₃⟩ := h₂.split ht ((e.renumber k).extends_resolve ctx' _)
    exact .ifElse (Expr.lifted_renumber hl hh c hb.1 hr h₁)
      (Stmt.lifted_renumber t hp.2.1.1 hl hh (fun _ => hp.2.1.2) hb.2.1.1 (hs.trans hr) h₂)
      (Stmt.lifted_renumber e hp.2.2.1 hl hh (fun _ => hp.2.2.2) hb.2.2.1 (hs'.trans hr) h₃)
  | .loop c t, hp, _, ctx', _, _, _, hl, hh, _, hb, r, hr, h => by
    obtain ⟨hx, hs⟩ := (c.renumber k).extends_resolve ctx'.cls r
    obtain ⟨h₁, h₂⟩ := h.split hx ((t.renumber k).extends_resolve ctx' _)
    exact .loop (Expr.lifted_renumber hl hh c hb.1 hr h₁)
      (Stmt.lifted_renumber t hp.2.1 hl hh (fun _ => hp.2.2) hb.2.1 (hs.trans hr) h₂)
  | .function ⟨name, params, body⟩, hp, ctx, ctx', gaps, scopes, _, hl, hh, hg, hb, r, hr, h => by
    have hhead : gaps.headD false = false := by simpa [Stmt.declared?] using hg
    have hf := Stmt.extends_resolveFunction { ctx' with function := .function }
      (Stmt.renumberFunction k ⟨name, params, body⟩) (r.introduce name)
    have hh' : Homed ({ ctx with function := .function } : Context).cls
        ({ ctx' with function := .function } : Context).cls (Scopes.define name.lexeme scopes) :=
      hh.define hp.1
    refine .function hhead (Stmt.liftedFunction_renumber _ hp (hl.define hhead _) hh' hb.2.2 ?_
      (h.after (extends_introduce name r) hf))
    rw [scopes_introduce, hr]
    rfl
  | .ret keyword value, hp, _, ctx', _, _, _, hl, hh, _, hb, r, hr, h => by
    have hvalue := (Expr.extends_resolveOption ctx'.cls (value.map (·.renumber k))
      (r.useReturn ctx'.function keyword (value.map (·.renumber k)).isSome)).1
    refine .ret (Expr.liftedOption_renumber hl hh hb ?_
      (h.after (extends_useReturn _ keyword _ r) hvalue))
    rw [scopes_useReturn, hr]
  | .classDecl name none ms, hp, _, _, gaps, scopes, _, hl, hh, hg, hb, r, hr, h => by
    have hhead : gaps.headD false = false := by simpa [Stmt.declared?] using hg
    have hms := Stmt.extends_resolveMethods .base (Stmt.renumberMethods k ms)
      { r.introduce name with scopes := thisScope :: (r.introduce name).scopes }
    have hh' : Homed .base .base (thisScope :: Scopes.define name.lexeme scopes) :=
      ⟨trivial, nofun⟩
    refine .base hhead (Stmt.liftedMethods_renumber ms hp.2.2.2 (hl.define hhead _).kept hh'
      hb.2.2 ?_ (h.after (extends_introduce name r) (.within hms)).within)
    rw [scopes_introduce, hr]
  | .classDecl name (some e) ms, hp, _, _, gaps, scopes, scopes', hl, hh, hg, hb, r, hr, h => by
    have hhead : gaps.headD false = false := by simpa [Stmt.declared?] using hg
    obtain ⟨ref, rfl⟩ := hp.2.2.1 e rfl
    have hstart := (extends_introduce name r).trans
      (extends_checkSuperclass name (.name (ref.renumber k)) _)
    have hread := (Expr.name (ref.renumber k)).extends_resolve .derived
      ((r.introduce name).checkSuperclass name (.name (ref.renumber k)))
    have hms := Stmt.extends_resolveMethods .derived (Stmt.renumberMethods k ms)
    obtain ⟨h₁, h₂⟩ := h.split (hstart.trans hread.1) (.within (.within (hms _)))
    have hscopes : ((r.introduce name).checkSuperclass name (.name (ref.renumber k))).scopes =
        Scopes.define name.lexeme scopes' := by
      rw [scopes_checkSuperclass, scopes_introduce, hr]
    have hd := (h₁.after hstart hread.1).readName
    rw [hscopes] at hd
    have hh' : Homed .derived .derived
        (thisScope :: superScope :: Scopes.define name.lexeme scopes) := ⟨.methods _, nofun⟩
    refine .derived hhead (.name (Ref.lifted_of_distance (hl.define hhead _) hb.2.2.1.2.1 hd))
      (Stmt.liftedMethods_renumber ms hp.2.2.2 (hl.define hhead _).kept.kept hh' hb.2.2.2.2 ?_
        h₂.within.within)
    rw [hread.2, hscopes]

theorem Stmt.liftedAll_renumber : (ss : List Stmt) → Stmt.ProperAll ss → {ctx ctx' : Context} →
    {gaps : List Bool} → {scopes scopes' : List StaticScope} →
    Scopes.Lifted gaps scopes scopes' → Homed ctx.cls ctx'.cls scopes →
    gaps.headD false = false → Stmt.BoundAll D ctx scopes ss → {r : Resolution} →
    r.scopes = scopes' →
    Records D' (Stmt.refsAll (Stmt.renumberAll k ss)) r
      (Stmt.resolveAll ctx' (Stmt.renumberAll k ss) r) →
    Stmt.LiftedAll D D' gaps ss (Stmt.renumberAll k ss)
  | [], _, _, _, _, _, _, _, _, _, _, _, _, _ => .nil
  | s :: ss, hp, _, ctx', gaps, _, _, hl, hh, hg, hb, r, hr, h => by
    have hgap : gaps.headD false = true → s.declared? = none := fun hc => by
      cases hg.symm.trans hc
    obtain ⟨h₁, h₂⟩ := h.split ((s.renumber k).extends_resolve ctx' r)
      (Stmt.extends_resolveAll ctx' (Stmt.renumberAll k ss) _)
    refine .cons (Stmt.lifted_renumber s hp.1 hl hh hgap hb.1 hr h₁)
      (Stmt.liftedAll_renumber ss hp.2 (hl.after hgap) (hh.after hp.1) hg hb.2 ?_ h₂)
    rw [(s.renumber k).scopes_resolve ctx' (s.proper_renumber k hp.1), hr, s.scopesAfter_renumber]

theorem Stmt.liftedFunction_renumber : (decl : FunctionDecl Stmt) → Stmt.ProperFunction decl →
    {ctx ctx' : Context} → {gaps : List Bool} → {scopes scopes' : List StaticScope} →
    Scopes.Lifted gaps scopes scopes' → Homed ctx.cls ctx'.cls scopes →
    Stmt.BoundFunction D ctx scopes decl → {r : Resolution} → r.scopes = scopes' →
    Records D' (Stmt.refsFunction (Stmt.renumberFunction k decl)) r
      (Stmt.resolveFunction ctx' (Stmt.renumberFunction k decl) r) →
    Stmt.LiftedFunction D D' gaps decl (Stmt.renumberFunction k decl)
  | ⟨_, params, body⟩, hp, _, ctx', _, _, _, hl, hh, hb, r, hr, h => by
    have hin : Records D' (Stmt.refsAll (Stmt.renumberAll k body)) r (r.within .empty fun r =>
        Stmt.resolveAll ctx' (Stmt.renumberAll k body)
          (params.foldl (fun r p => r.introduce p) r)) := h
    refine .mk (Stmt.liftedAll_renumber body hp.2.2 hl.kept (hh.push (plain_parameterScope hp.2.1))
      rfl hb.2 ?_ (hin.within.after (extends_introduceAll params _)
        (Stmt.extends_resolveAll ctx' (Stmt.renumberAll k body) _)))
    rw [scopes_introduceAll params _ .empty r.scopes rfl, hr]
    rfl

theorem Stmt.liftedMethods_renumber : (ms : List (FunctionDecl Stmt)) → Stmt.ProperMethods ms →
    {cls cls' : ClassContext} → {gaps : List Bool} → {scopes scopes' : List StaticScope} →
    Scopes.Lifted gaps scopes scopes' → Homed cls cls' scopes →
    Stmt.BoundMethods D cls scopes ms → {r : Resolution} → r.scopes = scopes' →
    Records D' (Stmt.refsMethods (Stmt.renumberMethods k ms)) r
      (Stmt.resolveMethods cls' (Stmt.renumberMethods k ms) r) →
    Stmt.LiftedMethods D D' gaps ms (Stmt.renumberMethods k ms)
  | [], _, _, _, _, _, _, _, _, _, _, _, _ => .nil
  | m :: ms, hp, _, cls', _, _, _, hl, hh, hb, r, hr, h => by
    obtain ⟨h₁, h₂⟩ := h.split (Stmt.extends_resolveFunction _ (Stmt.renumberFunction k m) r)
      (Stmt.extends_resolveMethods cls' (Stmt.renumberMethods k ms) _)
    refine .cons (Stmt.liftedFunction_renumber m hp.1 hl hh hb.1 hr h₁)
      (Stmt.liftedMethods_renumber ms hp.2 hl hh hb.2 ?_ h₂)
    rw [Stmt.scopes_resolveFunction, hr]

end

end Copies

end Treewalk
