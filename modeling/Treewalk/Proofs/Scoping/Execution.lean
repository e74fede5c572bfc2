import Treewalk.Proofs.Scoping.Operations

namespace Treewalk

open Scopes Run

/-- One of the points made the scope for the construct. -/
def Made (points : Point → Prop) (s : ScopeId) (o : Opener) : Prop := ∃ p, points p ∧ Opens p s o

section Fine

variable (points : Point → Prop) (seen : Visit → Prop)

/-- The machine is at a place inside the given class. -/
structure At (m : Machine) (cls : ClassContext) (scopes : List StaticScope) (os : List Opener) :
    Prop where
  stands : Stands (Made points) m scopes os
  nested : Nested cls scopes
  receiver : ¬ Unready scopes "this"

def Placed (m : Machine) : Code → Prop
  | .expr e => ∃ cls scopes os, At points m cls scopes os ∧ e.Bound m.distances cls scopes ∧
      SeenExpr seen e scopes os
  | .exprs es => ∃ cls scopes os, At points m cls scopes os ∧
      Expr.BoundAll m.distances cls scopes es ∧ Seen seen (.exprs es) scopes os
  | .apply _ _ _ => True
  | .invoke f args => FunctionSound (Made points) seen m f ∧ f.arity = args.length
  | .stmt s => ∃ ctx scopes os, At points m ctx.cls scopes os ∧ Ready scopes ∧
      s.Bound m.distances ctx scopes ∧ s.Proper ∧ Seen seen (.stmt s) scopes os
  | .stmts ss => ∃ ctx scopes os, At points m ctx.cls scopes os ∧ Ready scopes ∧
      Stmt.BoundAll m.distances ctx scopes ss ∧ Stmt.ProperAll ss ∧ Seen seen (.stmts ss) scopes os
  | .rounds c body => ∃ ctx scopes os, At points m ctx.cls scopes os ∧ Ready scopes ∧
      (c.Bound m.distances ctx.cls scopes ∧ Seen seen (.expr c) scopes os) ∧
      body.Bound m.distances ctx scopes ∧ body.Proper ∧ body.declared? = none ∧
      Seen seen (.stmt body) scopes os

structure Fine (p : Point) : Prop where
  mem : points p
  sound : Sound (Made points) seen p.machine
  placed : Placed points seen p.machine p.code

def Declares (s : Stmt) (m m' : Machine) : Prop :=
  ∀ name, (m'.heap.binding? m.current name).isSome ↔
    (m.heap.binding? m.current name).isSome ∨ ∃ t ∈ s.declared?, t.lexeme = name

def Ends : Point → Prop
  | ⟨n, .expr e, m⟩ => Kept (Made points) seen nowhere m (fun _ _ => True) (evaluate n e m)
  | ⟨n, .exprs es, m⟩ => Kept (Made points) seen nowhere m (fun _ _ => True) (evaluateAll n es m)
  | ⟨n, .apply f paren args, m⟩ =>
    Kept (Made points) seen nowhere m (fun _ _ => True) (apply n f paren args m)
  | ⟨n, .invoke f args, m⟩ =>
    Kept (Made points) seen nowhere m (fun _ _ => True) (invoke n f args m)
  | ⟨n, .stmt s, m⟩ =>
    Kept (Made points) seen (· = m.current) m (fun _ m' => Declares s m m') (execute n s m)
  | ⟨n, .stmts ss, m⟩ =>
    Kept (Made points) seen (· = m.current) m (fun _ _ => True) (executeAll n ss m)
  | ⟨n, .rounds c body, m⟩ =>
    Kept (Made points) seen nowhere m (fun _ _ => True) (iterate n c body m)

end Fine

variable {points : Point → Prop} {seen : Visit → Prop} {m m' m₁ : Machine} {cls : ClassContext}
  {ctx : Context} {scopes scopes' : List StaticScope} {os os' : List Opener}

theorem At.mono (h : At points m cls scopes os) (he : Evolves (Made points) seen nowhere m m') :
    At points m' cls scopes os :=
  ⟨h.stands.mono he id, h.nested, h.receiver⟩

theorem Declares.still (hd : Declares s m m') (hs : s.declared? = none) (name : String)
    (h : (m'.heap.binding? m.current name).isSome) : (m.heap.binding? m.current name).isSome := by
  obtain h | ⟨t, ht, -⟩ := (hd name).mp h
  · exact h
  · rw [hs] at ht
    cases ht

theorem Stands.after {made : ScopeId → Opener → Prop} (h : Stands made m scopes os)
    (he : Evolves made seen (· = m.current) m m') (hd : Declares s m m') :
    Stands made m' (s.scopesAfter scopes) os := by
  unfold Stmt.scopesAfter
  split
  · next t ht => exact h.define he (by simpa [Declares, ht] using hd)
  · next ht => exact h.mono (he.still (hd.still ht)) (P := nowhere) id

theorem Scopes.Ready.not_unready (h : Ready scopes) (name : String) : ¬ Unready scopes name := by
  rintro ⟨scope, hmem, hget⟩
  exact h scope (List.mem_of_mem_head? hmem) name hget

theorem Scopes.Ready.scopesAfter (h : Ready scopes) (s : Stmt) : Ready (s.scopesAfter scopes) := by
  unfold Stmt.scopesAfter
  split
  · exact h.define _
  · exact h

theorem Stmt.Proper.isName_declared {s : Stmt} (h : s.Proper) : ∀ t ∈ s.declared?, t.IsName := by
  cases s with
  | var => rintro _ ⟨⟩; exact h.1
  | classDecl => rintro _ ⟨⟩; exact h.1
  | function decl =>
    rintro _ ⟨⟩
    cases decl
    exact h.1
  | _ => nofun

theorem Scopes.Nested.scopesAfter (h : Nested cls scopes) {s : Stmt} (hs : s.Proper) :
    Nested cls (s.scopesAfter scopes) := by
  unfold Stmt.scopesAfter
  split
  · next t ht =>
    have hname := hs.isName_declared t ht
    exact h.define hname.ne_super hname.ne_this
  · exact h

theorem Seen.step (hseen : ∀ v w, Resolves v w → seen v → seen w) (h : Seen seen a scopes os)
    (hstep : ∀ ctx r, r.scopes = scopes → ∃ w, Resolves ⟨ctx, a, r, os⟩ w ∧ w.subject = b ∧
      w.openers = os' ∧ w.state.scopes = scopes') : Seen seen b scopes' os' := by
  obtain ⟨⟨ctx, _, r, _⟩, hv, rfl, rfl, hr⟩ := h
  obtain ⟨w, hw, hrest⟩ := hstep ctx r hr
  exact ⟨w, hseen _ _ hw hv, hrest⟩

theorem SeenExpr.plain (h : SeenExpr seen e scopes os) (hne : ∀ ref, e ≠ .name ref) :
    Seen seen (.expr e) scopes os := by
  obtain h | ⟨ref, _, he, _⟩ := h
  · exact h
  · exact absurd he (hne ref)

theorem Kept.of_ok {made : ScopeId → Opener → Prop} {R : α → Machine → Prop}
    {r : EStateM.Result Halt Machine α} (h : Kept made seen P m R r) (hr : r = .ok a m₁) :
    Evolves made seen P m m₁ ∧ R a m₁ := by
  subst hr
  exact h

theorem Scopes.isSome_get?_frame {params : List Token} {args : List Value}
    (h : params.length = args.length) (name : String) :
    ((Bindings.ofList ((params.map Token.lexeme).zip args)).get? name).isSome ↔
      (parameterScope params).get? name = some true := by
  rw [Bindings.isSome_get?_ofList, List.map_fst_zip (by simp [h]), get?_parameterScope]
  simp

theorem Scopes.get?_parameterScope_super {params : List Token} (h : ∀ p ∈ params, p.IsName) :
    (parameterScope params).get? "super" = none := by
  rw [get?_parameterScope, if_neg]
  intro hmem
  obtain ⟨p, hp, heq⟩ := List.mem_map.mp hmem
  exact (h p hp).ne_super heq

theorem Stands.lookupAt? {made : ScopeId → Opener → Prop} (h : Stands made m scopes os)
    (he : ready? scopes d name = some true) : ∃ s v, s ≠ m.globals ∧
      m.heap.binding? s name = some v ∧ m.heap.lookupAt? m.current d name = some v := by
  obtain ⟨s, o, hs, -, -, hne, hb⟩ := h.lies.entry he
  obtain ⟨v, hv⟩ := Option.isSome_iff_exists.mp hb
  refine ⟨s, v, hne, hv, ?_⟩
  rw [Heap.lookupAt?, hs]
  exact hv

theorem At.superclass (hs : Sound (Made points) seen m) (h : At points m .derived scopes os) :
    ∃ d parent receiver, distance scopes "super" = some (d + 1) ∧
      m.heap.lookupAt? m.current (d + 1) "super" = some (.cls parent) ∧
      m.heap.lookupAt? m.current d "this" = some receiver := by
  obtain ⟨d, hd, hsuper, hthis⟩ := h.nested
  obtain ⟨s, v, hne, hb, hl⟩ := h.stands.lookupAt? hsuper
  obtain ⟨parent, rfl⟩ := hs.supers s v hne hb
  obtain ⟨_, receiver, _, _, hl'⟩ := h.stands.lookupAt? hthis
  exact ⟨d, parent, receiver, hd, hl, hl'⟩

section Declares

variable {made : ScopeId → Opener → Prop} {r : EStateM.Result Halt Machine α}

theorem Kept.declares (hs : s.declared? = none) (hc : m.current.index < m.heap.scopes.size)
    (h : Kept made seen nowhere m (fun _ _ => True) r) :
    Kept made seen (· = m.current) m (fun _ m' => Declares s m m') r := by
  refine h.evolves.mono (fun _ h => h.elim) fun _ m' h name => ?_
  simpa [hs] using h.1.bound_iff hc name

theorem Kept.still (hs : s.declared? = none)
    (h : Kept made seen (· = m.current) m (fun _ m' => Declares s m m') r) :
    Kept made seen nowhere m (fun _ _ => True) r := by
  match r, h with
  | .ok a m', ⟨he, hd⟩ => exact ⟨he.still (hd.still hs), trivial⟩
  | .error e m', he => exact he

theorem Declares.of_binds {name : Token} (hs : s.declared? = some name)
    (hc : m.current.index < m.heap.scopes.size) (he : Evolves made seen nowhere m m₁)
    (h : ∀ other, (m'.heap.binding? m₁.current other).isSome ↔
      (m₁.heap.binding? m₁.current other).isSome ∨ name.lexeme = other) : Declares s m m' := by
  intro other
  rw [he.current] at h
  rw [h, he.bound_iff hc]
  simp [hs]

theorem Kept.defines {name : Token} (hs : s.declared? = some name) (hname : name.IsName)
    (hc : m.current.index < m.heap.scopes.size) (he : Evolves made seen nowhere m m₁) (v : Value) :
    Kept made seen (· = m.current) m₁ (fun _ m' => Declares s m m')
      ((do Run.define name.lexeme v; return Completion.normal : Run Completion) m₁) := by
  have hc₁ : m₁.current.index < m₁.heap.scopes.size := by
    rw [he.current]
    exact Nat.lt_of_lt_of_le hc he.heap.size
  rw [← he.current]
  exact .bind (kept_define he.sound hname hc₁ v) fun _ _ _ he₁ hd =>
    .pure he₁.sound (.of_binds hs hc he hd)

end Declares

section Step

variable (hpoints : ∀ p q, Calls p q → points p → points q)
  (hseen : ∀ v w, Resolves v w → seen v → seen w)
  (ih : ∀ code m, Fine points seen ⟨n, code, m⟩ → Ends points seen ⟨n, code, m⟩)

include hpoints hseen ih

theorem Fine.expr_step (h : Fine points seen ⟨n + 1, .expr e, m⟩)
    (hc : Calls ⟨n + 1, .expr e, m⟩ q) : Fine points seen q := by
  obtain ⟨hp, hs, cls, scopes, os, hat, hb, hv⟩ := h
  have hmem := hpoints _ _ hc hp
  have here {e' : Expr} (hc : Calls ⟨n + 1, .expr e, m⟩ ⟨n, .expr e', m⟩)
      (hb : e'.Bound m.distances cls scopes) (hv : Seen seen (.expr e') scopes os) :
      Fine points seen ⟨n, .expr e', m⟩ :=
    ⟨hpoints _ _ hc hp, hs, cls, scopes, os, hat, hb, .inl hv⟩
  -- after a part has been evaluated the machine is still at its place
  have next {e' e'' : Expr} {a : Value} {m₁ : Machine} (h : Fine points seen ⟨n, .expr e', m⟩)
      (heq : evaluate n e' m = .ok a m₁) (hmem : points ⟨n, .expr e'', m₁⟩)
      (hb : e''.Bound m.distances cls scopes) (hv : Seen seen (.expr e'') scopes os) :
      Fine points seen ⟨n, .expr e'', m₁⟩ := by
    have he := ((ih _ _ h).of_ok heq).1
    exact ⟨hmem, he.sound, cls, scopes, os, hat.mono he, he.distances ▸ hb, .inl hv⟩
  have hv := hv.plain (by rintro ref rfl; cases hc)
  cases hc with
  | group => exact here .group hb (hv.step hseen fun ctx r hr => ⟨_, .group, rfl, rfl, hr⟩)
  | unary => exact here .unary hb (hv.step hseen fun ctx r hr => ⟨_, .unary, rfl, rfl, hr⟩)
  | binaryLeft =>
    exact here .binaryLeft hb.1 (hv.step hseen fun ctx r hr => ⟨_, .binaryLeft, rfl, rfl, hr⟩)
  | @binaryRight _ l _ _ _ _ _ heq =>
    have hl := here .binaryLeft hb.1
      (hv.step hseen fun ctx r hr => ⟨_, .binaryLeft, rfl, rfl, hr⟩)
    exact next hl heq hmem hb.2 (hv.step hseen fun ctx r hr =>
      ⟨_, .binaryRight, rfl, rfl, (l.extends_resolve ctx.cls r).2.trans hr⟩)
  | logicalLeft =>
    exact here .logicalLeft hb.1 (hv.step hseen fun ctx r hr => ⟨_, .logicalLeft, rfl, rfl, hr⟩)
  | @logicalRight _ l _ _ _ _ _ heq =>
    have hl := here .logicalLeft hb.1
      (hv.step hseen fun ctx r hr => ⟨_, .logicalLeft, rfl, rfl, hr⟩)
    exact next hl heq hmem hb.2 (hv.step hseen fun ctx r hr =>
      ⟨_, .logicalRight, rfl, rfl, (l.extends_resolve ctx.cls r).2.trans hr⟩)
  | assign =>
    exact here .assign hb.1 (hv.step hseen fun ctx r hr => ⟨_, .assign, rfl, rfl, hr⟩)
  | callee =>
    exact here .callee hb.1 (hv.step hseen fun ctx r hr => ⟨_, .callee, rfl, rfl, hr⟩)
  | @arguments _ callee _ _ _ _ _ heq =>
    have hcallee := here .callee hb.1 (hv.step hseen fun ctx r hr => ⟨_, .callee, rfl, rfl, hr⟩)
    have he := ((ih _ _ hcallee).of_ok heq).1
    exact ⟨hmem, he.sound, cls, scopes, os, hat.mono he, he.distances ▸ hb.2,
      hv.step hseen fun ctx r hr =>
        ⟨_, .arguments, rfl, rfl, (callee.extends_resolve ctx.cls r).2.trans hr⟩⟩
  | @apply _ callee _ _ m₁ args _ _ _ heq heqs =>
    have hcallee := here .callee hb.1 (hv.step hseen fun ctx r hr => ⟨_, .callee, rfl, rfl, hr⟩)
    have he := ((ih _ _ hcallee).of_ok heq).1
    have hargs : Fine points seen ⟨n, .exprs args, m₁⟩ :=
      ⟨hpoints _ _ (.arguments heq) hp, he.sound, cls, scopes, os, hat.mono he,
        he.distances ▸ hb.2, hv.step hseen fun ctx r hr =>
          ⟨_, .arguments, rfl, rfl, (callee.extends_resolve ctx.cls r).2.trans hr⟩⟩
    have he₁ := ((ih _ _ hargs).of_ok heqs).1
    exact ⟨hmem, he₁.sound, trivial⟩
  | get => exact here .get hb (hv.step hseen fun ctx r hr => ⟨_, .get, rfl, rfl, hr⟩)
  | @setObject _ _ _ e =>
    exact here .setObject hb.1 (hv.step hseen fun ctx r hr =>
      ⟨_, .setObject, rfl, rfl, (e.extends_resolve ctx.cls r).2.trans hr⟩)
  | @setValue _ o _ _ _ _ e heq =>
    have ho := here .setObject hb.1 (hv.step hseen fun ctx r hr =>
      ⟨_, .setObject, rfl, rfl, (e.extends_resolve ctx.cls r).2.trans hr⟩)
    exact next ho heq hmem hb.2 (hv.step hseen fun ctx r hr => ⟨_, .setValue, rfl, rfl, hr⟩)

theorem Fine.exprs_step (h : Fine points seen ⟨n + 1, .exprs es, m⟩)
    (hc : Calls ⟨n + 1, .exprs es, m⟩ q) : Fine points seen q := by
  obtain ⟨hp, hs, cls, scopes, os, hat, hb, hv⟩ := h
  have hmem := hpoints _ _ hc hp
  cases hc with
  | head =>
    exact ⟨hmem, hs, cls, scopes, os, hat, hb.1, .inl
      (hv.step hseen fun ctx r hr => ⟨_, .head, rfl, rfl, hr⟩)⟩
  | @tail _ e _ _ _ es heq =>
    have hfirst : Fine points seen ⟨n, .expr e, m⟩ :=
      ⟨hpoints _ _ .head hp, hs, cls, scopes, os, hat, hb.1, .inl
        (hv.step hseen fun ctx r hr => ⟨_, .head, rfl, rfl, hr⟩)⟩
    have he := ((ih _ _ hfirst).of_ok heq).1
    exact ⟨hmem, he.sound, cls, scopes, os, hat.mono he, he.distances ▸ hb.2,
      hv.step hseen fun ctx r hr => ⟨_, .tail, rfl, rfl, (e.extends_resolve ctx.cls r).2.trans hr⟩⟩

omit hseen ih in
theorem Fine.apply_step (h : Fine points seen ⟨n + 1, .apply f paren args, m⟩)
    (hc : Calls ⟨n + 1, .apply f paren args, m⟩ q) : Fine points seen q := by
  obtain ⟨hp, hs, -⟩ := h
  have hmem := hpoints _ _ hc hp
  cases hc with
  | function hf ha => exact ⟨hmem, hs, hs.functions _ (Array.mem_of_getElem? hf), ha⟩
  | initializer hf ha heq =>
    obtain ⟨he, hbound, hdecl⟩ := (kept_construct (P := nowhere) hs (hs.method hf)
      (fun methods hd => ⟨_, hp, .initializer hf ha hd⟩) _).of_ok heq
    refine ⟨hmem, he.sound, hbound, ?_⟩
    rw [Closure.arity, hdecl]
    exact ha

omit ih in
theorem Fine.invoke_step (h : Fine points seen ⟨n + 1, .invoke f args, m⟩)
    (hc : Calls ⟨n + 1, .invoke f args, m⟩ q) : Fine points seen q := by
  obtain ⟨hp, hs, ⟨ctx, scopes, os, hl, hr, hn, hb, hpr, hv⟩, ha⟩ := h
  have hmem := hpoints _ _ hc hp
  cases hc with
  | body =>
    obtain ⟨⟨name, params, body⟩, s, isInitializer⟩ := f
    have hframe := isSome_get?_frame (show params.length = args.length from ha)
    have hsuper := get?_parameterScope_super hb.1
    have hready : Ready (parameterScope params :: scopes) := by
      refine hr.push fun other => ?_
      rw [get?_parameterScope]
      split <;> simp
    refine ⟨hmem, hs.inside s fun v hget => ?_, ctx, parameterScope params :: scopes, _,
      ⟨.inside hs hl hr hframe ⟨_, hp, .frame⟩, hn.push hsuper, hready.not_unready _⟩, hready,
      hb.2, hpr.2.2, hv.step hseen fun ctx r hr => ⟨_, .body, rfl, rfl, ?_⟩⟩
    · have := (hframe "super").mp (Option.isSome_of_eq_some hget)
      rw [hsuper] at this
      cases this
    · rw [Resolution.scopes_introduceAll params _ .empty r.scopes rfl, hr]
      rfl

theorem Fine.stmt_step (h : Fine points seen ⟨n + 1, .stmt s, m⟩)
    (hc : Calls ⟨n + 1, .stmt s, m⟩ q) : Fine points seen q := by
  obtain ⟨hp, hs, ctx, scopes, os, hat, hr, hb, hpr, hv⟩ := h
  have hmem := hpoints _ _ hc hp
  have here {e : Expr} (hc : Calls ⟨n + 1, .stmt s, m⟩ ⟨n, .expr e, m⟩)
      (hb : e.Bound m.distances ctx.cls scopes) (hv : Seen seen (.expr e) scopes os) :
      Fine points seen ⟨n, .expr e, m⟩ :=
    ⟨hpoints _ _ hc hp, hs, ctx.cls, scopes, os, hat, hb, .inl hv⟩
  -- a branch runs at the same place as its condition
  have next {c : Expr} {t : Stmt} {a : Value} {m₁ : Machine} (h : Fine points seen ⟨n, .expr c, m⟩)
      (heq : evaluate n c m = .ok a m₁) (hmem : points ⟨n, .stmt t, m₁⟩)
      (hb : t.Bound m.distances ctx scopes) (hpr : t.Proper) (hv : Seen seen (.stmt t) scopes os) :
      Fine points seen ⟨n, .stmt t, m₁⟩ := by
    have he := ((ih _ _ h).of_ok heq).1
    exact ⟨hmem, he.sound, ctx, scopes, os, hat.mono he, hr, he.distances ▸ hb, hpr, hv⟩
  cases hc with
  | expr => exact here .expr hb (hv.step hseen fun ctx r hr => ⟨_, .expr, rfl, rfl, hr⟩)
  | print => exact here .print hb (hv.step hseen fun ctx r hr => ⟨_, .print, rfl, rfl, hr⟩)
  | @var _ name e =>
    obtain ⟨hname, hfresh, hb⟩ := hb
    refine ⟨hmem, hs, ctx.cls, declare name.lexeme scopes, os,
      ⟨hat.stands.declare hfresh, hat.nested.declare hname.ne_super hname.ne_this, ?_⟩, hb, .inl
        (hv.step hseen fun ctx r hr => ⟨_, .var, rfl, rfl, hr ▸ Resolution.scopes_declare name r⟩)⟩
    rw [unready_declare_of_ne hname.ne_this]
    exact hr.not_unready _
  | block =>
    have hready : Ready (.empty :: scopes) := hr.push nofun
    exact ⟨hmem, hs.inside m.current nofun, ctx, .empty :: scopes, _,
      ⟨.inside hs hat.stands.lies hr (by simp) ⟨_, hp, .block⟩, hat.nested.push rfl,
        hready.not_unready _⟩, hready, hb, hpr,
      hv.step hseen fun ctx r hr => ⟨_, .block, rfl, rfl, by simp [Resolution.inside, hr]⟩⟩
  | ifThenCondition =>
    exact here .ifThenCondition hb.1
      (hv.step hseen fun ctx r hr => ⟨_, .ifThenCondition, rfl, rfl, hr⟩)
  | @ifThenBranch _ c _ _ _ _ heq =>
    have hcond := here .ifThenCondition hb.1
      (hv.step hseen fun ctx r hr => ⟨_, .ifThenCondition, rfl, rfl, hr⟩)
    exact next hcond heq hmem hb.2.1 hpr.2.1 (hv.step hseen fun ctx r hr =>
      ⟨_, .ifThenBranch, rfl, rfl, (c.extends_resolve ctx.cls r).2.trans hr⟩)
  | ifElseCondition =>
    exact here .ifElseCondition hb.1
      (hv.step hseen fun ctx r hr => ⟨_, .ifElseCondition, rfl, rfl, hr⟩)
  | @ifElseThen _ c _ _ _ _ _ heq =>
    have hcond := here .ifElseCondition hb.1
      (hv.step hseen fun ctx r hr => ⟨_, .ifElseCondition, rfl, rfl, hr⟩)
    exact next hcond heq hmem hb.2.1.1 hpr.2.1.1 (hv.step hseen fun ctx r hr =>
      ⟨_, .ifElseThen, rfl, rfl, (c.extends_resolve ctx.cls r).2.trans hr⟩)
  | @ifElseElse _ c _ _ _ t _ heq =>
    have hcond := here .ifElseCondition hb.1
      (hv.step hseen fun ctx r hr => ⟨_, .ifElseCondition, rfl, rfl, hr⟩)
    refine next hcond heq hmem hb.2.2.1 hpr.2.2.1 (hv.step hseen fun ctx r hr =>
      ⟨_, .ifElseElse, rfl, rfl, ?_⟩)
    show (t.resolve ctx (c.resolve ctx.cls r)).scopes = scopes
    rw [t.scopes_resolve ctx hpr.2.1.1, Stmt.scopesAfter_of_none hpr.2.1.2,
      (c.extends_resolve ctx.cls r).2, hr]
  | @loop _ c =>
    exact ⟨hmem, hs, ctx, scopes, os, hat, hr,
      ⟨hb.1, hv.step hseen fun ctx r hr => ⟨_, .loopCondition, rfl, rfl, hr⟩⟩, hb.2.1, hpr.2.1,
      hb.2.2, hv.step hseen fun ctx r hr =>
        ⟨_, .loopBody, rfl, rfl, (c.extends_resolve ctx.cls r).2.trans hr⟩⟩
  | ret =>
    exact here .ret hb (hv.step hseen fun ctx r hr =>
      ⟨_, .ret, rfl, rfl, (Resolution.scopes_useReturn _ _ _ r).trans hr⟩)
  | @superclass _ name e =>
    obtain ⟨hname, hfresh, hb, ⟨ref, rfl, hne⟩, -⟩ := hb
    refine ⟨hmem, hs, ctx.cls, scopes, os, hat, ?_, .inr ⟨ref, name.lexeme, rfl, hne,
      hv.step hseen fun ctx r hr => ⟨_, .superclass, rfl, rfl, ?_⟩⟩⟩
    · rw [Expr.Bound, distance_define_of_ne hne.symm, unready_define_of_ne hne.symm] at hb
      exact hb
    · rw [Resolution.scopes_checkSuperclass, Resolution.scopes_introduce, hr]

theorem Fine.stmts_step (h : Fine points seen ⟨n + 1, .stmts ss, m⟩)
    (hc : Calls ⟨n + 1, .stmts ss, m⟩ q) : Fine points seen q := by
  obtain ⟨hp, hs, ctx, scopes, os, hat, hr, hb, hpr, hv⟩ := h
  have hmem := hpoints _ _ hc hp
  have first {s : Stmt} {ss' : List Stmt} (heq : ss = s :: ss') :
      Fine points seen ⟨n, .stmt s, m⟩ := by
    subst heq
    exact ⟨hpoints _ _ .first hp, hs, ctx, scopes, os, hat, hr, hb.1, hpr.1,
      hv.step hseen fun ctx r hr => ⟨_, .first, rfl, rfl, hr⟩⟩
  cases hc with
  | first => exact first rfl
  | @rest _ s _ _ ss heq =>
    obtain ⟨he, hd⟩ := (ih _ _ (first rfl)).of_ok heq
    have hready := hr.scopesAfter s
    exact ⟨hmem, he.sound, ctx, s.scopesAfter scopes, os,
      ⟨hat.stands.after he hd, hat.nested.scopesAfter hpr.1, hready.not_unready _⟩, hready,
      he.distances ▸ hb.2, hpr.2,
      hv.step hseen fun ctx r hr => ⟨_, .rest, rfl, rfl, hr ▸ s.scopes_resolve ctx hpr.1 r⟩⟩

omit hseen in
theorem Fine.rounds_step (h : Fine points seen ⟨n + 1, .rounds c body, m⟩)
    (hc : Calls ⟨n + 1, .rounds c body, m⟩ q) : Fine points seen q := by
  obtain ⟨hp, hs, ctx, scopes, os, hat, hr, ⟨hbc, hvc⟩, hb, hpr, hd, hv⟩ := h
  have hmem := hpoints _ _ hc hp
  have hcond : Fine points seen ⟨n, .expr c, m⟩ :=
    ⟨hpoints _ _ .condition hp, hs, ctx.cls, scopes, os, hat, hbc, .inl hvc⟩
  have hround {m₁ : Machine} {v : Value} (heq : evaluate n c m = .ok v m₁)
      (ht : v.isTruthy = true) : Fine points seen ⟨n, .stmt body, m₁⟩ := by
    have he := ((ih _ _ hcond).of_ok heq).1
    exact ⟨hpoints _ _ (.round heq ht) hp, he.sound, ctx, scopes, os, hat.mono he, hr,
      he.distances ▸ hb, hpr, hv⟩
  cases hc with
  | condition => exact hcond
  | round heq ht => exact hround heq ht
  | again heq ht heq₁ =>
    have he := ((ih _ _ hcond).of_ok heq).1
    obtain ⟨he₁, hd₁⟩ := (ih _ _ (hround heq ht)).of_ok heq₁
    have he₂ := he.trans (he₁.still (hd₁.still hd))
    exact ⟨hmem, he₂.sound, ctx, scopes, os, hat.mono he₂, hr,
      ⟨he₂.distances ▸ hbc, hvc⟩, he₂.distances ▸ hb, hpr, hd, hv⟩

theorem Fine.step (h : Fine points seen ⟨n + 1, code, m⟩) (hc : Calls ⟨n + 1, code, m⟩ q) :
    Fine points seen q := by
  cases code with
  | expr => exact h.expr_step hpoints hseen ih hc
  | exprs => exact h.exprs_step hpoints hseen ih hc
  | apply => exact h.apply_step hpoints hc
  | invoke => exact h.invoke_step hpoints hseen hc
  | stmt => exact h.stmt_step hpoints hseen ih hc
  | stmts => exact h.stmts_step hpoints hseen ih hc
  | rounds => exact h.rounds_step hpoints ih hc

theorem Fine.expr_ends (h : Fine points seen ⟨n + 1, .expr e, m⟩) :
    Ends points seen ⟨n + 1, .expr e, m⟩ := by
  have hs := h.sound
  have next {code : Code} {m' : Machine} (hc : Calls ⟨n + 1, .expr e, m⟩ ⟨n, code, m'⟩) :
      Ends points seen ⟨n, code, m'⟩ := ih _ _ (h.step hpoints hseen ih hc)
  show Kept _ _ _ _ _ (evaluate (n + 1) e m)
  cases e with
  | literal => exact Kept.pure hs trivial
  | group => exact next .group
  | unary op e =>
    rw [evaluate]
    exact Kept.bind (next .unary) fun a m₁ heq he _ => (steady_unary op a).kept he.sound
  | binary l op r =>
    rw [evaluate]
    refine Kept.bind (next .binaryLeft) fun a m₁ heq _ _ => ?_
    exact Kept.bind (next (.binaryRight heq)) fun b m₂ _ he _ => (steady_binary op a b).kept he.sound
  | logical l op r =>
    rw [evaluate]
    refine Kept.bind (next .logicalLeft) fun a m₁ heq he _ => ?_
    cases hd : decides op a with
    | true => exact Kept.pure he.sound trivial
    | false => exact next (.logicalRight heq hd)
  | name ref => exact kept_read hs ref
  | receiver ref => exact kept_read hs ref
  | assign ref e =>
    rw [evaluate]
    obtain ⟨-, -, cls, scopes, os, -, hb, -⟩ := h
    refine Kept.bind (next .assign) fun v m₁ _ he _ => ?_
    exact Kept.bind (kept_assign he.sound hb.2.1 v) fun _ m₂ _ he _ => Kept.pure he.sound trivial
  | call callee paren args =>
    rw [evaluate]
    refine Kept.bind (next .callee) fun f m₁ heq _ _ => ?_
    exact Kept.bind (next (.arguments heq)) fun vs m₂ heqs _ _ => next (.apply heq heqs)
  | get o name =>
    rw [evaluate]
    refine Kept.bind (next .get) fun v m₁ heq he _ => ?_
    cases v with
    | object id =>
      exact kept_property he.sound fun obj f methods ho hfield hf hd =>
        ⟨_, h.mem, .method heq ho hfield hf hd⟩
    | _ => exact Kept.fail he.sound
  | set o name e =>
    rw [evaluate]
    refine Kept.bind (next .setObject) fun v m₁ heq he _ => ?_
    cases v with
    | object id =>
      refine Kept.bind (next (.setValue heq)) fun v m₂ _ he _ => ?_
      exact Kept.bind (kept_setField he.sound id _ v) fun _ _ _ he _ => Kept.pure he.sound trivial
    | _ => exact Kept.fail he.sound
  | inherited ref name =>
    obtain ⟨hp, -, cls, scopes, os, hat, hb, -⟩ := h
    obtain ⟨rfl, hlexeme, hdist⟩ := hb
    obtain ⟨d, parent, receiver, hd, hsuper, hthis⟩ := hat.superclass hs
    have hd' : m.distances[ref.id]? = some (d + 1) := by
      rw [hdist, hlexeme]
      exact hd
    exact kept_inherited hs hd' hsuper hthis fun f methods hf hmem =>
      ⟨_, hp, .inherited hd' hsuper hthis hf hmem⟩

theorem Fine.exprs_ends (h : Fine points seen ⟨n + 1, .exprs es, m⟩) :
    Ends points seen ⟨n + 1, .exprs es, m⟩ := by
  have next {code : Code} {m' : Machine} (hc : Calls ⟨n + 1, .exprs es, m⟩ ⟨n, code, m'⟩) :
      Ends points seen ⟨n, code, m'⟩ := ih _ _ (h.step hpoints hseen ih hc)
  show Kept _ _ _ _ _ (evaluateAll (n + 1) es m)
  cases es with
  | nil => exact Kept.pure h.sound trivial
  | cons e es =>
    rw [evaluateAll]
    refine Kept.bind (next .head) fun v m₁ heq _ _ => ?_
    exact Kept.bind (next (.tail heq)) fun vs m₂ _ he _ => Kept.pure he.sound trivial

theorem Fine.apply_ends (h : Fine points seen ⟨n + 1, .apply f paren args, m⟩) :
    Ends points seen ⟨n + 1, .apply f paren args, m⟩ := by
  have hs := h.sound
  have next {code : Code} {m' : Machine} (hc : Calls ⟨n + 1, .apply f paren args, m⟩ ⟨n, code, m'⟩) :
      Ends points seen ⟨n, code, m'⟩ := ih _ _ (h.step hpoints hseen ih hc)
  show Kept _ _ _ _ _ (apply (n + 1) f paren args m)
  cases f with
  | native id =>
    rw [apply]
    refine Kept.bind (Kept.get hs) ?_
    rintro _ m - - ⟨rfl, rfl⟩
    cases m.natives[id.index]? with
    | none => exact Kept.fail hs
    | some native =>
      refine Kept.bind (kept_checkArity hs paren native.arity args.length) ?_
      rintro _ m - - ⟨rfl, -⟩
      refine Kept.bind (Kept.heap hs) ?_
      rintro _ m - - ⟨rfl, rfl⟩
      cases native.body m.heap args with
      | ok v => exact Kept.pure hs trivial
      | error reason => exact Kept.fail hs
  | function id =>
    rw [apply]
    refine Kept.bind (Kept.heap hs) ?_
    rintro _ m - - ⟨rfl, rfl⟩
    cases hf : m.heap.functions[id.index]? with
    | none => exact Kept.fail hs
    | some f =>
      refine Kept.bind (kept_checkArity hs paren f.arity args.length) ?_
      rintro _ m - - ⟨rfl, harity⟩
      exact next (.function hf harity)
  | cls id =>
    rw [apply]
    refine Kept.bind (Kept.heap hs) ?_
    rintro _ m - - ⟨rfl, rfl⟩
    refine Kept.bind (kept_checkArity hs paren _ args.length) ?_
    rintro _ m - - ⟨rfl, harity⟩
    cases hf : m.heap.method? id initializerName with
    | none =>
      exact Kept.bind (kept_newObject hs id) fun o m₁ _ he _ => Kept.pure he.sound trivial
    | some f =>
      rw [hf] at harity
      refine Kept.bind (kept_newObject hs id) fun o m₁ hnew he hsame => ?_
      have hmade : ∀ methods, f.decl ∈ methods → Made points m₁.heap.nextScope (.receiver methods) := by
        intro methods hd
        rw [Heap.nextScope, hsame.1]
        exact ⟨_, h.mem, .initializer hf harity hd⟩
      have hsound := (hs.method hf).mono he.heap he.globals he.distances
      refine Kept.bind (kept_bindMethod he.sound hsound hmade (.object o)) fun g m₂ hbind he _ => ?_
      -- the two steps as the one that the call is described by
      have hboth : (do bindMethod f (.object (← newObject id)) : Run Closure) m = .ok g m₂ := by
        cases hnew
        exact hbind
      exact Kept.bind (next (.initializer hf harity hboth)) fun _ m₃ _ he _ =>
        Kept.pure he.sound trivial
  | _ => exact Kept.fail hs

theorem Fine.invoke_ends (h : Fine points seen ⟨n + 1, .invoke f args, m⟩) :
    Ends points seen ⟨n + 1, .invoke f args, m⟩ := by
  have hbody := ih _ _ (h.step hpoints hseen ih .body)
  show Kept _ _ _ _ _ (invoke (n + 1) f args m)
  rw [invoke, ← bind_assoc]
  exact Kept.bind (kept_inside hbody) fun c m₁ _ he _ => kept_yielded he.sound f c

theorem Fine.classDecl_ends
    (h : Fine points seen ⟨n + 1, .stmt (.classDecl name superclass methods), m⟩) :
    Ends points seen ⟨n + 1, .stmt (.classDecl name superclass methods), m⟩ := by
  have hs := h.sound
  have next {code : Code} {m' : Machine}
      (hc : Calls ⟨n + 1, .stmt (.classDecl name superclass methods), m⟩ ⟨n, code, m'⟩) :
      Ends points seen ⟨n, code, m'⟩ := ih _ _ (h.step hpoints hseen ih hc)
  obtain ⟨hp, -, ctx, scopes, os, hat, hr, hb, hpr, hv⟩ := h
  have hc : m.current.index < m.heap.scopes.size := Heap.chain_ne_nil_iff.mp hat.stands.lies.ne_nil
  show Kept _ _ _ _ _ (execute (n + 1) (.classDecl name superclass methods) m)
  cases superclass with
  | none =>
    rw [execute]
    have hm : MethodsSound (Made points) seen m.distances (Scopes.define name.lexeme scopes) os
        methods := by
      refine ⟨⟨.base, trivial, hb.2.2⟩, hpr.2.2.2, hv.step hseen fun ctx r hr =>
        ⟨_, .baseMethods, rfl, rfl, ?_⟩⟩
      simp [Resolution.inside, Resolution.scopes_introduce, hr]
    exact .bind (kept_declareClass hseen hs hat.stands hr hb.1 none hm) fun _ _ _ he hd =>
      .pure he.sound (.of_binds rfl hc (.refl nowhere hs) hd)
  | some e =>
    rw [execute]
    refine .bind (next .superclass).evolves.weaken fun v m₁ heq _ h => ?_
    cases v with
    | cls parent =>
      obtain ⟨he, -⟩ := h
      have hm : MethodsSound (Made points) seen m₁.distances
          (superScope :: Scopes.define name.lexeme scopes) (.superclass methods :: os)
            methods := by
        refine ⟨⟨.derived, .methods _, he.distances ▸ hb.2.2.2.2⟩, hpr.2.2.2,
          hv.step hseen fun ctx r hr => ⟨_, .derivedMethods, rfl, rfl, ?_⟩⟩
        simp [Resolution.inside, (e.extends_resolve .derived _).2, Resolution.scopes_introduce, hr]
      have hk := kept_declareClass hseen he.sound (hat.stands.mono he id) hr hb.1 (some parent)
        ⟨hm, _, hp, .superclass heq⟩
      rw [← he.current]
      exact .bind hk fun _ _ _ he₁ hd => .pure he₁.sound (.of_binds rfl hc he hd)
    | _ => exact .fail h.1.sound

theorem Fine.stmt_ends (h : Fine points seen ⟨n + 1, .stmt s, m⟩) :
    Ends points seen ⟨n + 1, .stmt s, m⟩ := by
  have hs := h.sound
  have next {code : Code} {m' : Machine} (hc : Calls ⟨n + 1, .stmt s, m⟩ ⟨n, code, m'⟩) :
      Ends points seen ⟨n, code, m'⟩ := ih _ _ (h.step hpoints hseen ih hc)
  obtain ⟨ctx, scopes, os, hat, hr, hb, hpr, hv⟩ := h.placed
  have hc : m.current.index < m.heap.scopes.size := Heap.chain_ne_nil_iff.mp hat.stands.lies.ne_nil
  show Kept _ _ _ _ _ (execute (n + 1) s m)
  cases s with
  | expr e =>
    rw [execute]
    exact .declares rfl hc (.bind (next .expr) fun _ _ _ he _ => .pure he.sound trivial)
  | print e =>
    rw [execute]
    refine .declares rfl hc (.bind (next .print) fun v _ _ he _ => ?_)
    exact .bind (kept_print he.sound v) fun _ _ _ he _ => .pure he.sound trivial
  | var name init =>
    cases init with
    | none =>
      rw [execute]
      exact .defines rfl hb.1 hc (.refl nowhere hs) .nil
    | some e =>
      rw [execute]
      exact .bind (next .var).evolves.weaken fun v m₁ _ _ h => .defines rfl hb.1 hc h.1 v
  | block body =>
    rw [execute]
    refine .declares rfl hc (.bind (.current hs) ?_)
    rintro _ m - - ⟨rfl, rfl⟩
    exact kept_inside (next .block)
  | ifThen c t =>
    rw [execute]
    refine .declares rfl hc (.bind (next .ifThenCondition) fun v m₁ heq he _ => ?_)
    cases ht : v.isTruthy with
    | true => exact .still hb.2.2 (next (.ifThenBranch heq ht))
    | false => exact .pure he.sound trivial
  | ifElse c t e =>
    rw [execute]
    refine .declares rfl hc (.bind (next .ifElseCondition) fun v m₁ heq he _ => ?_)
    cases ht : v.isTruthy with
    | true => exact .still hb.2.1.2 (next (.ifElseThen heq ht))
    | false => exact .still hb.2.2.2 (next (.ifElseElse heq ht))
  | loop c body =>
    rw [execute]
    exact .declares rfl hc (next .loop)
  | function decl =>
    have hn : Nested ({ ctx with function := .function } : Context).cls
        (Scopes.define decl.name.lexeme scopes) :=
      hat.nested.define hb.1.ne_super hb.1.ne_this
    refine (kept_function hs hat.stands hr hb.1 hn hb.2.2 hpr (hv.step hseen fun ctx r hr =>
      ⟨_, .function, rfl, rfl, ?_⟩)).mono (fun _ h => h) fun _ m' h other => ?_
    · rw [Resolution.scopes_introduce, hr]
    · simpa [Stmt.declared?] using h other
  | ret keyword value =>
    cases value with
    | none => exact .declares rfl hc (.pure hs trivial)
    | some e =>
      rw [execute]
      exact .declares rfl hc (.bind (next .ret) fun _ _ _ he _ => .pure he.sound trivial)
  | classDecl => exact h.classDecl_ends hpoints hseen ih

theorem Fine.stmts_ends (h : Fine points seen ⟨n + 1, .stmts ss, m⟩) :
    Ends points seen ⟨n + 1, .stmts ss, m⟩ := by
  have next {code : Code} {m' : Machine} (hc : Calls ⟨n + 1, .stmts ss, m⟩ ⟨n, code, m'⟩) :
      Ends points seen ⟨n, code, m'⟩ := ih _ _ (h.step hpoints hseen ih hc)
  show Kept _ _ _ _ _ (executeAll (n + 1) ss m)
  cases ss with
  | nil => exact Kept.pure h.sound trivial
  | cons s ss =>
    rw [executeAll]
    refine Kept.bind (next .first) fun c m₁ heq he _ => ?_
    cases c with
    | normal =>
      have hrest := next (.rest heq)
      rw [Ends, he.current] at hrest
      exact hrest
    | returned v => exact Kept.pure he.sound trivial

theorem Fine.rounds_ends (h : Fine points seen ⟨n + 1, .rounds c body, m⟩) :
    Ends points seen ⟨n + 1, .rounds c body, m⟩ := by
  have next {code : Code} {m' : Machine} (hc : Calls ⟨n + 1, .rounds c body, m⟩ ⟨n, code, m'⟩) :
      Ends points seen ⟨n, code, m'⟩ := ih _ _ (h.step hpoints hseen ih hc)
  show Kept _ _ _ _ _ (iterate (n + 1) c body m)
  rw [iterate]
  refine Kept.bind (next .condition) fun v m₁ heq he _ => ?_
  cases ht : v.isTruthy with
  | false => exact Kept.pure he.sound trivial
  | true =>
    obtain ⟨-, -, ctx, scopes, os, -, -, -, -, -, hd, -⟩ := h
    refine Kept.bind ((next (.round heq ht)).still hd) fun comp m₂ heq₁ he _ => ?_
    cases comp with
    | normal => exact next (.again heq ht heq₁)
    | returned v => exact Kept.pure he.sound trivial

theorem Fine.ends_succ (h : Fine points seen ⟨n + 1, code, m⟩) : Ends points seen ⟨n + 1, code, m⟩ := by
  cases code with
  | expr => exact h.expr_ends hpoints hseen ih
  | exprs => exact h.exprs_ends hpoints hseen ih
  | apply => exact h.apply_ends hpoints hseen ih
  | invoke => exact h.invoke_ends hpoints hseen ih
  | stmt => exact h.stmt_ends hpoints hseen ih
  | stmts => exact h.stmts_ends hpoints hseen ih
  | rounds => exact h.rounds_ends hpoints hseen ih

end Step

theorem Fine.ends (hpoints : ∀ p q, Calls p q → points p → points q)
    (hseen : ∀ v w, Resolves v w → seen v → seen w) (n : Nat) (code : Code) (m : Machine)
    (h : Fine points seen ⟨n, code, m⟩) : Ends points seen ⟨n, code, m⟩ := by
  induction n generalizing code m with
  | zero => cases code <;> exact Evolves.refl anywhere h.sound
  | succ n ih => exact h.ends_succ hpoints hseen ih

theorem Fine.calls (hpoints : ∀ p q, Calls p q → points p → points q)
    (hseen : ∀ v w, Resolves v w → seen v → seen w) (h : Fine points seen p) (hc : Calls p q) :
    Fine points seen q := by
  obtain ⟨_ | n, code, m⟩ := p
  · cases hc
  · exact h.step hpoints hseen (Fine.ends hpoints hseen n) hc

end Treewalk
