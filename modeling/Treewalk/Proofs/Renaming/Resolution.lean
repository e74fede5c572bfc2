import Treewalk.Proofs.Renaming.Fits

namespace Treewalk

open Scopes

namespace Renaming

variable {ρ : Renaming} {marked : Bool} {marks : List Bool} {name : String}

def freed (ρ : Renaming) (marked : Bool) : String := if marked then ρ.old else ρ.new

theorem word_ne_freed (h : name ≠ ρ.new) : ρ.word marked name ≠ ρ.freed marked := by
  cases marked with
  | false => simpa [freed] using h
  | true =>
    by_cases hold : name = ρ.old
    · simp [word, freed, hold, Ne.symm (hold ▸ h)]
    · simp [word, freed, hold]

theorem word_eq_or_freed (a b : Bool) (name : String) :
    ρ.word a name = ρ.word b name ∨ ρ.word a name = ρ.freed b := by
  by_cases hold : name = ρ.old
  · cases a <;> cases b <;> simp [word, freed, hold]
  · exact .inl (by rw [word_of_ne a hold, word_of_ne b hold])

structure AlikeScope (ρ : Renaming) (marked : Bool) (scope scope' : StaticScope) : Prop where
  alike : ρ.Alike marked scope scope'
  free : scope'.get? (ρ.freed marked) = none

namespace AlikeScope

variable {scope scope' : StaticScope}

theorem empty (ρ : Renaming) (marked : Bool) : ρ.AlikeScope marked .empty .empty :=
  ⟨.empty ρ marked, rfl⟩

theorem insert (h : ρ.AlikeScope marked scope scope') (hn : name ≠ ρ.new) (ready : Bool) :
    ρ.AlikeScope marked (scope.insert name ready)
      (scope'.insert (ρ.word marked name) ready) := by
  refine ⟨h.alike.insert hn ready, ?_⟩
  rw [Bindings.get?_insert, if_neg (word_ne_freed hn), h.free]

theorem keyword (ρ : Renaming) (k : Keyword) :
    ρ.AlikeScope false (.insert .empty k.spelling true) (.insert .empty k.spelling true) := by
  have h := (empty ρ false).insert (keyword_ne_new ρ k) true
  rwa [word_keyword] at h

theorem get?_eq_some (h : ρ.AlikeScope marked scope scope') (hn : name ≠ ρ.new) (a : Bool)
    (hg : scope'.get? (ρ.word a name) = some ready) : scope.get? name = some ready := by
  obtain he | he := word_eq_or_freed a marked name
  · rwa [he, h.alike name hn] at hg
  · rw [he, h.free] at hg
    cases hg

end AlikeScope

inductive AlikeScopes (ρ : Renaming) : List Bool → List StaticScope → List StaticScope → Prop
  | nil : AlikeScopes ρ [] [] []
  | cons {marked : Bool} {scope scope' : StaticScope} {marks : List Bool}
      {scopes scopes' : List StaticScope} :
      ρ.AlikeScope marked scope scope' → AlikeScopes ρ marks scopes scopes' →
      AlikeScopes ρ (marked :: marks) (scope :: scopes) (scope' :: scopes')

namespace AlikeScopes

variable {scopes scopes' : List StaticScope}

theorem distance (h : ρ.AlikeScopes marks scopes scopes') (hn : name ≠ ρ.new) :
    Scopes.distance scopes'
        (ρ.word ((Scopes.distance scopes name).elim false (marks.getD · false)) name) =
      Scopes.distance scopes name := by
  induction h with
  | nil => rfl
  | @cons marked scope scope' marks scopes scopes' hs _ ih =>
    simp only [Scopes.distance, List.findIdx?_cons] at ih ⊢
    cases hc : scope.contains name with
    | true => simp [hs.alike.contains hn, hc]
    | false =>
      have hc' (a : Bool) : scope'.contains (ρ.word a name) = false := by
        rw [Bindings.contains, Option.isSome_eq_false_iff, Option.isNone_iff_eq_none]
        cases hg : scope'.get? (ρ.word a name) with
        | none => rfl
        | some ready => simp [Bindings.contains, hs.get?_eq_some hn a hg] at hc
      cases hd : List.findIdx? (·.contains name) scopes with
      | none =>
        simp only [hd, Option.elim_none] at ih
        simp only [hc', ih, Option.map_none, Option.elim_none, Bool.false_eq_true, if_false]
      | some d => simpa [hd, hc'] using ih

end AlikeScopes

end Renaming

structure Renaming.AlikeResolution (ρ : Renaming) (marks : List Bool) (r r' : Resolution) :
    Prop where
  scopes : ρ.AlikeScopes marks r.scopes r'.scopes
  distances : r'.distances = r.distances
  faults : r.faults = [] → r'.faults = []

open Resolution

namespace Renaming.AlikeResolution

variable {ρ : Renaming} {marks : List Bool} {r r' : Resolution} {D : Distances} {name : Token}
  {ref : Ref}

theorem report (h : ρ.AlikeResolution marks r r') (fault : ResolutionFault) (token : Token)
    (hs : s'.scopes = r'.scopes) (hd : s'.distances = r'.distances) :
    ρ.AlikeResolution marks (r.report fault token) s' := by
  refine ⟨?_, hd.trans h.distances, fun hf => ?_⟩
  · rw [hs]
    exact h.scopes
  · exact absurd hf (List.append_ne_nil_of_right_ne_nil _ (List.cons_ne_nil _ _))

theorem reportBoth (h : ρ.AlikeResolution marks r r') (fault : ResolutionFault)
    (token token' : Token) :
    ρ.AlikeResolution marks (r.report fault token) (r'.report fault token') :=
  h.report fault token rfl rfl

theorem declare (h : ρ.AlikeResolution marks r r') (hn : name.lexeme ≠ ρ.new) :
    ρ.AlikeResolution marks (r.declare name)
      (r'.declare (ρ.token (marks.headD false) name)) := by
  obtain ⟨scopes, distances, faults⟩ := r
  obtain ⟨scopes', distances', faults'⟩ := r'
  cases h.scopes with
  | nil => exact h
  | @cons marked scope scope' _ outer outer' hs hrest =>
    have hc : scope'.contains (ρ.token marked name).lexeme = scope.contains name.lexeme :=
      hs.alike.contains hn
    simp only [Resolution.declare, List.headD_cons, hc]
    split
    · exact h.reportBoth .redeclared name _
    · exact ⟨.cons (hs.insert hn false) hrest, h.distances, h.faults⟩

theorem define (h : ρ.AlikeResolution marks r r') (hn : name.lexeme ≠ ρ.new) :
    ρ.AlikeResolution marks (r.define name) (r'.define (ρ.token (marks.headD false) name)) := by
  obtain ⟨scopes, distances, faults⟩ := r
  obtain ⟨scopes', distances', faults'⟩ := r'
  cases h.scopes with
  | nil => exact h
  | cons hs hrest => exact ⟨.cons (hs.insert hn true) hrest, h.distances, h.faults⟩

theorem introduce (h : ρ.AlikeResolution marks r r') (hn : name.lexeme ≠ ρ.new) :
    ρ.AlikeResolution marks (r.introduce name)
      (r'.introduce (ρ.token (marks.headD false) name)) :=
  (h.declare hn).define hn

theorem introduceKept (h : ρ.AlikeResolution marks r r')
    (hk : ρ.Keeps (marks.headD false) name.lexeme) :
    ρ.AlikeResolution marks (r.introduce name) (r'.introduce name) := by
  have hi := h.introduce hk.1
  rwa [Renaming.token, hk.2] at hi

theorem introduceAll (h : ρ.AlikeResolution (marked :: marks) r r') (params : List Token)
    (hn : ∀ p ∈ params, p.lexeme ≠ ρ.new) :
    ρ.AlikeResolution (marked :: marks) (params.foldl (fun r p => r.introduce p) r)
      ((params.map (ρ.token marked)).foldl (fun r p => r.introduce p) r') := by
  induction params generalizing r r' with
  | nil => exact h
  | cons p params ih =>
    rw [List.forall_mem_cons] at hn
    exact ih (h.introduce hn.1) hn.2

theorem bindRef {ref' : Ref} (h : ρ.AlikeResolution marks r r') (hid : ref'.id = ref.id)
    (hd : distance r'.scopes ref'.token.lexeme = distance r.scopes ref.token.lexeme) :
    ρ.AlikeResolution marks (r.bind ref) (r'.bind ref') := by
  simp only [distance] at hd
  unfold Resolution.bind
  rw [hd, hid]
  cases List.findIdx? (·.contains ref.token.lexeme) r.scopes with
  | none => exact h
  | some d => exact ⟨h.scopes, by rw [h.distances], h.faults⟩

theorem bind (h : ρ.AlikeResolution marks r r') (hn : ref.token.lexeme ≠ ρ.new)
    (hd : D[ref.id]? = distance r.scopes ref.token.lexeme) :
    ρ.AlikeResolution marks (r.bind ref) (r'.bind (ρ.ref D marks ref)) := by
  refine h.bindRef rfl ?_
  have hdist := h.scopes.distance hn
  rwa [← hd] at hdist ⊢

theorem bindKeyword (h : ρ.AlikeResolution marks r r') (k : Keyword)
    (hk : ref.token.lexeme = k.spelling) :
    ρ.AlikeResolution marks (r.bind ref) (r'.bind ref) := by
  refine h.bindRef rfl ?_
  have hdist := h.scopes.distance (keyword_ne_new ρ k)
  rwa [word_keyword, ← hk] at hdist

theorem isUnready_ref (h : ρ.AlikeResolution marks r r') (hn : ref.token.lexeme ≠ ρ.new)
    (hu : r'.isUnready (ρ.ref D marks ref).token) : r.isUnready ref.token := by
  obtain ⟨scope', hmem, hg⟩ := (isUnready_iff _ r').mp hu
  refine (isUnready_iff _ r).mpr ?_
  obtain ⟨scopes, distances, faults⟩ := r
  obtain ⟨scopes', distances', faults'⟩ := r'
  cases h.scopes with
  | nil => cases hmem
  | @cons _ scope _ _ _ _ hs _ =>
    cases hmem
    exact ⟨scope, rfl, hs.get?_eq_some hn _ hg⟩

theorem readName (h : ρ.AlikeResolution marks r r') (hn : ref.token.lexeme ≠ ρ.new)
    (hd : D[ref.id]? = distance r.scopes ref.token.lexeme) :
    ρ.AlikeResolution marks (r.readName ref) (r'.readName (ρ.ref D marks ref)) := by
  unfold Resolution.readName
  split
  · refine bind ?_ hn hd
    split
    · exact h.reportBoth .readInInitializer ref.token _
    · exact h.report .readInInitializer ref.token rfl rfl
  · next hu =>
    rw [if_neg (mt (h.isUnready_ref hn) hu)]
    exact h.bind hn hd

theorem useReturn (h : ρ.AlikeResolution marks r r') (kind : FunctionContext) (keyword : Token)
    (hasValue : Bool) :
    ρ.AlikeResolution marks (r.useReturn kind keyword hasValue)
      (r'.useReturn kind keyword hasValue) := by
  cases kind with
  | outside => exact h.reportBoth .returnOutsideFunction keyword keyword
  | initializer =>
    cases hasValue with
    | true => exact h.reportBoth .valueFromInitializer keyword keyword
    | false => exact h
  | function | method => exact h

theorem useThis (h : ρ.AlikeResolution marks r r') (cls : ClassContext)
    (hk : ref.token.lexeme = Keyword.thisKw.spelling) :
    ρ.AlikeResolution marks (r.useThis cls ref) (r'.useThis cls ref) := by
  cases cls with
  | outside => exact h.reportBoth .thisOutsideClass ref.token ref.token
  | base | derived => exact h.bindKeyword .thisKw hk

theorem checkSuperclass (h : ρ.AlikeResolution marks r r') (D : Distances) (ref : Ref)
    (hn : name.lexeme ≠ ρ.new) :
    ρ.AlikeResolution marks (r.checkSuperclass name (.name ref))
      (r'.checkSuperclass name (.name (ρ.ref D marks ref))) := by
  simp only [Resolution.checkSuperclass]
  split
  · split
    · exact h.reportBoth .inheritsItself ref.token _
    · exact h.report .inheritsItself ref.token rfl rfl
  · next hne =>
    refine (if_neg fun he => ?_) ▸ h
    simp only [Renaming.ref, Renaming.token, word] at he
    split at he
    · exact hn he.symm
    · exact hne he

theorem within {scope scope' : StaticScope} {body body' : Resolution → Resolution}
    (h : ρ.AlikeResolution marks r r') (hs : ρ.AlikeScope marked scope scope')
    (hb : ∀ s s' : Resolution, s.scopes = scope :: r.scopes →
      ρ.AlikeResolution (marked :: marks) s s' →
      ρ.AlikeResolution (marked :: marks) (body s) (body' s')) :
    ρ.AlikeResolution marks (r.within scope body) (r'.within scope' body') := by
  have hin := hb { r with scopes := scope :: r.scopes } { r' with scopes := scope' :: r'.scopes }
    rfl ⟨.cons hs h.scopes, h.distances, h.faults⟩
  exact ⟨h.scopes, hin.distances, hin.faults⟩

end Renaming.AlikeResolution

variable {ρ : Renaming} {D : Distances}

mutual

theorem Expr.alike_resolve (cls : ClassContext) : (e : Expr) → {r r' : Resolution} →
    e.Bound D cls r.scopes → ρ.new ∉ e.names → ρ.AlikeResolution marks r r' →
    ρ.AlikeResolution marks (e.resolve cls r) ((e.rename ρ D marks).resolve cls r')
  | .literal _, _, _, _, _, h => h
  | .group e, _, _, hb, hn, h | .unary _ e, _, _, hb, hn, h | .get e _, _, _, hb, hn, h =>
    Expr.alike_resolve cls e hb hn h
  | .binary l _ e, r, _, hb, hn, h | .logical l _ e, r, _, hb, hn, h => by
    have hn := mt List.mem_append.mpr hn
    have hs := (l.extends_resolve cls r).2
    exact Expr.alike_resolve cls e (hs ▸ hb.2) (fun h => hn (.inr h))
      (Expr.alike_resolve cls l hb.1 (fun h => hn (.inl h)) h)
  | .set o _ v, r, _, hb, hn, h => by
    have hn := mt List.mem_append.mpr hn
    have hs := (v.extends_resolve cls r).2
    exact Expr.alike_resolve cls o (hs ▸ hb.1) (fun h => hn (.inl h))
      (Expr.alike_resolve cls v hb.2 (fun h => hn (.inr h)) h)
  | .name ref, _, _, hb, hn, h => h.readName (fun he => hn (he ▸ .head _)) hb.2.1
  | .assign ref v, r, _, hb, hn, h => by
    have hs := (v.extends_resolve cls r).2
    exact (Expr.alike_resolve cls v hb.1 (fun h => hn (.tail _ h)) h).bind
      (fun he => hn (he ▸ .head _)) (hs ▸ hb.2.2)
  | .call callee _ args, r, _, hb, hn, h => by
    have hn := mt List.mem_append.mpr hn
    have hs := (callee.extends_resolve cls r).2
    exact Expr.alike_resolveAll cls args (hs ▸ hb.2) (fun h => hn (.inr h))
      (Expr.alike_resolve cls callee hb.1 (fun h => hn (.inl h)) h)
  | .receiver _, _, _, hb, _, h => h.useThis cls hb.1
  | .inherited _ _, _, _, hb, _, h => by
    obtain ⟨rfl, hk, -⟩ := hb
    exact h.bindKeyword .superKw hk

theorem Expr.alike_resolveAll (cls : ClassContext) : (es : List Expr) → {r r' : Resolution} →
    Expr.BoundAll D cls r.scopes es → ρ.new ∉ Expr.namesAll es → ρ.AlikeResolution marks r r' →
    ρ.AlikeResolution marks (Expr.resolveAll cls es r)
      (Expr.resolveAll cls (Expr.renameAll ρ D marks es) r')
  | [], _, _, _, _, h => h
  | e :: es, r, _, hb, hn, h => by
    have hn := mt List.mem_append.mpr hn
    have hs := (e.extends_resolve cls r).2
    exact Expr.alike_resolveAll cls es (hs ▸ hb.2) (fun h => hn (.inr h))
      (Expr.alike_resolve cls e hb.1 (fun h => hn (.inl h)) h)

end

theorem Expr.alike_resolveOption (cls : ClassContext) (e : Option Expr) {r r' : Resolution}
    (hb : Expr.BoundOption D cls r.scopes e) (hn : ρ.new ∉ Expr.namesOption e)
    (h : ρ.AlikeResolution marks r r') :
    ρ.AlikeResolution marks (Expr.resolveOption cls e r)
      (Expr.resolveOption cls (e.map (Expr.rename ρ D marks)) r') := by
  cases e with
  | none => exact h
  | some e => exact Expr.alike_resolve cls e hb hn h

mutual

theorem Stmt.alike_resolve : (s : Stmt) → {ctx : Context} → {r r' : Resolution} →
    {path : List Nat} → {marks : List Bool} → s.Proper → s.Bound D ctx r.scopes →
    s.Fits ρ path marks → ρ.AlikeResolution marks r r' →
    ρ.AlikeResolution marks (s.resolve ctx r) ((s.rename ρ D path marks).resolve ctx r')
  | .expr e, ctx, _, _, _, _, _, hb, hf, h | .print e, ctx, _, _, _, _, _, hb, hf, h =>
    Expr.alike_resolve ctx.cls e hb hf h
  | .var name init, ctx, r, _, _, _, _, hb, hf, h => by
    have hs := scopes_declare name r
    exact (Expr.alike_resolveOption ctx.cls init (hs ▸ hb.2.2) hf.2 (h.declare hf.1)).define hf.1
  | .block body, _, _, _, _, _, hp, hb, hf, h =>
    h.within (.empty ρ _) fun _ _ hs h => Stmt.alike_resolveAll body hp (hs ▸ hb) hf h
  | .ifThen c t, ctx, r, _, _, _, hp, hb, hf, h | .loop c t, ctx, r, _, _, _, hp, hb, hf, h => by
    have hs := (c.extends_resolve ctx.cls r).2
    exact Stmt.alike_resolve t hp.2.1 (hs ▸ hb.2.1) hf.2 (Expr.alike_resolve ctx.cls c hb.1 hf.1 h)
  | .ifElse c t e, ctx, r, _, _, _, hp, hb, hf, h => by
    have hs := (c.extends_resolve ctx.cls r).2
    have hs' : (t.resolve ctx (c.resolve ctx.cls r)).scopes = r.scopes := by
      rw [t.scopes_resolve ctx hp.2.1.1, Stmt.scopesAfter_of_none hp.2.1.2, hs]
    have hc := Expr.alike_resolve ctx.cls c hb.1 hf.1 h
    have ht := Stmt.alike_resolve t hp.2.1.1 (hs ▸ hb.2.1.1) hf.2.1 hc
    exact Stmt.alike_resolve e hp.2.2.1 (hs' ▸ hb.2.2.1) hf.2.2 ht
  | .function decl, ctx, r, _, _, _, hp, hb, hf, h => by
    have hs := scopes_introduce decl.name r
    cases decl
    exact Stmt.alike_resolveFunction _ hp (hs ▸ hb.2.2) hf.2 (h.introduceKept hf.1)
  | .ret keyword value, ctx, r, _, _, _, _, hb, hf, h => by
    have hs := scopes_useReturn ctx.function keyword value.isSome r
    have h := h.useReturn ctx.function keyword value.isSome
    simp only [Stmt.rename, Stmt.resolve, Option.isSome_map]
    exact Expr.alike_resolveOption ctx.cls value (hs ▸ hb) hf h
  | .classDecl name none methods, ctx, r, _, _, _, hp, hb, hf, h => by
    have hs := scopes_introduce name r
    exact (h.introduceKept hf.1).within (.keyword ρ .thisKw) fun _ _ hs' h =>
      Stmt.alike_resolveMethods methods hp.2.2.2 (hs' ▸ hs ▸ hb.2.2) hf.2 h
  | .classDecl name (some e) methods, ctx, r, _, _, _, hp, hb, hf, h => by
    obtain ⟨ref, rfl⟩ := hp.2.2.1 e rfl
    have hs : ((r.introduce name).checkSuperclass name (.name ref)).scopes =
        Scopes.define name.lexeme r.scopes := by
      rw [scopes_checkSuperclass, scopes_introduce]
    have hs' := ((Expr.name ref).extends_resolve .derived
      ((r.introduce name).checkSuperclass name (.name ref))).2
    have h := (h.introduceKept hf.1).checkSuperclass D ref hf.1.1
    have h := Expr.alike_resolve .derived (.name ref) (hs ▸ hb.2.2.1) hf.2.1 h
    refine h.within (.keyword ρ .superKw) fun _ _ hsuper h =>
      h.within (.keyword ρ .thisKw) fun _ _ hthis h => ?_
    refine Stmt.alike_resolveMethods methods hp.2.2.2 ?_ hf.2.2 h
    rw [hthis, hsuper, hs', hs]
    exact hb.2.2.2.2

theorem Stmt.alike_resolveAll : (ss : List Stmt) → {ctx : Context} → {r r' : Resolution} →
    {path : List Nat} → {i : Nat} → {marks : List Bool} → Stmt.ProperAll ss →
    Stmt.BoundAll D ctx r.scopes ss → Stmt.FitsAll ρ path i marks ss →
    ρ.AlikeResolution marks r r' →
    ρ.AlikeResolution marks (Stmt.resolveAll ctx ss r)
      (Stmt.resolveAll ctx (Stmt.renameAll ρ D path i marks ss) r')
  | [], _, _, _, _, _, _, _, _, _, h => h
  | s :: ss, ctx, r, _, _, _, _, hp, hb, hf, h => by
    have hs := s.scopes_resolve ctx hp.1 r
    exact Stmt.alike_resolveAll ss hp.2 (hs ▸ hb.2) hf.2 (Stmt.alike_resolve s hp.1 hb.1 hf.1 h)

theorem Stmt.alike_resolveFunction : (decl : FunctionDecl Stmt) → {ctx : Context} →
    {r r' : Resolution} → {path : List Nat} → {marks : List Bool} → Stmt.ProperFunction decl →
    Stmt.BoundFunction D ctx r.scopes decl → Stmt.FitsFunction ρ path marks decl →
    ρ.AlikeResolution marks r r' →
    ρ.AlikeResolution marks (Stmt.resolveFunction ctx decl r)
      (Stmt.resolveFunction ctx (Stmt.renameFunction ρ D path marks decl) r')
  | ⟨_, params, body⟩, ctx, r, _, path, _, hp, hb, hf, h => by
    rw [Stmt.renameFunction, Stmt.resolveFunction, Stmt.resolveFunction]
    refine h.within (.empty ρ (ρ.isTarget path params body)) fun s _ hs h => ?_
    have hscopes := scopes_introduceAll params s .empty r.scopes hs
    exact Stmt.alike_resolveAll body hp.2.2 (hscopes ▸ hb.2) hf.2 (h.introduceAll params hf.1)

theorem Stmt.alike_resolveMethods : (ms : List (FunctionDecl Stmt)) → {cls : ClassContext} →
    {r r' : Resolution} → {path : List Nat} → {i : Nat} → {marks : List Bool} →
    Stmt.ProperMethods ms → Stmt.BoundMethods D cls r.scopes ms →
    Stmt.FitsMethods ρ path i marks ms → ρ.AlikeResolution marks r r' →
    ρ.AlikeResolution marks (Stmt.resolveMethods cls ms r)
      (Stmt.resolveMethods cls (Stmt.renameMethods ρ D path i marks ms) r')
  | [], _, _, _, _, _, _, _, _, _, h => h
  | ⟨name, params, body⟩ :: ms, cls, r, _, _, _, _, hp, hb, hf, h => by
    have hm := Stmt.alike_resolveFunction ⟨name, params, body⟩ hp.1 hb.1 hf.1 h
    refine Stmt.alike_resolveMethods ms hp.2 ?_ hf.2 hm
    rw [Stmt.scopes_resolveFunction]
    exact hb.2

end

end Treewalk
