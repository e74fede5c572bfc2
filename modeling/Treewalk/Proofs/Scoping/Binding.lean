import Treewalk.Proofs.Scoping.Shape

namespace Treewalk

namespace Scopes

def distance (scopes : List StaticScope) (name : String) : Option Nat :=
  scopes.findIdx? (·.contains name)

def declare (name : String) : List StaticScope → List StaticScope
  | [] => []
  | scope :: outer =>
    if scope.contains name then scope :: outer else scope.insert name false :: outer

def define (name : String) : List StaticScope → List StaticScope
  | [] => []
  | scope :: outer => scope.insert name true :: outer

/-- The innermost scope has the name, but not for reading. -/
def Unready (scopes : List StaticScope) (name : String) : Prop :=
  ∃ scope ∈ scopes.head?, scope.get? name = some false

def Fresh (scopes : List StaticScope) (name : String) : Prop :=
  ∀ scope ∈ scopes.head?, scope.get? name = none

end Scopes

theorem Bindings.insertEntry_insertEntry (name : String) (a b : α) (es : List (String × α)) :
    insertEntry name b (insertEntry name a es) = insertEntry name b es := by
  induction es with
  | nil => simp [insertEntry]
  | cons e es ih =>
    by_cases h : e.1 = name
    · simp [insertEntry, h]
    · simp [insertEntry, h, ih]

theorem Scopes.define_declare (name : String) (scopes : List StaticScope) :
    define name (declare name scopes) = define name scopes := by
  cases scopes with
  | nil => rfl
  | cons scope outer =>
    rw [declare]
    split
    · rfl
    · simp [define, Bindings.insert, Bindings.insertEntry_insertEntry]

open Scopes

namespace Resolution

theorem scopes_declare (name : Token) (r : Resolution) :
    (r.declare name).scopes = Scopes.declare name.lexeme r.scopes := by
  unfold declare Scopes.declare
  cases h : r.scopes with
  | nil => exact h
  | cons scope outer =>
    dsimp only
    split
    · exact h
    · rfl

theorem scopes_define (name : Token) (r : Resolution) :
    (r.define name).scopes = Scopes.define name.lexeme r.scopes := by
  unfold define Scopes.define
  cases h : r.scopes with
  | nil => exact h
  | cons scope outer => rfl

theorem scopes_introduce (name : Token) (r : Resolution) :
    (r.introduce name).scopes = Scopes.define name.lexeme r.scopes := by
  rw [introduce, scopes_define, scopes_declare, define_declare]

@[simp] theorem scopes_checkSuperclass (name : Token) (e : Expr) (r : Resolution) :
    (r.checkSuperclass name e).scopes = r.scopes := by
  unfold checkSuperclass
  split
  · split <;> rfl
  · rfl

@[simp] theorem scopes_useReturn (kind : FunctionContext) (keyword : Token) (hasValue : Bool)
    (r : Resolution) : (r.useReturn kind keyword hasValue).scopes = r.scopes := by
  unfold useReturn
  split
  · rfl
  · split <;> rfl
  · rfl
  · rfl

theorem scopes_readName (ref : Ref) (r : Resolution) : (r.readName ref).scopes = r.scopes := by
  unfold readName
  split <;> simp

theorem scopes_useThis (cls : ClassContext) (ref : Ref) (r : Resolution) :
    (r.useThis cls ref).scopes = r.scopes := by
  cases cls <;> simp [useThis]

theorem scopes_useSuper (cls : ClassContext) (ref : Ref) (r : Resolution) :
    (r.useSuper cls ref).scopes = r.scopes := by
  cases cls <;> simp [useSuper]

structure Extends (ids : List Nat) (r r' : Resolution) : Prop where
  faults : r.faults <+: r'.faults
  distances : ∀ i ∉ ids, r'.distances[i]? = r.distances[i]?

namespace Extends

theorem refl (r : Resolution) : Extends [] r r := ⟨List.prefix_refl _, fun _ _ => rfl⟩

theorem trans (h : Extends a r r₁) (h₁ : Extends b r₁ r₂) : Extends (a ++ b) r r₂ := by
  refine ⟨h.faults.trans h₁.faults, fun i hi => ?_⟩
  rw [List.mem_append, not_or] at hi
  rw [h₁.distances i hi.2, h.distances i hi.1]

theorem perm (h : Extends a r r') (hp : a.Perm b) : Extends b r r' :=
  ⟨h.faults, fun i hi => h.distances i (mt hp.mem_iff.mp hi)⟩

theorem split {D : Distances} (h₁ : Extends a r r₁) (h₂ : Extends b r₁ r₂)
    (hdisj : ∀ i ∈ a, ∀ j ∈ b, i ≠ j) (hfresh : ∀ i ∈ a ++ b, r.distances[i]? = none)
    (hagrees : ∀ i ∈ a ++ b, D[i]? = r₂.distances[i]?) :
    (∀ i ∈ a, D[i]? = r₁.distances[i]?) ∧ ∀ i ∈ b, r₁.distances[i]? = none := by
  refine ⟨fun i hi => ?_, fun i hi => ?_⟩
  · rw [hagrees i (List.mem_append_left b hi)]
    exact h₂.distances i fun hi' => hdisj i hi i hi' rfl
  · rw [h₁.distances i fun hi' => hdisj i hi' i hi rfl]
    exact hfresh i (List.mem_append_right a hi)

theorem within {body : Resolution → Resolution} {scope : StaticScope} {r : Resolution}
    (h : Extends ids { r with scopes := scope :: r.scopes }
      (body { r with scopes := scope :: r.scopes })) : Extends ids r (r.within scope body) :=
  ⟨h.faults, h.distances⟩

end Extends

theorem extends_report (fault : ResolutionFault) (token : Token) (r : Resolution) :
    Extends [] r (r.report fault token) :=
  ⟨List.prefix_append _ _, fun _ _ => rfl⟩

theorem extends_declare (name : Token) (r : Resolution) : Extends [] r (r.declare name) := by
  unfold declare
  split
  · exact .refl r
  · split
    · exact extends_report _ _ r
    · exact ⟨List.prefix_refl _, fun _ _ => rfl⟩

theorem extends_define (name : Token) (r : Resolution) : Extends [] r (r.define name) := by
  unfold define
  split
  · exact .refl r
  · exact ⟨List.prefix_refl _, fun _ _ => rfl⟩

theorem extends_introduce (name : Token) (r : Resolution) : Extends [] r (r.introduce name) :=
  (extends_declare name r).trans (extends_define name _)

theorem extends_bind (ref : Ref) (r : Resolution) : Extends [ref.id] r (r.bind ref) := by
  unfold bind
  split
  · exact ⟨List.prefix_refl _, fun _ _ => rfl⟩
  · refine ⟨List.prefix_refl _, fun i hi => ?_⟩
    rw [List.mem_singleton] at hi
    simp [Std.TreeMap.getElem?_insert, Ne.symm hi]

theorem extends_readName (ref : Ref) (r : Resolution) : Extends [ref.id] r (r.readName ref) := by
  unfold readName
  split
  · exact (extends_report _ _ r).trans (extends_bind ref _)
  · exact extends_bind ref r

theorem extends_useThis (cls : ClassContext) (ref : Ref) (r : Resolution) :
    Extends [ref.id] r (r.useThis cls ref) := by
  cases cls with
  | outside =>
    have h := extends_report .thisOutsideClass ref.token r
    exact ⟨h.faults, fun i _ => h.distances i (List.not_mem_nil)⟩
  | base | derived => exact extends_bind ref r

theorem extends_useSuper (cls : ClassContext) (ref : Ref) (r : Resolution) :
    Extends [ref.id] r (r.useSuper cls ref) := by
  cases cls with
  | outside | base => exact (extends_report _ _ r).trans (extends_bind ref _)
  | derived => exact extends_bind ref r

theorem extends_useReturn (kind : FunctionContext) (keyword : Token) (hasValue : Bool)
    (r : Resolution) : Extends [] r (r.useReturn kind keyword hasValue) := by
  unfold useReturn
  split
  · exact extends_report _ _ r
  · split
    · exact extends_report _ _ r
    · exact .refl r
  · exact .refl r
  · exact .refl r

theorem extends_checkSuperclass (name : Token) (e : Expr) (r : Resolution) :
    Extends [] r (r.checkSuperclass name e) := by
  unfold checkSuperclass
  split
  · split
    · exact extends_report _ _ r
    · exact .refl r
  · exact .refl r

theorem extends_introduceAll (params : List Token) (r : Resolution) :
    Extends [] r (params.foldl (fun r p => r.introduce p) r) := by
  induction params generalizing r with
  | nil => exact .refl r
  | cons p params ih => exact (extends_introduce p r).trans (ih _)

end Resolution

open Resolution

mutual

theorem Expr.extends_resolve (cls : ClassContext) : (e : Expr) → (r : Resolution) →
    Extends e.refs r (e.resolve cls r) ∧ (e.resolve cls r).scopes = r.scopes
  | .literal _, r => ⟨.refl r, rfl⟩
  | .group e, r | .unary _ e, r | .get e _, r => Expr.extends_resolve cls e r
  | .binary l _ e, r | .logical l _ e, r => by
    obtain ⟨hl, hs⟩ := Expr.extends_resolve cls l r
    obtain ⟨he, hs'⟩ := Expr.extends_resolve cls e (l.resolve cls r)
    exact ⟨hl.trans he, hs'.trans hs⟩
  | .set o _ v, r => by
    obtain ⟨hv, hs⟩ := Expr.extends_resolve cls v r
    obtain ⟨ho, hs'⟩ := Expr.extends_resolve cls o (v.resolve cls r)
    exact ⟨(hv.trans ho).perm List.perm_append_comm, hs'.trans hs⟩
  | .name ref, r => ⟨extends_readName ref r, scopes_readName ref r⟩
  | .assign ref v, r => by
    obtain ⟨hv, hs⟩ := Expr.extends_resolve cls v r
    exact ⟨hv.trans (extends_bind ref _), (scopes_bind ref _).trans hs⟩
  | .call callee _ args, r => by
    obtain ⟨hc, hs⟩ := Expr.extends_resolve cls callee r
    obtain ⟨ha, hs'⟩ := Expr.extends_resolveAll cls args (callee.resolve cls r)
    exact ⟨hc.trans ha, hs'.trans hs⟩
  | .receiver ref, r => ⟨extends_useThis cls ref r, scopes_useThis cls ref r⟩
  | .inherited ref _, r => ⟨extends_useSuper cls ref r, scopes_useSuper cls ref r⟩

theorem Expr.extends_resolveAll (cls : ClassContext) : (es : List Expr) → (r : Resolution) →
    Extends (Expr.refsAll es) r (Expr.resolveAll cls es r) ∧
      (Expr.resolveAll cls es r).scopes = r.scopes
  | [], r => ⟨.refl r, rfl⟩
  | e :: es, r => by
    obtain ⟨he, hs⟩ := Expr.extends_resolve cls e r
    obtain ⟨hes, hs'⟩ := Expr.extends_resolveAll cls es (e.resolve cls r)
    exact ⟨he.trans hes, hs'.trans hs⟩

end

theorem Expr.extends_resolveOption (cls : ClassContext) (e : Option Expr) (r : Resolution) :
    Extends (Expr.refsOption e) r (Expr.resolveOption cls e r) ∧
      (Expr.resolveOption cls e r).scopes = r.scopes := by
  cases e with
  | none => exact ⟨.refl r, rfl⟩
  | some e => exact Expr.extends_resolve cls e r

def Stmt.scopesAfter (s : Stmt) (scopes : List StaticScope) : List StaticScope :=
  match s.declared? with
  | some name => Scopes.define name.lexeme scopes
  | none => scopes

mutual

theorem Stmt.extends_resolve (ctx : Context) : (s : Stmt) → (r : Resolution) →
    Extends s.refs r (s.resolve ctx r)
  | .expr e, r | .print e, r => (e.extends_resolve ctx.cls r).1
  | .var name init, r => by
    have h := ((extends_declare name r).trans (Expr.extends_resolveOption ctx.cls init _).1).trans
      (extends_define name _)
    simpa [Stmt.refs, Stmt.resolve] using h
  | .block body, r => .within (Stmt.extends_resolveAll ctx body _)
  | .ifThen c t, r | .loop c t, r =>
    (c.extends_resolve ctx.cls r).1.trans (Stmt.extends_resolve ctx t _)
  | .ifElse c t e, r =>
    (c.extends_resolve ctx.cls r).1.trans ((Stmt.extends_resolve ctx t _).trans
      (Stmt.extends_resolve ctx e _))
  | .function decl, r =>
    (extends_introduce decl.name r).trans (Stmt.extends_resolveFunction _ decl _)
  | .ret keyword value, r =>
    (extends_useReturn _ keyword _ r).trans (Expr.extends_resolveOption ctx.cls value _).1
  | .classDecl name none methods, r =>
    (extends_introduce name r).trans (.within (Stmt.extends_resolveMethods .base methods _))
  | .classDecl name (some e) methods, r => by
    have h := (extends_introduce name r).trans ((extends_checkSuperclass name e _).trans
      (e.extends_resolve .derived _).1)
    exact h.trans (.within (.within (Stmt.extends_resolveMethods .derived methods _)))

theorem Stmt.extends_resolveAll (ctx : Context) : (ss : List Stmt) → (r : Resolution) →
    Extends (Stmt.refsAll ss) r (Stmt.resolveAll ctx ss r)
  | [], r => .refl r
  | s :: ss, r => (Stmt.extends_resolve ctx s r).trans (Stmt.extends_resolveAll ctx ss _)

theorem Stmt.extends_resolveFunction (ctx : Context) : (decl : FunctionDecl Stmt) →
    (r : Resolution) → Extends (Stmt.refsFunction decl) r (Stmt.resolveFunction ctx decl r)
  | ⟨_, params, body⟩, r => by
    have h := (extends_introduceAll params { r with scopes := .empty :: r.scopes }).trans
      (Stmt.extends_resolveAll ctx body _)
    exact ⟨h.faults, h.distances⟩

theorem Stmt.extends_resolveMethods (cls : ClassContext) : (ms : List (FunctionDecl Stmt)) →
    (r : Resolution) → Extends (Stmt.refsMethods ms) r (Stmt.resolveMethods cls ms r)
  | [], r => .refl r
  | m :: ms, r =>
    (Stmt.extends_resolveFunction _ m r).trans (Stmt.extends_resolveMethods cls ms _)

end

@[simp] theorem Stmt.scopes_resolveFunction (ctx : Context) (decl : FunctionDecl Stmt)
    (r : Resolution) : (Stmt.resolveFunction ctx decl r).scopes = r.scopes := by
  cases decl
  rfl

@[simp] theorem Stmt.scopes_resolveMethods (cls : ClassContext) (ms : List (FunctionDecl Stmt))
    (r : Resolution) : (Stmt.resolveMethods cls ms r).scopes = r.scopes := by
  induction ms generalizing r with
  | nil => rfl
  | cons m ms ih =>
    rw [Stmt.resolveMethods, ih]
    exact Stmt.scopes_resolveFunction _ m r

theorem Stmt.scopesAfter_of_none {s : Stmt} (h : s.declared? = none) (scopes : List StaticScope) :
    s.scopesAfter scopes = scopes := by
  rw [Stmt.scopesAfter, h]

theorem Stmt.scopes_resolve (ctx : Context) : (s : Stmt) → s.Proper → (r : Resolution) →
    (s.resolve ctx r).scopes = s.scopesAfter r.scopes
  | .expr e, _, r | .print e, _, r => (e.extends_resolve ctx.cls r).2
  | .var name init, _, r => by
    rw [Stmt.resolve, Resolution.scopes_define, (Expr.extends_resolveOption ctx.cls init _).2,
      scopes_declare, define_declare]
    rfl
  | .block body, _, r => rfl
  | .ifThen c t, h, r | .loop c t, h, r => by
    rw [Stmt.resolve, Stmt.scopes_resolve ctx t h.2.1, Stmt.scopesAfter_of_none h.2.2,
      (c.extends_resolve ctx.cls r).2]
    rfl
  | .ifElse c t e, h, r => by
    rw [Stmt.resolve, Stmt.scopes_resolve ctx e h.2.2.1, Stmt.scopesAfter_of_none h.2.2.2,
      Stmt.scopes_resolve ctx t h.2.1.1, Stmt.scopesAfter_of_none h.2.1.2,
      (c.extends_resolve ctx.cls r).2]
    rfl
  | .function decl, _, r => by
    rw [Stmt.resolve, Stmt.scopes_resolveFunction, scopes_introduce]
    rfl
  | .ret keyword value, _, r => by
    rw [Stmt.resolve, (Expr.extends_resolveOption ctx.cls value _).2, scopes_useReturn]
    rfl
  | .classDecl name none methods, _, r => by
    rw [Stmt.resolve, scopes_within, scopes_introduce]
    rfl
  | .classDecl name (some e) methods, _, r => by
    rw [Stmt.resolve, scopes_within, (e.extends_resolve .derived _).2, scopes_checkSuperclass,
      scopes_introduce]
    rfl

section Bound

variable (distances : Distances)

mutual

def Expr.Bound (cls : ClassContext) (scopes : List StaticScope) : Expr → Prop
  | .literal _ => True
  | .group e | .unary _ e | .get e _ => e.Bound cls scopes
  | .binary l _ r | .logical l _ r | .set l _ r => l.Bound cls scopes ∧ r.Bound cls scopes
  | .name ref => ref.token.IsName ∧ distances[ref.id]? = distance scopes ref.token.lexeme ∧
      ¬ Unready scopes ref.token.lexeme
  | .assign ref e => e.Bound cls scopes ∧ ref.token.IsName ∧
      distances[ref.id]? = distance scopes ref.token.lexeme
  | .call callee _ args => callee.Bound cls scopes ∧ Expr.BoundAll cls scopes args
  | .receiver ref => ref.token.lexeme = Keyword.thisKw.spelling ∧
      distances[ref.id]? = distance scopes ref.token.lexeme
  | .inherited ref _ => cls = .derived ∧ ref.token.lexeme = Keyword.superKw.spelling ∧
      distances[ref.id]? = distance scopes ref.token.lexeme

def Expr.BoundAll (cls : ClassContext) (scopes : List StaticScope) : List Expr → Prop
  | [] => True
  | e :: es => e.Bound cls scopes ∧ Expr.BoundAll cls scopes es

end

def Expr.BoundOption (cls : ClassContext) (scopes : List StaticScope) : Option Expr → Prop
  | none => True
  | some e => e.Bound distances cls scopes

def parameterScope (params : List Token) : StaticScope :=
  params.foldl (fun scope p => scope.insert p.lexeme true) .empty

mutual

def Stmt.Bound (ctx : Context) (scopes : List StaticScope) : Stmt → Prop
  | .expr e | .print e => e.Bound distances ctx.cls scopes
  | .var name init => name.IsName ∧ Fresh scopes name.lexeme ∧
      Expr.BoundOption distances ctx.cls (Scopes.declare name.lexeme scopes) init
  | .block body => Stmt.BoundAll ctx (.empty :: scopes) body
  | .ifThen c t => c.Bound distances ctx.cls scopes ∧ t.Bound ctx scopes ∧ t.declared? = none
  | .ifElse c t e => c.Bound distances ctx.cls scopes ∧
      (t.Bound ctx scopes ∧ t.declared? = none) ∧ e.Bound ctx scopes ∧ e.declared? = none
  | .loop c body => c.Bound distances ctx.cls scopes ∧ body.Bound ctx scopes ∧
      body.declared? = none
  | .function decl => decl.name.IsName ∧ Fresh scopes decl.name.lexeme ∧
      Stmt.BoundFunction { ctx with function := .function }
        (Scopes.define decl.name.lexeme scopes) decl
  | .ret _ value => Expr.BoundOption distances ctx.cls scopes value
  | .classDecl name none methods => name.IsName ∧ Fresh scopes name.lexeme ∧
      Stmt.BoundMethods .base (thisScope :: Scopes.define name.lexeme scopes) methods
  | .classDecl name (some e) methods => name.IsName ∧ Fresh scopes name.lexeme ∧
      e.Bound distances .derived (Scopes.define name.lexeme scopes) ∧
      (∃ ref, e = .name ref ∧ ref.token.lexeme ≠ name.lexeme) ∧
      Stmt.BoundMethods .derived
        (thisScope :: superScope :: Scopes.define name.lexeme scopes) methods

def Stmt.BoundAll (ctx : Context) (scopes : List StaticScope) : List Stmt → Prop
  | [] => True
  | s :: ss => s.Bound ctx scopes ∧ Stmt.BoundAll ctx (s.scopesAfter scopes) ss

def Stmt.BoundFunction (ctx : Context) (scopes : List StaticScope) : FunctionDecl Stmt → Prop
  | ⟨_, params, body⟩ => (∀ p ∈ params, p.IsName) ∧
      Stmt.BoundAll ctx (parameterScope params :: scopes) body

def Stmt.BoundMethods (cls : ClassContext) (scopes : List StaticScope) :
    List (FunctionDecl Stmt) → Prop
  | [] => True
  | m :: ms =>
    Stmt.BoundFunction ⟨if m.name.lexeme = initializerName then .initializer else .method, cls⟩
      scopes m ∧ Stmt.BoundMethods cls scopes ms

end

end Bound

namespace Resolution

/-- From `r` to `r'` nothing was reported, and the new occurrences `ids` have the distances that the
table gives them. -/
structure Settles (distances : Distances) (ids : List Nat) (r r' : Resolution) : Prop where
  nodup : ids.Nodup
  fresh : ∀ i ∈ ids, r.distances[i]? = none
  faults : r'.faults = r.faults
  agrees : ∀ i ∈ ids, distances[i]? = r'.distances[i]?

namespace Settles

theorem perm (h : Settles D a r r') (hp : a.Perm b) : Settles D b r r' :=
  ⟨hp.nodup_iff.mp h.nodup, fun i hi => h.fresh i (hp.mem_iff.mpr hi), h.faults,
    fun i hi => h.agrees i (hp.mem_iff.mpr hi)⟩

theorem split (h : Settles D (a ++ b) r r₂) (h₁ : Extends a r r₁) (h₂ : Extends b r₁ r₂) :
    Settles D a r r₁ ∧ Settles D b r₁ r₂ := by
  obtain ⟨ha, hb, hdisj⟩ := List.nodup_append.mp h.nodup
  have hle : r₁.faults.length ≤ r.faults.length := by
    simpa [h.faults] using h₂.faults.length_le
  have hf : r.faults = r₁.faults := h₁.faults.eq_of_length_le hle
  obtain ⟨hagrees, hfresh⟩ := h₁.split h₂ hdisj h.fresh h.agrees
  exact ⟨⟨ha, fun i hi => h.fresh i (List.mem_append_left b hi), hf.symm, hagrees⟩,
    ⟨hb, hfresh, h.faults.trans hf, fun i hi => h.agrees i (List.mem_append_right a hi)⟩⟩

theorem after (h : Settles D ids r r₂) (h₁ : Extends [] r r₁) (h₂ : Extends ids r₁ r₂) :
    Settles D [] r r₁ ∧ Settles D ids r₁ r₂ :=
  split h h₁ h₂

theorem before (h : Settles D ids r r₂) (h₁ : Extends ids r r₁) (h₂ : Extends [] r₁ r₂) :
    Settles D ids r r₁ := by
  rw [← List.append_nil ids] at h
  exact (h.split h₁ h₂).1

end Settles

theorem distances_bind (ref : Ref) (r : Resolution) (h : r.distances[ref.id]? = none) :
    (r.bind ref).distances[ref.id]? = distance r.scopes ref.token.lexeme := by
  unfold bind distance
  split
  · next hd => rw [h, hd]
  · next hd => simp [hd]

theorem isUnready_iff (name : Token) (r : Resolution) :
    r.isUnready name = true ↔ Unready r.scopes name.lexeme := by
  unfold isUnready Unready
  split
  · next h => simp [h]
  · next h => simp [h]

theorem Settles.bind (h : Settles D [ref.id] r (r.bind ref)) :
    D[ref.id]? = distance r.scopes ref.token.lexeme := by
  rw [h.agrees _ (List.mem_singleton_self _), distances_bind ref r
    (h.fresh _ (List.mem_singleton_self _))]

theorem faults_bind (ref : Ref) (r : Resolution) : (r.bind ref).faults = r.faults := by
  unfold bind
  split <;> rfl

theorem Settles.readName (h : Settles D [ref.id] r (r.readName ref)) :
    D[ref.id]? = distance r.scopes ref.token.lexeme ∧ ¬ Unready r.scopes ref.token.lexeme := by
  rw [← isUnready_iff]
  unfold Resolution.readName at h
  split at h
  · have hf := h.faults
    rw [faults_bind] at hf
    simp [report] at hf
  · next hu => exact ⟨h.bind, hu⟩

theorem Settles.declare (h : Settles D [] r (r.declare name)) : Fresh r.scopes name.lexeme := by
  have hf := h.faults
  unfold Resolution.declare at hf
  split at hf
  · next hs => simp [Fresh, hs]
  · next hs =>
    split at hf
    · simp [report] at hf
    · next hc =>
      rw [hs]
      rintro _ ⟨⟩
      simpa [Bindings.contains] using hc

theorem Settles.useThis (h : Settles D [ref.id] r (r.useThis cls ref)) :
    D[ref.id]? = distance r.scopes ref.token.lexeme := by
  cases cls with
  | outside => simpa [Resolution.useThis, report] using h.faults
  | base | derived => exact h.bind

theorem Settles.useSuper (h : Settles D [ref.id] r (r.useSuper cls ref)) :
    cls = .derived ∧ D[ref.id]? = distance r.scopes ref.token.lexeme := by
  cases cls with
  | outside | base => simpa [Resolution.useSuper, faults_bind, report] using h.faults
  | derived => exact ⟨rfl, h.bind⟩

theorem Settles.checkSuperclass (h : Settles D [] r (r.checkSuperclass name (.name ref))) :
    ref.token.lexeme ≠ name.lexeme := by
  intro he
  simpa [Resolution.checkSuperclass, he, report] using h.faults

theorem scopes_introduceAll (params : List Token) (r : Resolution) (scope : StaticScope)
    (outer : List StaticScope) (h : r.scopes = scope :: outer) :
    (params.foldl (fun r p => r.introduce p) r).scopes =
      params.foldl (fun scope p => scope.insert p.lexeme true) scope :: outer := by
  induction params generalizing r scope with
  | nil => exact h
  | cons p params ih =>
    rw [List.foldl_cons, List.foldl_cons]
    apply ih
    rw [scopes_introduce, h]
    rfl

end Resolution

variable {D : Distances}

mutual

theorem Expr.bound_of_settles : (e : Expr) → e.Proper → {r : Resolution} →
    Settles D e.refs r (e.resolve cls r) → e.Bound D cls r.scopes
  | .literal _, _, _, _ => trivial
  | .group e, hp, _, h | .unary _ e, hp, _, h | .get e _, hp, _, h => Expr.bound_of_settles e hp h
  | .binary l _ e, hp, r, h | .logical l _ e, hp, r, h => by
    obtain ⟨hl, hs⟩ := l.extends_resolve cls r
    obtain ⟨h₁, h₂⟩ := h.split hl (e.extends_resolve cls _).1
    exact ⟨Expr.bound_of_settles l hp.1 h₁, hs ▸ Expr.bound_of_settles e hp.2 h₂⟩
  | .set o _ v, hp, r, h => by
    obtain ⟨hv, hs⟩ := v.extends_resolve cls r
    obtain ⟨h₁, h₂⟩ := (h.perm List.perm_append_comm).split hv (o.extends_resolve cls _).1
    exact ⟨hs ▸ Expr.bound_of_settles o hp.1 h₂, Expr.bound_of_settles v hp.2 h₁⟩
  | .name ref, hp, r, h => ⟨hp, h.readName⟩
  | .assign ref v, hp, r, h => by
    obtain ⟨hv, hs⟩ := v.extends_resolve cls r
    obtain ⟨h₁, h₂⟩ := h.split hv (extends_bind ref _)
    exact ⟨Expr.bound_of_settles v hp.2 h₁, hp.1, hs ▸ h₂.bind⟩
  | .call callee _ args, hp, r, h => by
    obtain ⟨hc, hs⟩ := callee.extends_resolve cls r
    obtain ⟨h₁, h₂⟩ := h.split hc (Expr.extends_resolveAll cls args _).1
    exact ⟨Expr.bound_of_settles callee hp.1 h₁, hs ▸ Expr.boundAll_of_settles args hp.2 h₂⟩
  | .receiver ref, hp, r, h => ⟨hp, h.useThis⟩
  | .inherited ref _, hp, r, h => ⟨h.useSuper.1, hp, h.useSuper.2⟩

theorem Expr.boundAll_of_settles : (es : List Expr) → Expr.ProperAll es → {r : Resolution} →
    Settles D (Expr.refsAll es) r (Expr.resolveAll cls es r) → Expr.BoundAll D cls r.scopes es
  | [], _, _, _ => trivial
  | e :: es, hp, r, h => by
    obtain ⟨he, hs⟩ := e.extends_resolve cls r
    obtain ⟨h₁, h₂⟩ := h.split he (Expr.extends_resolveAll cls es _).1
    exact ⟨Expr.bound_of_settles e hp.1 h₁, hs ▸ Expr.boundAll_of_settles es hp.2 h₂⟩

end

theorem Expr.boundOption_of_settles {e : Option Expr} {r : Resolution} (hp : Expr.ProperOption e)
    (h : Settles D (Expr.refsOption e) r (Expr.resolveOption cls e r)) :
    Expr.BoundOption D cls r.scopes e := by
  cases e with
  | none => trivial
  | some e => exact Expr.bound_of_settles e hp h

theorem Resolution.Settles.within {body : Resolution → Resolution} {scope : StaticScope}
    {r : Resolution} (h : Settles D ids r (r.within scope body)) :
    Settles D ids { r with scopes := scope :: r.scopes }
      (body { r with scopes := scope :: r.scopes }) :=
  ⟨h.nodup, h.fresh, h.faults, h.agrees⟩

mutual

theorem Stmt.bound_of_settles : (s : Stmt) → s.Proper → {ctx : Context} → {r : Resolution} →
    Settles D s.refs r (s.resolve ctx r) → s.Bound D ctx r.scopes
  | .expr e, hp, _, _, h | .print e, hp, _, _, h => Expr.bound_of_settles e hp h
  | .var name init, hp, ctx, r, h => by
    have hinit := (Expr.extends_resolveOption ctx.cls init (r.declare name)).1
    have hrest := hinit.trans (extends_define name _)
    rw [List.append_nil] at hrest
    obtain ⟨h₁, h₂⟩ := Settles.after h (extends_declare name r) hrest
    refine ⟨hp.1, h₁.declare, ?_⟩
    rw [← scopes_declare]
    exact Expr.boundOption_of_settles hp.2 (h₂.before hinit (extends_define name _))
  | .block body, hp, _, _, h => Stmt.boundAll_of_settles body hp h.within
  | .ifThen c t, hp, ctx, r, h | .loop c t, hp, ctx, r, h => by
    obtain ⟨hc, hs⟩ := c.extends_resolve ctx.cls r
    obtain ⟨h₁, h₂⟩ := h.split hc (t.extends_resolve ctx _)
    exact ⟨c.bound_of_settles hp.1 h₁, hs ▸ Stmt.bound_of_settles t hp.2.1 h₂, hp.2.2⟩
  | .ifElse c t e, hp, ctx, r, h => by
    obtain ⟨hc, hs⟩ := c.extends_resolve ctx.cls r
    have ht := t.extends_resolve ctx (c.resolve ctx.cls r)
    have hs' : (t.resolve ctx (c.resolve ctx.cls r)).scopes = r.scopes := by
      rw [t.scopes_resolve ctx hp.2.1.1, Stmt.scopesAfter_of_none hp.2.1.2, hs]
    obtain ⟨h₁, h₂⟩ := h.split hc (ht.trans (e.extends_resolve ctx _))
    obtain ⟨h₂, h₃⟩ := h₂.split ht (e.extends_resolve ctx _)
    exact ⟨c.bound_of_settles hp.1 h₁, ⟨hs ▸ Stmt.bound_of_settles t hp.2.1.1 h₂, hp.2.1.2⟩,
      hs' ▸ Stmt.bound_of_settles e hp.2.2.1 h₃, hp.2.2.2⟩
  | .function decl, hp, ctx, r, h => by
    have hname : decl.name.IsName := by
      cases decl
      exact hp.1
    obtain ⟨h₁, h₂⟩ := Settles.after h (extends_introduce decl.name r)
      (Stmt.extends_resolveFunction _ decl _)
    obtain ⟨h₁, -⟩ := h₁.after (extends_declare decl.name r)
      (extends_define decl.name _)
    refine ⟨hname, h₁.declare, ?_⟩
    rw [← scopes_introduce]
    exact Stmt.boundFunction_of_settles decl hp h₂
  | .ret keyword value, hp, ctx, r, h => by
    obtain ⟨-, h₂⟩ := Settles.after h (extends_useReturn _ keyword _ r)
      (Expr.extends_resolveOption ctx.cls value _).1
    have hb := Expr.boundOption_of_settles hp h₂
    rwa [scopes_useReturn] at hb
  | .classDecl name none methods, hp, ctx, r, h => by
    obtain ⟨h₁, h₂⟩ := Settles.after h (extends_introduce name r)
      (.within (Stmt.extends_resolveMethods .base methods _))
    obtain ⟨h₁, -⟩ := h₁.after (extends_declare name r) (extends_define name _)
    refine ⟨hp.1, h₁.declare, ?_⟩
    rw [← scopes_introduce]
    exact Stmt.boundMethods_of_settles methods hp.2.2.2 h₂.within
  | .classDecl name (some e) methods, hp, ctx, r, h => by
    obtain ⟨ref, rfl⟩ := hp.2.2.1 e rfl
    have hcheck := extends_checkSuperclass name (.name ref) (r.introduce name)
    have hread := ((Expr.name ref).extends_resolve .derived
      ((r.introduce name).checkSuperclass name (.name ref))).1
    have hmethods := Stmt.extends_resolveMethods .derived methods
    obtain ⟨h₁, h₂⟩ := h.split ((extends_introduce name r).trans (hcheck.trans hread))
      (.within (.within (hmethods _)))
    obtain ⟨h₀, h₁⟩ := h₁.after (extends_introduce name r) (hcheck.trans hread)
    obtain ⟨h₀, -⟩ := h₀.after (extends_declare name r) (extends_define name _)
    obtain ⟨hself, h₁⟩ := h₁.after hcheck hread
    have hb := Expr.bound_of_settles (.name ref) hp.2.1 h₁
    have hm := Stmt.boundMethods_of_settles methods hp.2.2.2 h₂.within.within
    rw [((Expr.name ref).extends_resolve .derived _).2] at hm
    rw [scopes_checkSuperclass, scopes_introduce] at hb hm
    exact ⟨hp.1, h₀.declare, hb, ⟨ref, rfl, hself.checkSuperclass⟩, hm⟩

theorem Stmt.boundAll_of_settles : (ss : List Stmt) → Stmt.ProperAll ss → {ctx : Context} →
    {r : Resolution} → Settles D (Stmt.refsAll ss) r (Stmt.resolveAll ctx ss r) →
      Stmt.BoundAll D ctx r.scopes ss
  | [], _, _, _, _ => trivial
  | s :: ss, hp, ctx, r, h => by
    obtain ⟨h₁, h₂⟩ := h.split (s.extends_resolve ctx r) (Stmt.extends_resolveAll ctx ss _)
    refine ⟨Stmt.bound_of_settles s hp.1 h₁, ?_⟩
    rw [← s.scopes_resolve ctx hp.1]
    exact Stmt.boundAll_of_settles ss hp.2 h₂

theorem Stmt.boundFunction_of_settles : (decl : FunctionDecl Stmt) → Stmt.ProperFunction decl →
    {ctx : Context} → {r : Resolution} →
      Settles D (Stmt.refsFunction decl) r (Stmt.resolveFunction ctx decl r) →
        Stmt.BoundFunction D ctx r.scopes decl
  | ⟨_, params, body⟩, hp, ctx, r, h => by
    have hin : Settles D (Stmt.refsAll body) r (r.within .empty fun r =>
        Stmt.resolveAll ctx body (params.foldl (fun r p => r.introduce p) r)) := h
    obtain ⟨-, h₂⟩ := hin.within.after (extends_introduceAll params _)
      (Stmt.extends_resolveAll ctx body _)
    have hb := Stmt.boundAll_of_settles body hp.2.2 h₂
    rw [scopes_introduceAll params _ .empty r.scopes rfl] at hb
    exact ⟨hp.2.1, hb⟩

theorem Stmt.boundMethods_of_settles : (ms : List (FunctionDecl Stmt)) → Stmt.ProperMethods ms →
    {cls : ClassContext} → {r : Resolution} →
      Settles D (Stmt.refsMethods ms) r (Stmt.resolveMethods cls ms r) →
        Stmt.BoundMethods D cls r.scopes ms
  | [], _, _, _, _ => trivial
  | m :: ms, hp, cls, r, h => by
    obtain ⟨h₁, h₂⟩ := h.split (Stmt.extends_resolveFunction _ m r)
      (Stmt.extends_resolveMethods cls ms _)
    have hms := Stmt.boundMethods_of_settles ms hp.2 h₂
    rw [Stmt.scopes_resolveFunction] at hms
    exact ⟨Stmt.boundFunction_of_settles m hp.1 h₁, hms⟩

end

end Treewalk
