import Treewalk.Proofs.Scoping.Execution

namespace Treewalk

/-- What a place can stand in. -/
inductive Enclosure
  | block
  | function
  | method (name : String)
  | cls (hasSuperclass : Bool)
  deriving DecidableEq

namespace Enclosure

def isFunction : Enclosure → Bool
  | function | method _ => true
  | block | cls _ => false

def isClass : Enclosure → Bool
  | cls _ => true
  | block | function | method _ => false

end Enclosure

inductive Site
  | ret (hasValue : Bool)
  | receiver
  | inherited
  | subclass (name : String) (superclass : Option String)
  | scope (declared : List String)
  | var (name : String) (reads : List String)

/-- The rule for a site, by what is around it, innermost first. A variable with nothing around it is
global, and there is no scope of the global level. -/
def Site.Allowed (around : List Enclosure) : Site → Prop
  | ret hasValue => (∃ e ∈ around, e.isFunction) ∧
      (hasValue → around.find? (·.isFunction) ≠ some (.method initializerName))
  | receiver => ∃ e ∈ around, e.isClass
  | inherited => around.find? (·.isClass) = some (.cls true)
  | subclass name superclass => superclass ≠ some name
  | scope declared => declared.Nodup
  | var name reads => around ≠ [] → name ∉ reads

instance (around : List Enclosure) : (site : Site) → Decidable (site.Allowed around)
  | .ret _ => inferInstanceAs (Decidable (_ ∧ _))
  | .receiver => inferInstanceAs (Decidable (∃ e ∈ around, _))
  | .inherited => inferInstanceAs (Decidable (_ = _))
  | .subclass _ _ => inferInstanceAs (Decidable (_ ≠ _))
  | .scope _ => inferInstanceAs (Decidable (List.Nodup _))
  | .var name reads => inferInstanceAs (Decidable (around ≠ [] → name ∉ reads))

mutual

def Expr.reads : Expr → List String
  | .literal _ | .receiver _ | .inherited _ _ => []
  | .group e | .unary _ e | .get e _ | .assign _ e => e.reads
  | .binary l _ r | .logical l _ r | .set l _ r => l.reads ++ r.reads
  | .name ref => [ref.token.lexeme]
  | .call callee _ args => callee.reads ++ Expr.readsAll args

def Expr.readsAll : List Expr → List String
  | [] => []
  | e :: es => e.reads ++ Expr.readsAll es

end

def Expr.readsOption (e : Option Expr) : List String := (e.map Expr.reads).getD []

def Expr.named? : Expr → Option String
  | .name ref => some ref.token.lexeme
  | _ => none

/-- The names that a statement adds to the scope it stands in. A branch has no scope of its own. -/
def Stmt.declares : Stmt → List String
  | .var name _ | .classDecl name _ _ => [name.lexeme]
  | .function decl => [decl.name.lexeme]
  | .ifThen _ t | .loop _ t => t.declares
  | .ifElse _ t e => t.declares ++ e.declares
  | .expr _ | .print _ | .block _ | .ret _ _ => []

def Stmt.declaresAll (ss : List Stmt) : List String := ss.flatMap Stmt.declares

theorem Stmt.declaresAll_cons (s : Stmt) (ss : List Stmt) :
    Stmt.declaresAll (s :: ss) = s.declares ++ Stmt.declaresAll ss :=
  List.flatMap_cons

mutual

def Expr.sites (around : List Enclosure) : Expr → List (List Enclosure × Site)
  | .literal _ | .name _ => []
  | .group e | .unary _ e | .get e _ | .assign _ e => e.sites around
  | .binary l _ r | .logical l _ r | .set l _ r => l.sites around ++ r.sites around
  | .call callee _ args => callee.sites around ++ Expr.sitesAll around args
  | .receiver _ => [(around, .receiver)]
  | .inherited _ _ => [(around, .inherited)]

def Expr.sitesAll (around : List Enclosure) : List Expr → List (List Enclosure × Site)
  | [] => []
  | e :: es => e.sites around ++ Expr.sitesAll around es

end

def Expr.sitesOption (around : List Enclosure) (e : Option Expr) : List (List Enclosure × Site) :=
  (e.map (Expr.sites around)).getD []

mutual

def Stmt.sites (around : List Enclosure) : Stmt → List (List Enclosure × Site)
  | .expr e | .print e => e.sites around
  | .var name init =>
    (around, .var name.lexeme (Expr.readsOption init)) :: Expr.sitesOption around init
  | .block body =>
    (.block :: around, .scope (Stmt.declaresAll body)) :: Stmt.sitesAll (.block :: around) body
  | .ifThen c t | .loop c t => c.sites around ++ t.sites around
  | .ifElse c t e => c.sites around ++ (t.sites around ++ e.sites around)
  | .function decl => Stmt.sitesFunction (.function :: around) decl
  | .ret _ value => (around, .ret value.isSome) :: Expr.sitesOption around value
  | .classDecl _ none methods => Stmt.sitesMethods (.cls false :: around) methods
  | .classDecl name (some e) methods =>
    (around, .subclass name.lexeme e.named?) ::
      (e.sites (.cls true :: around) ++ Stmt.sitesMethods (.cls true :: around) methods)

def Stmt.sitesAll (around : List Enclosure) : List Stmt → List (List Enclosure × Site)
  | [] => []
  | s :: ss => s.sites around ++ Stmt.sitesAll around ss

def Stmt.sitesFunction (around : List Enclosure) :
    FunctionDecl Stmt → List (List Enclosure × Site)
  | ⟨_, params, body⟩ =>
    (around, .scope (params.map Token.lexeme ++ Stmt.declaresAll body)) ::
      Stmt.sitesAll around body

def Stmt.sitesMethods (around : List Enclosure) :
    List (FunctionDecl Stmt) → List (List Enclosure × Site)
  | [] => []
  | m :: ms => Stmt.sitesFunction (.method m.name.lexeme :: around) m ++ Stmt.sitesMethods around ms

end

def Permitted (sites : List (List Enclosure × Site)) : Prop := ∀ p ∈ sites, p.2.Allowed p.1

instance (sites : List (List Enclosure × Site)) : Decidable (Permitted sites) :=
  inferInstanceAs (Decidable (∀ p ∈ sites, _))

def WellScoped (stmts : List Stmt) : Prop := Permitted (Stmt.sitesAll [] stmts)

instance (stmts : List Stmt) : Decidable (WellScoped stmts) :=
  inferInstanceAs (Decidable (Permitted _))

@[simp] theorem permitted_nil : Permitted [] := nofun

@[simp] theorem permitted_cons : Permitted (p :: ps) ↔ p.2.Allowed p.1 ∧ Permitted ps :=
  List.forall_mem_cons

@[simp] theorem permitted_append : Permitted (ps ++ qs) ↔ Permitted ps ∧ Permitted qs :=
  List.forall_mem_append

def functionContext (around : List Enclosure) : FunctionContext :=
  match around.find? (·.isFunction) with
  | none => .outside
  | some (.method name) => if name = initializerName then .initializer else .method
  | some _ => .function

def classContext (around : List Enclosure) : ClassContext :=
  match around.find? (·.isClass) with
  | none => .outside
  | some (.cls true) => .derived
  | some _ => .base

def contextOf (around : List Enclosure) : Context := ⟨functionContext around, classContext around⟩

theorem cls_contextOf (around : List Enclosure) : (contextOf around).cls = classContext around :=
  rfl

theorem function_contextOf (around : List Enclosure) :
    (contextOf around).function = functionContext around := rfl

theorem allowed_ret_iff {hasValue : Bool} : (Site.ret hasValue).Allowed around ↔
    functionContext around ≠ .outside ∧ (hasValue → functionContext around ≠ .initializer) := by
  have hex : (∃ e ∈ around, e.isFunction) ↔ around.find? (·.isFunction) ≠ none := by simp
  change (∃ e ∈ around, e.isFunction) ∧ _ ↔ _
  rw [hex, functionContext]
  cases around.find? (·.isFunction) with
  | none => simp
  | some e =>
    cases e with
    | method name => by_cases hn : name = initializerName <;> simp [hn]
    | _ => simp

theorem allowed_receiver_iff : Site.receiver.Allowed around ↔ classContext around ≠ .outside := by
  have hex : (∃ e ∈ around, e.isClass) ↔ around.find? (·.isClass) ≠ none := by simp
  change (∃ e ∈ around, e.isClass) ↔ _
  rw [hex, classContext]
  split
  · next h => simp [h]
  · next h => simp [h]
  · next h => simp [h]

theorem allowed_inherited_iff :
    Site.inherited.Allowed around ↔ classContext around = .derived := by
  change around.find? (·.isClass) = some (.cls true) ↔ _
  rw [classContext]
  split
  · next h => simp [h]
  · next h => simp [h]
  · next e hne h =>
    rw [h]
    simpa using hne

open Scopes

namespace Scopes

variable {scopes outer : List StaticScope} {scope : StaticScope} {names more : List String}

def defineAll (names : List String) (scopes : List StaticScope) : List StaticScope :=
  names.foldl (fun scopes name => define name scopes) scopes

def FreshAll : List StaticScope → List String → Prop
  | _, [] => True
  | scopes, name :: names => Fresh scopes name ∧ FreshAll (define name scopes) names

theorem defineAll_eq_nil_iff : defineAll names scopes = [] ↔ scopes = [] := by
  induction names generalizing scopes with
  | nil => rfl
  | cons name names ih =>
    refine Iff.trans ih ?_
    cases scopes <;> simp [define]

theorem Ready.defineAll (h : Ready scopes) (names : List String) :
    Ready (defineAll names scopes) := by
  induction names generalizing scopes with
  | nil => exact h
  | cons name names ih => exact ih (h.define name)

theorem freshAll_append : FreshAll scopes (names ++ more) ↔
    FreshAll scopes names ∧ FreshAll (defineAll names scopes) more := by
  induction names generalizing scopes with
  | nil => simp [FreshAll, defineAll]
  | cons name names ih =>
    rw [List.cons_append, FreshAll, FreshAll, ih, and_assoc]
    rfl

theorem freshAll_global (names : List String) : FreshAll [] names := by
  induction names with
  | nil => trivial
  | cons name names ih => exact ⟨nofun, ih⟩

theorem freshAll_cons_iff : FreshAll (scope :: outer) names ↔
    names.Nodup ∧ ∀ name ∈ names, scope.get? name = none := by
  induction names generalizing scope with
  | nil => simp [FreshAll]
  | cons name names ih =>
    have hfresh : Fresh (scope :: outer) name ↔ scope.get? name = none := by simp [Fresh]
    rw [FreshAll, define, ih, hfresh, List.nodup_cons, List.forall_mem_cons]
    constructor
    · rintro ⟨hname, hnodup, hnames⟩
      refine ⟨⟨fun hmem => ?_, hnodup⟩, hname, fun other hother => ?_⟩
      · simpa using hnames name hmem
      · have h := hnames other hother
        rw [Bindings.get?_insert] at h
        split at h
        · cases h
        · exact h
    · rintro ⟨⟨hmem, hnodup⟩, hname, hnames⟩
      refine ⟨hname, hnodup, fun other hother => ?_⟩
      rw [Bindings.get?_insert, if_neg fun he : name = other => hmem (he ▸ hother)]
      exact hnames other hother

theorem freshAll_empty_iff : FreshAll (.empty :: outer) names ↔ names.Nodup := by
  rw [freshAll_cons_iff]
  exact and_iff_left fun _ _ => rfl

theorem fresh_iff_freshAll : Fresh scopes name ↔ FreshAll scopes [name] :=
  (and_iff_left trivial).symm

theorem unready_declare_iff (hr : Ready scopes) (hf : Fresh scopes name) :
    Unready (declare name scopes) other ↔ scopes ≠ [] ∧ other = name := by
  cases scopes with
  | nil => simp [Unready, declare]
  | cons scope outer =>
    have hget : scope.get? name = none := hf scope rfl
    have hc : scope.contains name = false := by simp [Bindings.contains, hget]
    have hready : scope.get? other ≠ some false := hr scope List.mem_cons_self other
    rw [declare, hc]
    by_cases hn : name = other
    · simp [Unready, hn]
    · simp [Unready, hn, Ne.symm hn, hready]

end Scopes

theorem ready_thisScope (name : String) : thisScope.get? name ≠ some false := by
  rw [thisScope, Bindings.get?_insert]
  split <;> simp

theorem ready_superScope (name : String) : superScope.get? name ≠ some false := by
  rw [superScope, Bindings.get?_insert]
  split <;> simp

theorem allowed_var_iff (hr : Ready scopes) (hg : scopes = [] ↔ around = [])
    (hf : Fresh scopes name) : (Site.var name reads).Allowed around ↔
      ∀ other ∈ reads, ¬ Unready (Scopes.declare name scopes) other := by
  simp only [unready_declare_iff hr hf, Site.Allowed, ne_eq, hg, not_and]
  constructor
  · rintro h other hmem hne rfl
    exact h hne hmem
  · intro h hne hmem
    exact h name hmem hne rfl

namespace Resolution

theorem quiet_trans (h₁ : Extends a r r₁) (h₂ : Extends b r₁ r₂) :
    r₂.faults = r.faults ↔ r₁.faults = r.faults ∧ r₂.faults = r₁.faults := by
  constructor
  · intro h
    have hle : r₁.faults.length ≤ r.faults.length := by simpa [h] using h₂.faults.length_le
    have hf : r.faults = r₁.faults := h₁.faults.eq_of_length_le hle
    exact ⟨hf.symm, h.trans hf⟩
  · rintro ⟨hf, hf'⟩
    exact hf'.trans hf

theorem faults_report_ne (fault : ResolutionFault) (token : Token) (r : Resolution) :
    (r.report fault token).faults ≠ r.faults := by
  simp [report]

theorem quiet_declare (name : Token) (r : Resolution) :
    (r.declare name).faults = r.faults ↔ Fresh r.scopes name.lexeme := by
  unfold declare Fresh
  split
  · next h => simp [h]
  · next scope outer h =>
    split
    · next hc =>
      have hc : scope.get? name.lexeme ≠ none := Option.isSome_iff_ne_none.mp hc
      simp [h, hc, faults_report_ne]
    · next hc =>
      have hc : scope.get? name.lexeme = none := by simpa [Bindings.contains] using hc
      simp [h, hc]

theorem faults_define (name : Token) (r : Resolution) : (r.define name).faults = r.faults := by
  unfold define
  split <;> rfl

theorem quiet_introduce (name : Token) (r : Resolution) :
    (r.introduce name).faults = r.faults ↔ Fresh r.scopes name.lexeme := by
  rw [introduce, faults_define, quiet_declare]

theorem quiet_readName (ref : Ref) (r : Resolution) :
    (r.readName ref).faults = r.faults ↔ ¬ Unready r.scopes ref.token.lexeme := by
  rw [readName, faults_bind, ← isUnready_iff]
  split
  · next h => simp [h, faults_report_ne]
  · next h => simp [h]

theorem quiet_useThis (cls : ClassContext) (ref : Ref) (r : Resolution) :
    (r.useThis cls ref).faults = r.faults ↔ cls ≠ .outside := by
  cases cls <;> simp [useThis, faults_report_ne, faults_bind]

theorem quiet_useSuper (cls : ClassContext) (ref : Ref) (r : Resolution) :
    (r.useSuper cls ref).faults = r.faults ↔ cls = .derived := by
  cases cls <;> simp [useSuper, faults_report_ne, faults_bind]

theorem quiet_useReturn (kind : FunctionContext) (keyword : Token) (hasValue : Bool)
    (r : Resolution) : (r.useReturn kind keyword hasValue).faults = r.faults ↔
      kind ≠ .outside ∧ (hasValue → kind ≠ .initializer) := by
  cases kind <;> cases hasValue <;> simp [useReturn, faults_report_ne]

theorem quiet_checkSuperclass (name : Token) (e : Expr) (r : Resolution) :
    (r.checkSuperclass name e).faults = r.faults ↔ e.named? ≠ some name.lexeme := by
  unfold checkSuperclass Expr.named?
  split
  · split
    · next h => simp [h, faults_report_ne]
    · next h => simp [h]
  · simp

end Resolution

open Resolution

mutual

theorem Expr.quiet_resolve (around : List Enclosure) : (e : Expr) → (r : Resolution) →
    ((e.resolve (classContext around) r).faults = r.faults ↔
      Permitted (e.sites around) ∧ ∀ name ∈ e.reads, ¬ Unready r.scopes name)
  | .literal _, r => by simp [Expr.resolve, Expr.sites, Expr.reads]
  | .group e, r | .unary _ e, r | .get e _, r => Expr.quiet_resolve around e r
  | .binary l _ e, r | .logical l _ e, r => by
    rw [Expr.resolve, quiet_trans (l.extends_resolve _ r).1 (e.extends_resolve _ _).1,
      Expr.quiet_resolve around l r, Expr.quiet_resolve around e, (l.extends_resolve _ r).2,
      Expr.sites, Expr.reads, permitted_append, List.forall_mem_append]
    exact and_and_and_comm
  | .set o _ v, r => by
    rw [Expr.resolve, quiet_trans (v.extends_resolve _ r).1 (o.extends_resolve _ _).1,
      Expr.quiet_resolve around v r, Expr.quiet_resolve around o, (v.extends_resolve _ r).2,
      Expr.sites, Expr.reads, permitted_append, List.forall_mem_append, and_comm]
    exact and_and_and_comm
  | .name ref, r => by
    rw [Expr.resolve, quiet_readName]
    simp [Expr.sites, Expr.reads]
  | .assign ref v, r => by
    rw [Expr.resolve, faults_bind, Expr.quiet_resolve around v r]
    rfl
  | .call callee _ args, r => by
    rw [Expr.resolve,
      quiet_trans (callee.extends_resolve _ r).1 (Expr.extends_resolveAll _ args _).1,
      Expr.quiet_resolve around callee r, Expr.quiet_resolveAll around args,
      (callee.extends_resolve _ r).2, Expr.sites, Expr.reads, permitted_append,
      List.forall_mem_append]
    exact and_and_and_comm
  | .receiver ref, r => by
    rw [Expr.resolve, quiet_useThis, ← allowed_receiver_iff]
    simp [Expr.sites, Expr.reads]
  | .inherited ref _, r => by
    rw [Expr.resolve, quiet_useSuper, ← allowed_inherited_iff]
    simp [Expr.sites, Expr.reads]

theorem Expr.quiet_resolveAll (around : List Enclosure) : (es : List Expr) → (r : Resolution) →
    ((Expr.resolveAll (classContext around) es r).faults = r.faults ↔
      Permitted (Expr.sitesAll around es) ∧ ∀ name ∈ Expr.readsAll es, ¬ Unready r.scopes name)
  | [], r => by simp [Expr.resolveAll, Expr.sitesAll, Expr.readsAll]
  | e :: es, r => by
    rw [Expr.resolveAll, quiet_trans (e.extends_resolve _ r).1 (Expr.extends_resolveAll _ es _).1,
      Expr.quiet_resolve around e r, Expr.quiet_resolveAll around es, (e.extends_resolve _ r).2,
      Expr.sitesAll, Expr.readsAll, permitted_append, List.forall_mem_append]
    exact and_and_and_comm

end

theorem Expr.quiet_resolveOption (around : List Enclosure) (e : Option Expr) (r : Resolution) :
    (Expr.resolveOption (classContext around) e r).faults = r.faults ↔
      Permitted (Expr.sitesOption around e) ∧
        ∀ name ∈ Expr.readsOption e, ¬ Unready r.scopes name := by
  cases e with
  | none => simp [Expr.resolveOption, Expr.sitesOption, Expr.readsOption]
  | some e => exact e.quiet_resolve around r

theorem scopes_introduceNames (params : List Token) (r : Resolution) :
    (params.foldl (fun r p => r.introduce p) r).scopes =
      defineAll (params.map Token.lexeme) r.scopes := by
  induction params generalizing r with
  | nil => rfl
  | cons p params ih =>
    rw [List.foldl_cons, ih, scopes_introduce]
    rfl

theorem quiet_introduceNames (params : List Token) (r : Resolution) :
    (params.foldl (fun r p => r.introduce p) r).faults = r.faults ↔
      FreshAll r.scopes (params.map Token.lexeme) := by
  induction params generalizing r with
  | nil => simp [FreshAll]
  | cons p params ih =>
    rw [List.foldl_cons, quiet_trans (extends_introduce p r) (extends_introduceAll params _), ih,
      quiet_introduce, scopes_introduce]
    rfl

theorem Stmt.scopes_resolve_declares (ctx : Context) : (s : Stmt) → (r : Resolution) →
    (s.resolve ctx r).scopes = defineAll s.declares r.scopes
  | .expr e, r | .print e, r => (e.extends_resolve ctx.cls r).2
  | .var name init, r => by
    rw [Stmt.resolve, Resolution.scopes_define, (Expr.extends_resolveOption ctx.cls init _).2,
      scopes_declare, define_declare]
    rfl
  | .block body, r => rfl
  | .ifThen c t, r | .loop c t, r => by
    rw [Stmt.resolve, Stmt.scopes_resolve_declares ctx t, (c.extends_resolve ctx.cls r).2]
    rfl
  | .ifElse c t e, r => by
    rw [Stmt.resolve, Stmt.scopes_resolve_declares ctx e, Stmt.scopes_resolve_declares ctx t,
      (c.extends_resolve ctx.cls r).2, Stmt.declares, defineAll, defineAll, defineAll,
      List.foldl_append]
  | .function decl, r => by
    rw [Stmt.resolve, Stmt.scopes_resolveFunction, scopes_introduce]
    rfl
  | .ret keyword value, r => by
    rw [Stmt.resolve, (Expr.extends_resolveOption ctx.cls value _).2, scopes_useReturn]
    rfl
  | .classDecl name superclass methods, r => by
    cases superclass with
    | none =>
      rw [Stmt.resolve, scopes_within, scopes_introduce]
      rfl
    | some e =>
      rw [Stmt.resolve, scopes_within, (e.extends_resolve .derived _).2, scopes_checkSuperclass,
        scopes_introduce]
      rfl

theorem Expr.quiet_resolve_of_ready (around : List Enclosure) (e : Expr) (hr : Ready r.scopes) :
    (e.resolve (classContext around) r).faults = r.faults ↔ Permitted (e.sites around) := by
  rw [e.quiet_resolve around r]
  exact and_iff_left fun name _ => hr.not_unready name

theorem Expr.quiet_resolveOption_of_ready (around : List Enclosure) (e : Option Expr)
    (hr : Ready r.scopes) :
    (Expr.resolveOption (classContext around) e r).faults = r.faults ↔
      Permitted (Expr.sitesOption around e) := by
  rw [Expr.quiet_resolveOption around e r]
  exact and_iff_left fun name _ => hr.not_unready name

mutual

theorem Stmt.quiet_resolve : (s : Stmt) → (around : List Enclosure) → (r : Resolution) →
    Ready r.scopes → (r.scopes = [] ↔ around = []) →
    ((s.resolve (contextOf around) r).faults = r.faults ↔
      Permitted (s.sites around) ∧ FreshAll r.scopes s.declares)
  | .expr e, around, r, hr, _ | .print e, around, r, hr, _ => by
    rw [Stmt.resolve, cls_contextOf, e.quiet_resolve_of_ready around hr]
    exact (and_iff_left trivial).symm
  | .var name init, around, r, hr, hg => by
    rw [Stmt.resolve, cls_contextOf, faults_define, quiet_trans (extends_declare name r)
      (Expr.extends_resolveOption _ init _).1, quiet_declare, Expr.quiet_resolveOption around init,
      scopes_declare, Stmt.sites, permitted_cons, Stmt.declares, ← fresh_iff_freshAll, and_comm]
    refine and_congr_left fun hf => ?_
    rw [← allowed_var_iff hr hg hf, and_comm]
  | .block body, around, r, hr, _ => by
    have hb := Stmt.quiet_resolveAll body (.block :: around) { r with scopes := .empty :: r.scopes }
      (hr.push nofun) (by simp)
    rw [freshAll_empty_iff, and_comm] at hb
    rw [Stmt.sites, permitted_cons]
    exact hb.trans (and_iff_left trivial).symm
  | .ifThen c t, around, r, hr, hg | .loop c t, around, r, hr, hg => by
    have hs := (c.extends_resolve (classContext around) r).2
    have ht := Stmt.quiet_resolve t around (c.resolve (classContext around) r) (hs ▸ hr) (hs ▸ hg)
    rw [hs] at ht
    rw [Stmt.resolve, cls_contextOf, quiet_trans (c.extends_resolve _ r).1
      (Stmt.extends_resolve _ t _), ht, c.quiet_resolve_of_ready around hr, Stmt.sites,
      permitted_append, and_assoc]
    rfl
  | .ifElse c t e, around, r, hr, hg => by
    have hs := (c.extends_resolve (classContext around) r).2
    have ht := Stmt.quiet_resolve t around (c.resolve (classContext around) r) (hs ▸ hr) (hs ▸ hg)
    have hs' := Stmt.scopes_resolve_declares (contextOf around) t
      (c.resolve (classContext around) r)
    rw [hs] at ht hs'
    have he := Stmt.quiet_resolve e around
      (t.resolve (contextOf around) (c.resolve (classContext around) r))
      (hs' ▸ hr.defineAll _) (by rw [hs', defineAll_eq_nil_iff]; exact hg)
    rw [hs'] at he
    rw [Stmt.resolve, cls_contextOf,
      quiet_trans ((c.extends_resolve _ r).1.trans (Stmt.extends_resolve _ t _))
        (Stmt.extends_resolve _ e _),
      quiet_trans (c.extends_resolve _ r).1 (Stmt.extends_resolve _ t _), he, ht,
      c.quiet_resolve_of_ready around hr, Stmt.sites,
      permitted_append, permitted_append, Stmt.declares, freshAll_append]
    exact ⟨fun ⟨⟨hc, ht, hft⟩, he, hfe⟩ => ⟨⟨hc, ht, he⟩, hft, hfe⟩,
      fun ⟨⟨hc, ht, he⟩, hft, hfe⟩ => ⟨⟨hc, ht, hft⟩, he, hfe⟩⟩
  | .function decl, around, r, hr, _ => by
    have hf := Stmt.quiet_resolveFunction decl .function around (r.introduce decl.name)
      (scopes_introduce decl.name r ▸ hr.define _)
    rw [Stmt.resolve, quiet_trans (extends_introduce decl.name r)
      (Stmt.extends_resolveFunction _ decl _), quiet_introduce, Stmt.declares,
      ← fresh_iff_freshAll, and_comm]
    exact and_congr_left fun _ => hf
  | .ret keyword value, around, r, hr, _ => by
    rw [Stmt.resolve, cls_contextOf, function_contextOf,
      quiet_trans (extends_useReturn _ keyword _ r) (Expr.extends_resolveOption _ value _).1,
      quiet_useReturn, ← allowed_ret_iff,
      Expr.quiet_resolveOption_of_ready around value (scopes_useReturn _ keyword _ r ▸ hr),
      Stmt.sites, permitted_cons]
    exact (and_iff_left trivial).symm
  | .classDecl name none methods, around, r, hr, _ => by
    have hr' : Ready (r.introduce name).scopes := scopes_introduce name r ▸ hr.define _
    have hm := Stmt.quiet_resolveMethods methods (.cls false :: around)
      { r.introduce name with scopes := thisScope :: (r.introduce name).scopes }
      (hr'.push ready_thisScope)
    rw [Stmt.resolve, quiet_trans (extends_introduce name r)
      (.within (Stmt.extends_resolveMethods .base methods _)), quiet_introduce, Stmt.declares,
      ← fresh_iff_freshAll, and_comm]
    exact and_congr_left fun _ => hm
  | .classDecl name (some e) methods, around, r, hr, _ => by
    have hr₁ : Ready ((r.introduce name).checkSuperclass name e).scopes := by
      rw [scopes_checkSuperclass, scopes_introduce]
      exact hr.define _
    -- the superclass is resolved before the scopes of `super` and `this` are there
    let r₂ := e.resolve .derived ((r.introduce name).checkSuperclass name e)
    have hr₂ : Ready r₂.scopes := by
      rw [(e.extends_resolve .derived _).2]
      exact hr₁
    have hext := (extends_introduce name r).trans (extends_checkSuperclass name e _)
    have hm := Stmt.quiet_resolveMethods methods (.cls true :: around)
      { r₂ with scopes := thisScope :: superScope :: r₂.scopes }
      ((hr₂.push ready_superScope).push ready_thisScope)
    have he := Expr.quiet_resolve_of_ready (.cls true :: around) e hr₁
    rw [Stmt.sites, permitted_cons, permitted_append, ← he, ← hm, Stmt.declares,
      ← fresh_iff_freshAll, Stmt.resolve,
      quiet_trans (hext.trans (e.extends_resolve _ _).1)
        (.within (.within (Stmt.extends_resolveMethods .derived methods _))),
      quiet_trans hext (e.extends_resolve _ _).1,
      quiet_trans (extends_introduce name r) (extends_checkSuperclass name e _), quiet_introduce,
      quiet_checkSuperclass]
    exact ⟨fun ⟨⟨⟨hn, hs⟩, he⟩, hm⟩ => ⟨⟨hs, he, hm⟩, hn⟩,
      fun ⟨⟨hs, he, hm⟩, hn⟩ => ⟨⟨⟨hn, hs⟩, he⟩, hm⟩⟩

theorem Stmt.quiet_resolveAll : (ss : List Stmt) → (around : List Enclosure) → (r : Resolution) →
    Ready r.scopes → (r.scopes = [] ↔ around = []) →
    ((Stmt.resolveAll (contextOf around) ss r).faults = r.faults ↔
      Permitted (Stmt.sitesAll around ss) ∧ FreshAll r.scopes (Stmt.declaresAll ss))
  | [], _, _, _, _ => by simp [Stmt.resolveAll, Stmt.sitesAll, Stmt.declaresAll, FreshAll]
  | s :: ss, around, r, hr, hg => by
    have hs := Stmt.scopes_resolve_declares (contextOf around) s r
    have hss := Stmt.quiet_resolveAll ss around (s.resolve (contextOf around) r)
      (hs ▸ hr.defineAll _) (by rw [hs, defineAll_eq_nil_iff]; exact hg)
    rw [hs] at hss
    rw [Stmt.resolveAll, quiet_trans (Stmt.extends_resolve _ s r) (Stmt.extends_resolveAll _ ss _),
      hss, Stmt.quiet_resolve s around r hr hg, Stmt.sitesAll, permitted_append,
      Stmt.declaresAll_cons, freshAll_append]
    exact and_and_and_comm

theorem Stmt.quiet_resolveFunction : (decl : FunctionDecl Stmt) → (e : Enclosure) →
    (around : List Enclosure) → (r : Resolution) → Ready r.scopes →
    ((Stmt.resolveFunction (contextOf (e :: around)) decl r).faults = r.faults ↔
      Permitted (Stmt.sitesFunction (e :: around) decl))
  | ⟨_, params, body⟩, e, around, r, hr => by
    have hopen : Ready (.empty :: r.scopes) := hr.push nofun
    have hs := scopes_introduceNames params { r with scopes := .empty :: r.scopes }
    have hb := Stmt.quiet_resolveAll body (e :: around)
      (params.foldl (fun r p => r.introduce p) { r with scopes := .empty :: r.scopes })
      (hs ▸ hopen.defineAll _) (by simp [hs, defineAll_eq_nil_iff])
    have hp := quiet_introduceNames params { r with scopes := .empty :: r.scopes }
    rw [hs] at hb
    rw [Stmt.sitesFunction, permitted_cons]
    refine (quiet_trans (extends_introduceAll params { r with scopes := .empty :: r.scopes })
      (Stmt.extends_resolveAll _ body _)).trans ?_
    rw [hp, hb, Site.Allowed, ← freshAll_empty_iff, freshAll_append]
    exact ⟨fun ⟨hp, hb, hd⟩ => ⟨⟨hp, hd⟩, hb⟩, fun ⟨⟨hp, hd⟩, hb⟩ => ⟨hp, hb, hd⟩⟩

theorem Stmt.quiet_resolveMethods : (ms : List (FunctionDecl Stmt)) →
    (around : List Enclosure) → (r : Resolution) → Ready r.scopes →
    ((Stmt.resolveMethods (classContext around) ms r).faults = r.faults ↔
      Permitted (Stmt.sitesMethods around ms))
  | [], _, _, _ => by simp [Stmt.resolveMethods, Stmt.sitesMethods]
  | m :: ms, around, r, hr => by
    have hm := Stmt.quiet_resolveFunction m (.method m.name.lexeme) around r hr
    have hms := Stmt.quiet_resolveMethods ms around
      (Stmt.resolveFunction (contextOf (.method m.name.lexeme :: around)) m r)
      (Stmt.scopes_resolveFunction _ m r ▸ hr)
    rw [Stmt.sitesMethods, permitted_append, ← hm, ← hms]
    exact quiet_trans (Stmt.extends_resolveFunction _ m r) (Stmt.extends_resolveMethods _ ms _)

end

/-- Resolution accepts exactly the programs that keep the rules of scoping. -/
theorem resolve_accepts_iff_wellScoped (stmts : List Stmt) (D : Distances) :
    (resolve stmts D).faults = [] ↔ WellScoped stmts := by
  have h := Stmt.quiet_resolveAll stmts [] ⟨[], D, []⟩ ready_nil (iff_of_true rfl rfl)
  rw [and_iff_left (freshAll_global _)] at h
  exact h

-- `var a = a; var a;` is accepted at the global level, but not in a block.
example :
    let a : Token := ⟨.identifier, "a", 1⟩
    let body : List Stmt := [.var a (some (.name ⟨0, a⟩)), .var a none]
    WellScoped body ∧ ¬ WellScoped [.block body] := by
  decide

end Treewalk
