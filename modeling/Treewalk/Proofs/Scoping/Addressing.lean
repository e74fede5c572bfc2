import Mathlib
import Treewalk.Proofs.Grammar.Numbering
import Treewalk.Proofs.Scoping.Outline
import Treewalk.Proofs.Scoping.WellScoped

namespace Treewalk

namespace Mark

def Flat (marks : List Mark) : Prop := ∀ stack, trail marks stack = stack

def Level (marks : List Mark) : Prop :=
  ∀ stack, (trail marks stack).length = stack.length ∧ (trail marks stack).tail = stack.tail

theorem Flat.append (ha : Flat a) (hb : Flat b) : Flat (a ++ b) := fun stack => by
  rw [trail_append, ha, hb]

theorem Flat.level (h : Flat marks) : Level marks := fun stack => by
  rw [h stack]
  exact ⟨rfl, rfl⟩

theorem Level.append (ha : Level a) (hb : Level b) : Level (a ++ b) := fun stack => by
  rw [trail_append]
  exact ⟨(hb _).1.trans (ha _).1, (hb _).2.trans (ha _).2⟩

theorem level_declares (name : String) : Level [declares name] := fun stack => by
  cases stack <;> exact ⟨rfl, rfl⟩

theorem Level.enclosed (h : Level marks) : Flat (enclosed marks) := fun stack => by
  rw [Mark.enclosed, trail_cons, trail_append]
  exact (h ([] :: stack)).2

theorem level_params (params : List Token) : Level (params.map (declares ·.lexeme)) := by
  induction params with
  | nil => exact Flat.level fun _ => rfl
  | cons p params ih => exact (level_declares p.lexeme).append ih

mutual

theorem flat_expr (c : Bool) : (e : Expr) → Flat (e.outline c)
  | .literal _ | .name _ | .inherited _ _ => fun _ => rfl
  | .receiver _ => fun _ => by cases c <;> rfl
  | .group e | .unary _ e | .get e _ | .assign _ e => flat_expr c e
  | .binary l _ r | .logical l _ r | .set l _ r => (flat_expr c l).append (flat_expr c r)
  | .call callee _ args => (flat_expr c callee).append (flat_exprs c args)

theorem flat_exprs (c : Bool) : (es : List Expr) → Flat (Expr.outlineAll c es)
  | [] => fun _ => rfl
  | e :: es => (flat_expr c e).append (flat_exprs c es)

end

theorem flat_option (c : Bool) (e : Option Expr) : Flat (Expr.outlineOption c e) := by
  cases e with
  | none => exact fun _ => rfl
  | some e => exact flat_expr c e

mutual

theorem level_stmt (c : Bool) : (s : Stmt) → Level (s.outline c)
  | .expr e | .print e => (flat_expr c e).level
  | .var name init => (level_declares name.lexeme).append (flat_option c init).level
  | .block body => (level_stmts c body).enclosed.level
  | .ifThen e t | .loop e t => (flat_expr c e).level.append (level_stmt c t)
  | .ifElse e t f => (flat_expr c e).level.append ((level_stmt c t).append (level_stmt c f))
  | .function decl => (level_declares decl.name.lexeme).append (flat_function c decl).level
  | .ret _ value => (flat_option c value).level
  | .classDecl name none methods => (level_declares name.lexeme).append
      ((level_declares "this").append (flat_methods methods).level).enclosed.level
  | .classDecl name (some e) methods => (level_declares name.lexeme).append
      ((flat_expr true e).level.append
        ((level_declares "super").append
          ((level_declares "this").append
            (flat_methods methods).level).enclosed.level).enclosed.level)

theorem level_stmts (c : Bool) : (ss : List Stmt) → Level (Stmt.outlineAll c ss)
  | [] => Flat.level fun _ => rfl
  | s :: ss => (level_stmt c s).append (level_stmts c ss)

theorem flat_function (c : Bool) : (decl : FunctionDecl Stmt) → Flat (Stmt.outlineFunction c decl)
  | ⟨_, params, body⟩ => ((level_params params).append (level_stmts c body)).enclosed

theorem flat_methods : (ms : List (FunctionDecl Stmt)) → Flat (Stmt.outlineMethods ms)
  | [] => fun _ => rfl
  | m :: ms => (flat_function true m).append (flat_methods ms)

end

def ids : List Mark → List Nat
  | [] => []
  | mentions ref :: ms | strays ref :: ms => ref.id :: ids ms
  | opens :: ms | closes :: ms | declares _ :: ms => ids ms

def entries : List (List String) → List Mark → List (Nat × Option Nat)
  | _, [] => []
  | stack, mentions ref :: ms => (ref.id, find stack ref.token.lexeme) :: entries stack ms
  | stack, strays ref :: ms => (ref.id, none) :: entries stack ms
  | stack, opens :: ms => entries (push opens stack) ms
  | stack, closes :: ms => entries (push closes stack) ms
  | stack, declares name :: ms => entries (push (declares name) stack) ms

theorem entries_append (a b : List Mark) (stack : List (List String)) :
    entries stack (a ++ b) = entries stack a ++ entries (trail a stack) b := by
  induction a generalizing stack with
  | nil => rfl
  | cons m a ih => cases m <;> simp [entries, ih, push]

theorem map_fst_entries (marks : List Mark) (stack : List (List String)) :
    (entries stack marks).map Prod.fst = ids marks := by
  induction marks generalizing stack with
  | nil => rfl
  | cons m marks ih => cases m <;> simp [entries, ids, ih]

theorem ids_append (a b : List Mark) : ids (a ++ b) = ids a ++ ids b := by
  induction a with
  | nil => rfl
  | cons m a ih => cases m <;> simp [ids, ih]

theorem ids_params (params : List Token) : ids (params.map (declares ·.lexeme)) = [] := by
  induction params with
  | nil => rfl
  | cons p params ih => exact ih

theorem ids_enclosed (marks : List Mark) : ids (enclosed marks) = ids marks := by
  simp [enclosed, ids, ids_append]

mutual

theorem ids_expr (c : Bool) : (e : Expr) → (ids (e.outline c)).Perm e.refs
  | .literal _ | .name _ | .inherited _ _ => .refl _
  | .receiver _ => by cases c <;> exact .refl _
  | .group e | .unary _ e | .get e _ => ids_expr c e
  | .binary l _ r | .logical l _ r | .set l _ r => by
    rw [Expr.outline, ids_append]
    exact (ids_expr c l).append (ids_expr c r)
  | .assign ref e => ((ids_expr c e).cons ref.id).trans (List.perm_append_singleton _ _).symm
  | .call callee _ args => by
    rw [Expr.outline, ids_append]
    exact (ids_expr c callee).append (ids_exprs c args)

theorem ids_exprs (c : Bool) :
    (es : List Expr) → (ids (Expr.outlineAll c es)).Perm (Expr.refsAll es)
  | [] => .refl _
  | e :: es => by
    rw [Expr.outlineAll, ids_append]
    exact (ids_expr c e).append (ids_exprs c es)

end

theorem ids_option (c : Bool) (e : Option Expr) :
    (ids (Expr.outlineOption c e)).Perm (Expr.refsOption e) := by
  cases e with
  | none => exact .refl _
  | some e => exact ids_expr c e

mutual

theorem ids_stmt (c : Bool) : (s : Stmt) → (ids (s.outline c)).Perm s.refs
  | .expr e | .print e => ids_expr c e
  | .var _ init => ids_option c init
  | .block body => by
    rw [Stmt.outline, ids_enclosed]
    exact ids_stmts c body
  | .ifThen e t | .loop e t => by
    rw [Stmt.outline, ids_append]
    exact (ids_expr c e).append (ids_stmt c t)
  | .ifElse e t f => by
    rw [Stmt.outline, ids_append, ids_append]
    exact (ids_expr c e).append ((ids_stmt c t).append (ids_stmt c f))
  | .function decl => ids_function c decl
  | .ret _ value => ids_option c value
  | .classDecl _ none methods => by
    rw [Stmt.outline, ids, ids_enclosed]
    exact ids_methods methods
  | .classDecl _ (some e) methods => by
    rw [Stmt.outline, ids, ids_append, ids_enclosed, ids, ids_enclosed]
    exact (ids_expr true e).append (ids_methods methods)

theorem ids_stmts (c : Bool) :
    (ss : List Stmt) → (ids (Stmt.outlineAll c ss)).Perm (Stmt.refsAll ss)
  | [] => .refl _
  | s :: ss => by
    rw [Stmt.outlineAll, ids_append]
    exact (ids_stmt c s).append (ids_stmts c ss)

theorem ids_function (c : Bool) : (decl : FunctionDecl Stmt) →
    (ids (Stmt.outlineFunction c decl)).Perm (Stmt.refsFunction decl)
  | ⟨_, params, body⟩ => by
    rw [Stmt.outlineFunction, ids_enclosed, ids_append, ids_params]
    exact ids_stmts c body

theorem ids_methods : (ms : List (FunctionDecl Stmt)) →
    (ids (Stmt.outlineMethods ms)).Perm (Stmt.refsMethods ms)
  | [] => .refl _
  | m :: ms => by
    rw [Stmt.outlineMethods, ids_append]
    exact (ids_function true m).append (ids_methods ms)

end

end Mark

open Mark Scopes

def Scopes.Tracks (scopes : List StaticScope) (stack : List (List String)) : Prop :=
  List.Forall₂ (fun scope names => ∀ name, scope.contains name = true ↔ name ∈ names) scopes stack

theorem Bindings.contains_insert_iff {scope : Bindings α} :
    (scope.insert name a).contains other = true ↔ other = name ∨ scope.contains other = true := by
  by_cases h : name = other
  · simp [contains, h]
  · simp [contains, h, Ne.symm h]

namespace Scopes

theorem Tracks.empty (h : Tracks scopes stack) : Tracks (.empty :: scopes) (push opens stack) :=
  .cons (by simp [Bindings.contains]) h

theorem Tracks.define (h : Tracks scopes stack) (name : String) :
    Tracks (define name scopes) (push (declares name) stack) := by
  cases h with
  | nil => exact .nil
  | cons hs h =>
    refine .cons (fun other => ?_) h
    rw [Bindings.contains_insert_iff, hs, List.mem_cons]

theorem Tracks.declare (h : Tracks scopes stack) (name : String) :
    Tracks (declare name scopes) (push (declares name) stack) := by
  cases h with
  | nil => exact .nil
  | cons hs h =>
    rw [Scopes.declare]
    split
    · rename_i hc
      refine .cons (fun other => ?_) h
      rw [hs, List.mem_cons, iff_or_self]
      rintro rfl
      exact (hs _).mp hc
    · refine .cons (fun other => ?_) h
      rw [Bindings.contains_insert_iff, hs, List.mem_cons]

theorem Tracks.distance (h : Tracks scopes stack) (name : String) :
    distance scopes name = find stack name := by
  induction h with
  | nil => rfl
  | @cons scope names scopes stack hs h ih =>
    have hc : scope.contains name = decide (name ∈ names) := by
      rw [Bool.eq_iff_iff, hs, decide_eq_true_eq]
    rw [Scopes.distance, find] at ih ⊢
    rw [List.findIdx?_cons, List.findIdx?_cons, hc, ih]

end Scopes

structure Entered (es : List (Nat × Option Nat)) (D D' : Distances) : Prop where
  entry : ∀ i d, (i, d) ∈ es → D'[i]? = d.or D[i]?
  others : ∀ i ∉ es.map Prod.fst, D'[i]? = D[i]?

namespace Entered

theorem refl (D : Distances) : Entered [] D D := ⟨nofun, fun _ _ => rfl⟩

theorem none (i : Nat) (D : Distances) : Entered [(i, none)] D D := by
  refine ⟨fun j d hj => ?_, fun _ _ => rfl⟩
  cases List.mem_singleton.mp hj
  rfl

theorem insert (i d : Nat) (D : Distances) : Entered [(i, some d)] D (D.insert i d) := by
  refine ⟨fun j d' hj => ?_, fun j hj => ?_⟩
  · cases List.mem_singleton.mp hj
    simp
  · rw [List.map_cons, List.map_nil, List.mem_singleton] at hj
    simp [Std.TreeMap.getElem?_insert, Ne.symm hj]

theorem append (h : Entered a D D₁) (h₁ : Entered b D₁ D₂)
    (hn : (a.map Prod.fst ++ b.map Prod.fst).Nodup) : Entered (a ++ b) D D₂ := by
  have hdisjoint := (List.nodup_append.mp hn).2.2
  refine ⟨fun i d hi => ?_, fun i hi => ?_⟩
  · obtain hi | hi := List.mem_append.mp hi
    · have hb : i ∉ b.map Prod.fst := fun hb =>
        hdisjoint i (List.mem_map_of_mem (f := Prod.fst) hi) i hb rfl
      rw [h₁.others i hb, h.entry i d hi]
    · have ha : i ∉ a.map Prod.fst := fun ha =>
        hdisjoint i ha i (List.mem_map_of_mem (f := Prod.fst) hi) rfl
      rw [h₁.entry i d hi, h.others i ha]
  · rw [List.map_append, List.mem_append, not_or] at hi
    rw [h₁.others i hi.2, h.others i hi.1]

theorem perm (h : Entered a D D') (hp : a.Perm b) : Entered b D D' :=
  ⟨fun i d hi => h.entry i d (hp.mem_iff.mpr hi),
    fun i hi => h.others i (mt (hp.map Prod.fst).mem_iff.mp hi)⟩

end Entered

def Resolution.Along (marks : List Mark) (r r' : Resolution) : Prop :=
  ∀ stack, Tracks r.scopes stack → Tracks r'.scopes (trail marks stack) ∧
    ((ids marks).Nodup → Entered (entries stack marks) r.distances r'.distances)

namespace Resolution

namespace Along

variable {r r' r₁ r₂ : Resolution}

theorem refl (r : Resolution) : Along [] r r := fun _ h => ⟨h, fun _ => .refl _⟩

theorem append (h : Along a r r₁) (h₁ : Along b r₁ r₂) : Along (a ++ b) r r₂ := fun stack ht => by
  obtain ⟨ht₁, hr⟩ := h stack ht
  obtain ⟨ht₂, hr₁⟩ := h₁ _ ht₁
  rw [trail_append, entries_append, ids_append]
  refine ⟨ht₂, fun hn => ?_⟩
  obtain ⟨ha, hb, -⟩ := List.nodup_append.mp hn
  exact (hr ha).append (hr₁ hb) (by rwa [map_fst_entries, map_fst_entries])

theorem swap (h : Along (a ++ b) r r') (ha : Flat a) (hb : Flat b) : Along (b ++ a) r r' :=
  fun stack ht => by
    obtain ⟨ht', hr⟩ := h stack ht
    rw [trail_append, ha, hb] at ht'
    rw [entries_append, ha] at hr
    rw [trail_append, ha, hb, entries_append, hb]
    exact ⟨ht', fun hn => (hr ((ids_append b a ▸ List.perm_append_comm.trans
      (.of_eq (ids_append a b).symm)).nodup_iff.mp hn)).perm List.perm_append_comm⟩

theorem leave (h : Along (opens :: marks) r r') (hl : Level marks) :
    Along (enclosed marks) r { r' with scopes := r.scopes } := fun stack ht => by
  have hr := (h stack ht).2
  rw [hl.enclosed stack, ids_enclosed, enclosed, ← List.cons_append, entries_append]
  exact ⟨ht, fun hn => by simpa [entries] using hr hn⟩

end Along

theorem along_empty (r : Resolution) :
    Along [opens] r { r with scopes := .empty :: r.scopes } :=
  fun _ h => ⟨h.empty, fun _ => .refl _⟩

theorem along_single (name : String) (r : Resolution) :
    Along [opens, declares name] r
      { r with scopes := Bindings.empty.insert name true :: r.scopes } :=
  fun _ h => ⟨h.empty.define name, fun _ => .refl _⟩

theorem along_declare (name : Token) (r : Resolution) :
    Along [declares name.lexeme] r (r.declare name) := fun _ h => by
  refine ⟨scopes_declare name r ▸ h.declare name.lexeme, fun _ => ?_⟩
  have hd : (r.declare name).distances = r.distances := by
    unfold declare
    split
    · rfl
    · split <;> rfl
  exact hd ▸ .refl _

theorem distances_define (name : Token) (r : Resolution) :
    (r.define name).distances = r.distances := by
  unfold define
  split <;> rfl

theorem Along.define {r r' : Resolution} (h : Along (declares name.lexeme :: marks) r r')
    (hf : Flat marks) (hs : r'.scopes = Scopes.declare name.lexeme r.scopes) :
    Along (declares name.lexeme :: marks) r (r'.define name) := fun stack ht => by
  rw [scopes_define, hs, define_declare, trail_cons, hf, distances_define]
  exact ⟨ht.define name.lexeme, (h stack ht).2⟩

theorem along_introduce (name : Token) (r : Resolution) :
    Along [declares name.lexeme] r (r.introduce name) :=
  (along_declare name r).define (fun _ => rfl) (scopes_declare name r)

theorem along_introduceAll (params : List Token) (r : Resolution) :
    Along (params.map (declares ·.lexeme)) r (params.foldl (fun r p => r.introduce p) r) := by
  induction params generalizing r with
  | nil => exact .refl r
  | cons p params ih => exact (along_introduce p r).append (ih _)

theorem along_bind (ref : Ref) (r : Resolution) : Along [mentions ref] r (r.bind ref) :=
  fun stack h => by
    have hd : r.scopes.findIdx? (·.contains ref.token.lexeme) = find stack ref.token.lexeme :=
      h.distance ref.token.lexeme
    refine ⟨(scopes_bind ref r).symm ▸ h, fun _ => ?_⟩
    rw [bind, hd, entries, entries]
    cases find stack ref.token.lexeme with
    | none => exact .none _ _
    | some d => exact .insert _ _ _

theorem along_readName (ref : Ref) (r : Resolution) : Along [mentions ref] r (r.readName ref) := by
  unfold readName
  split
  · exact along_bind ref (r.report _ _)
  · exact along_bind ref r

theorem along_useThis (cls : ClassContext) (ref : Ref) (r : Resolution) :
    Along [if decide (cls ≠ .outside) then mentions ref else strays ref] r (r.useThis cls ref) := by
  cases cls with
  | outside => exact fun _ h => ⟨h, fun _ => .none _ _⟩
  | base | derived => exact along_bind ref r

theorem along_useSuper (cls : ClassContext) (ref : Ref) (r : Resolution) :
    Along [mentions ref] r (r.useSuper cls ref) := by
  cases cls with
  | outside | base => exact along_bind ref (r.report _ _)
  | derived => exact along_bind ref r

theorem along_useReturn (kind : FunctionContext) (keyword : Token) (hasValue : Bool)
    (r : Resolution) : Along [] r (r.useReturn kind keyword hasValue) := by
  have hd : (r.useReturn kind keyword hasValue).distances = r.distances := by
    cases kind <;> cases hasValue <;> rfl
  exact fun _ h => ⟨(scopes_useReturn kind keyword hasValue r).symm ▸ h, fun _ => hd ▸ .refl _⟩

theorem along_checkSuperclass (name : Token) (e : Expr) (r : Resolution) :
    Along [] r (r.checkSuperclass name e) := by
  have hd : (r.checkSuperclass name e).distances = r.distances := by
    unfold checkSuperclass
    split
    · split <;> rfl
    · rfl
  exact fun _ h => ⟨(scopes_checkSuperclass name e r).symm ▸ h, fun _ => hd ▸ .refl _⟩

end Resolution

open Resolution

def ClassContext.isInside (cls : ClassContext) : Bool := cls ≠ .outside

mutual

theorem Expr.along_resolve (cls : ClassContext) : (e : Expr) → (r : Resolution) →
    Along (e.outline cls.isInside) r (e.resolve cls r)
  | .literal _, r => .refl r
  | .group e, r | .unary _ e, r | .get e _, r => Expr.along_resolve cls e r
  | .binary l _ e, r | .logical l _ e, r =>
    (Expr.along_resolve cls l r).append (Expr.along_resolve cls e _)
  -- the value is resolved before what stands in front of it
  | .set o _ v, r => ((Expr.along_resolve cls v r).append (Expr.along_resolve cls o _)).swap
    (flat_expr _ v) (flat_expr _ o)
  | .name ref, r => along_readName ref r
  | .assign ref v, r => ((Expr.along_resolve cls v r).append (along_bind ref _)).swap
    (flat_expr _ v) fun _ => rfl
  | .call callee _ args, r =>
    (Expr.along_resolve cls callee r).append (Expr.along_resolveAll cls args _)
  | .receiver ref, r => along_useThis cls ref r
  | .inherited ref _, r => along_useSuper cls ref r

theorem Expr.along_resolveAll (cls : ClassContext) : (es : List Expr) → (r : Resolution) →
    Along (Expr.outlineAll cls.isInside es) r (Expr.resolveAll cls es r)
  | [], r => .refl r
  | e :: es, r => (Expr.along_resolve cls e r).append (Expr.along_resolveAll cls es _)

end

theorem Expr.along_resolveOption (cls : ClassContext) (e : Option Expr) (r : Resolution) :
    Along (Expr.outlineOption cls.isInside e) r (Expr.resolveOption cls e r) := by
  cases e with
  | none => exact .refl r
  | some e => exact e.along_resolve cls r

mutual

theorem Stmt.along_resolve (ctx : Context) : (s : Stmt) → (r : Resolution) →
    Along (s.outline ctx.cls.isInside) r (s.resolve ctx r)
  | .expr e, r | .print e, r => e.along_resolve ctx.cls r
  | .var name init, r => by
    have h := (along_declare name r).append (Expr.along_resolveOption ctx.cls init _)
    refine Along.define h (flat_option _ init) ?_
    rw [(Expr.extends_resolveOption ctx.cls init _).2, scopes_declare]
  | .block body, r =>
    ((along_empty r).append (Stmt.along_resolveAll ctx body _)).leave (level_stmts _ body)
  | .ifThen c t, r | .loop c t, r =>
    (c.along_resolve ctx.cls r).append (Stmt.along_resolve ctx t _)
  | .ifElse c t e, r =>
    (c.along_resolve ctx.cls r).append
      ((Stmt.along_resolve ctx t _).append (Stmt.along_resolve ctx e _))
  | .function decl, r =>
    (along_introduce decl.name r).append (Stmt.along_resolveFunction _ decl _)
  | .ret keyword value, r =>
    (along_useReturn _ keyword _ r).append (Expr.along_resolveOption ctx.cls value _)
  | .classDecl name none methods, r =>
    (along_introduce name r).append (((along_single "this" _).append
      (Stmt.along_resolveMethods .base rfl methods _)).leave
        ((level_declares "this").append (flat_methods methods).level))
  | .classDecl name (some e) methods, r => by
    have hthis (r : Resolution) := ((along_single "this" r).append
      (Stmt.along_resolveMethods .derived rfl methods _)).leave
        ((level_declares "this").append (flat_methods methods).level)
    have hsuper (r : Resolution) := ((along_single "super" r).append (hthis _)).leave
      ((level_declares "super").append
        ((level_declares "this").append (flat_methods methods).level).enclosed.level)
    exact (along_introduce name r).append (((along_checkSuperclass name e _).append
      (e.along_resolve .derived _)).append (hsuper _))

theorem Stmt.along_resolveAll (ctx : Context) : (ss : List Stmt) → (r : Resolution) →
    Along (Stmt.outlineAll ctx.cls.isInside ss) r (Stmt.resolveAll ctx ss r)
  | [], r => .refl r
  | s :: ss, r => (Stmt.along_resolve ctx s r).append (Stmt.along_resolveAll ctx ss _)

theorem Stmt.along_resolveFunction (ctx : Context) : (decl : FunctionDecl Stmt) →
    (r : Resolution) →
    Along (Stmt.outlineFunction ctx.cls.isInside decl) r (Stmt.resolveFunction ctx decl r)
  | ⟨_, params, body⟩, r =>
    ((along_empty r).append ((along_introduceAll params _).append
      (Stmt.along_resolveAll ctx body _))).leave ((level_params params).append (level_stmts _ body))

theorem Stmt.along_resolveMethods (cls : ClassContext) (hc : cls.isInside = true) :
    (ms : List (FunctionDecl Stmt)) → (r : Resolution) →
    Along (Stmt.outlineMethods ms) r (Stmt.resolveMethods cls ms r)
  | [], r => .refl r
  | m :: ms, r => by
    have h := Stmt.along_resolveFunction
      ⟨if m.name.lexeme = initializerName then .initializer else .method, cls⟩ m r
    rw [hc] at h
    exact h.append (Stmt.along_resolveMethods cls hc ms _)

end

theorem entered_resolve (stmts : List Stmt) (D : Distances) (hn : (Stmt.refsAll stmts).Nodup) :
    Entered (entries [] (Stmt.outlineAll false stmts)) D (resolve stmts D).distances :=
  (Stmt.along_resolveAll ⟨.outside, .outside⟩ stmts ⟨[], D, []⟩ [] .nil).2
    ((ids_stmts false stmts).nodup_iff.mpr hn)

/-- What a table is to say of an occurrence after the marks `before`: the number of scopes inside
the innermost one that declares the name, if there is one, and nothing of a stray `this`. -/
def Mark.Tabled (table : Distances) (before : List Mark) : Mark → Prop
  | mentions ref =>
    (∀ d, table[ref.id]? = some d ↔ Addressed before ref.token.lexeme d) ∧
      (table[ref.id]? = none ↔ ∀ d, ¬ Declared before ref.token.lexeme d)
  | strays ref => table[ref.id]? = none
  | opens | closes | declares _ => True

/-- The table is the lexical addressing of what was read from a source text, with or without faults,
whatever it held before of other numbers. -/
theorem resolve_addresses (s : Session) (source : String) (D : Distances)
    (hD : ∀ i, s.nextId ≤ i → D[i]? = none) (before after : List Mark) (m : Mark)
    (hm : Stmt.outlineAll false (s.parse source).1 = before ++ m :: after) :
    m.Tabled (resolve (s.parse source).1 D).distances before := by
  have hnum := s.numbered_parse source
  have hrec := entered_resolve (s.parse source).1 D hnum.1
  have hmem : ∀ i ∈ ids (before ++ m :: after), D[i]? = none := fun i hi =>
    hD i (hnum.2 i ((ids_stmts false _).mem_iff.mp (hm ▸ hi))).1
  rw [hm, entries_append] at hrec
  cases m with
  | mentions ref =>
    have hentry := hrec.entry ref.id _ (List.mem_append_right _ List.mem_cons_self)
    rw [hmem ref.id (by simp [ids_append, ids]), Option.or_none] at hentry
    rw [Tabled, hentry]
    exact ⟨fun d => find_trail_eq_some_iff, find_trail_eq_none_iff⟩
  | strays ref =>
    have hentry := hrec.entry ref.id _ (List.mem_append_right _ List.mem_cons_self)
    rwa [hmem ref.id (by simp [ids_append, ids]), Option.none_or] at hentry
  | opens | closes | declares _ => trivial

theorem resolve_addresses_closure : ∃ (before after : List Mark) (m : Mark),
    Stmt.outlineAll false ((Session.new .unlimited 0).parse
      "\x7bvar a; fun f() \x7ba; var a;\x7d\x7d").1 = before ++ m :: after ∧
    m = .mentions ⟨0, ⟨.identifier, "a", 1⟩⟩ ∧
    m.Tabled (resolve ((Session.new .unlimited 0).parse
      "\x7bvar a; fun f() \x7ba; var a;\x7d\x7d").1 ∅).distances before := by
  have hm : Stmt.outlineAll false ((Session.new .unlimited 0).parse
      "\x7bvar a; fun f() \x7ba; var a;\x7d\x7d").1 =
      [opens, declares "a", declares "f", opens] ++
        .mentions ⟨0, ⟨.identifier, "a", 1⟩⟩ :: [declares "a", closes, closes] := by
    cbv
  exact ⟨_, _, _, hm, rfl, resolve_addresses _ _ ∅ (by simp) _ _ _ hm⟩

end Treewalk
