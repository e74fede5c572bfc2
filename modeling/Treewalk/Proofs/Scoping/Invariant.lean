import Treewalk.Proofs.Scoping.Binding
import Treewalk.Proofs.Scoping.Growth
import Treewalk.Proofs.Scoping.Points

/-!
The invariant that ties the scopes of a heap to those of the resolution. `made` says for which
construct a scope was made, and `seen` which places the resolution has been at.
-/

namespace Treewalk

namespace Scopes

def ready? (scopes : List StaticScope) (d : Nat) (name : String) : Option Bool :=
  scopes[d]?.bind (·.get? name)

def Ready (scopes : List StaticScope) : Prop :=
  ∀ scope ∈ scopes, ∀ name, scope.get? name ≠ some false

def Nested : ClassContext → List StaticScope → Prop
  | .derived, scopes => ∃ k, distance scopes "super" = some (k + 1) ∧
      ready? scopes (k + 1) "super" = some true ∧ ready? scopes k "this" = some true
  | _, _ => True

variable {scopes : List StaticScope} {scope : StaticScope} {name other : String} {d : Nat}

theorem distance_cons (scope : StaticScope) (scopes : List StaticScope) (name : String) :
    distance (scope :: scopes) name =
      if scope.contains name then some 0 else (distance scopes name).map (· + 1) := by
  simp [distance, List.findIdx?_cons]

theorem length_define (name : String) (scopes : List StaticScope) :
    (define name scopes).length = scopes.length := by
  cases scopes <;> rfl

theorem ready?_define_of_ne (h : name ≠ other) :
    ready? (define name scopes) d other = ready? scopes d other := by
  cases scopes with
  | nil => rfl
  | cons scope outer => cases d <;> simp [ready?, define, h]

theorem ready?_declare_of_ne (h : name ≠ other) :
    ready? (declare name scopes) d other = ready? scopes d other := by
  cases scopes with
  | nil => rfl
  | cons scope outer =>
    rw [declare]
    split
    · rfl
    · cases d <;> simp [ready?, h]

theorem contains_insert_of_ne (h : name ≠ other) (ready : Bool) :
    (scope.insert name ready).contains other = scope.contains other := by
  simp [Bindings.contains, h]

theorem distance_define_of_ne (h : name ≠ other) :
    distance (define name scopes) other = distance scopes other := by
  cases scopes with
  | nil => rfl
  | cons scope outer => rw [define, distance_cons, distance_cons, contains_insert_of_ne h]

theorem distance_declare_of_ne (h : name ≠ other) :
    distance (declare name scopes) other = distance scopes other := by
  cases scopes with
  | nil => rfl
  | cons scope outer =>
    rw [declare]
    split
    · rfl
    · rw [distance_cons, distance_cons, contains_insert_of_ne h]

theorem unready_define_of_ne (h : name ≠ other) :
    Unready (define name scopes) other ↔ Unready scopes other := by
  cases scopes with
  | nil => rfl
  | cons scope outer => simp [define, Unready, h]

theorem unready_declare_of_ne (h : name ≠ other) :
    Unready (declare name scopes) other ↔ Unready scopes other := by
  cases scopes with
  | nil => rfl
  | cons scope outer =>
    rw [declare]
    split
    · rfl
    · simp [Unready, h]

theorem ready?_of_distance (h : distance scopes name = some d) :
    (ready? scopes d name).isSome := by
  obtain ⟨hlt, hc, -⟩ := List.findIdx?_eq_some_iff_getElem.mp h
  simpa [ready?, hlt, Bindings.contains] using hc

theorem ready_nil : Ready [] := fun _ h => absurd h List.not_mem_nil

theorem Ready.push (h : Ready scopes) (hs : ∀ name, scope.get? name ≠ some false) :
    Ready (scope :: scopes) :=
  List.forall_mem_cons.mpr ⟨hs, h⟩

theorem Ready.define (h : Ready scopes) (name : String) : Ready (define name scopes) := by
  cases scopes with
  | nil => exact h
  | cons scope outer =>
    obtain ⟨hs, ho⟩ := List.forall_mem_cons.mp h
    refine Ready.push ho fun other => ?_
    rw [Bindings.get?_insert]
    split
    · simp
    · exact hs other

theorem get?_thisScope (name : String) :
    thisScope.get? name = if "this" = name then some true else none := by
  simp [thisScope]

theorem get?_superScope (name : String) :
    superScope.get? name = if "super" = name then some true else none := by
  simp [superScope]

theorem get?_parameters (params : List Token) (scope : StaticScope) (name : String) :
    (params.foldl (fun scope p => scope.insert p.lexeme true) scope).get? name =
      if name ∈ params.map Token.lexeme then some true else scope.get? name := by
  induction params generalizing scope with
  | nil => rfl
  | cons p params ih =>
    rw [List.foldl_cons, ih, Bindings.get?_insert, List.map_cons]
    by_cases hp : name ∈ params.map Token.lexeme
    · simp [hp]
    · by_cases hn : p.lexeme = name
      · simp [hn]
      · simp [hp, hn, Ne.symm hn]

theorem get?_parameterScope (params : List Token) (name : String) :
    (parameterScope params).get? name =
      if name ∈ params.map Token.lexeme then some true else none :=
  get?_parameters params .empty name

namespace Nested

variable {cls : ClassContext}

theorem push (h : Nested cls scopes) (hs : scope.get? "super" = none) :
    Nested cls (scope :: scopes) := by
  cases cls with
  | outside | base => trivial
  | derived =>
    obtain ⟨k, hd, hsuper, hthis⟩ := h
    refine ⟨k + 1, ?_, hsuper, hthis⟩
    simp [distance_cons, Bindings.contains, hs, hd]

theorem define (h : Nested cls scopes) (hsuper : name ≠ "super") (hthis : name ≠ "this") :
    Nested cls (define name scopes) := by
  cases cls with
  | outside | base => trivial
  | derived =>
    simpa only [Nested, distance_define_of_ne hsuper, ready?_define_of_ne hsuper,
      ready?_define_of_ne hthis] using h

theorem declare (h : Nested cls scopes) (hsuper : name ≠ "super") (hthis : name ≠ "this") :
    Nested cls (declare name scopes) := by
  cases cls with
  | outside | base => trivial
  | derived =>
    simpa only [Nested, distance_declare_of_ne hsuper, ready?_declare_of_ne hsuper,
      ready?_declare_of_ne hthis] using h

theorem methods (scopes : List StaticScope) : Nested .derived (thisScope :: superScope :: scopes) :=
  ⟨0, rfl, rfl, rfl⟩

end Nested

end Scopes

open Scopes

section Invariant

variable (made : ScopeId → Opener → Prop) (seen : Visit → Prop)

/-- A chain of scopes, down to the global one, that was made for the constructs around a place and
binds at least the names that are ready there. -/
inductive Lies (h : Heap) (globals : ScopeId) :
    List ScopeId → List StaticScope → List Opener → Prop
  | globals : Lies h globals [globals] [] []
  | inside : s ≠ globals → (∀ name, scope.get? name = some true → (h.binding? s name).isSome) →
      made s o → Lies h globals ids scopes os →
      Lies h globals (s :: ids) (scope :: scopes) (o :: os)

/-- The machine is at a place: the current scope binds just the names that are ready, and only there
are names that are not. -/
structure Stands (m : Machine) (scopes : List StaticScope) (os : List Opener) : Prop where
  lies : Lies made m.heap m.globals (m.heap.chain m.current) scopes os
  exact : ∀ scope ∈ scopes.head?, ∀ name, (m.heap.binding? m.current name).isSome →
    scope.get? name = some true
  outer : Ready scopes.tail

def Seen (subject : Subject) (scopes : List StaticScope) (os : List Opener) : Prop :=
  ∃ v, seen v ∧ v.subject = subject ∧ v.openers = os ∧ v.state.scopes = scopes

def SeenExpr (e : Expr) (scopes : List StaticScope) (os : List Opener) : Prop :=
  Seen seen (.expr e) scopes os ∨ ∃ ref name, e = .name ref ∧ ref.token.lexeme ≠ name ∧
    Seen seen (.expr e) (Scopes.define name scopes) os

def FunctionSound (m : Machine) (f : Closure) : Prop :=
  ∃ ctx scopes os, Lies made m.heap m.globals (m.heap.chain f.scope) scopes os ∧
    Ready scopes ∧ Nested ctx.cls scopes ∧ Stmt.BoundFunction m.distances ctx scopes f.decl ∧
    Stmt.ProperFunction f.decl ∧ Seen seen (.function f.decl) scopes os

def MethodSound (m : Machine) (f : Closure) : Prop :=
  ∃ ctx scopes os methods, f.decl ∈ methods ∧
    Lies made m.heap m.globals (m.heap.chain f.scope) scopes os ∧ Ready scopes ∧
    Nested ctx.cls (thisScope :: scopes) ∧
    Stmt.BoundFunction m.distances ctx (thisScope :: scopes) f.decl ∧
    Stmt.ProperFunction f.decl ∧
    Seen seen (.function f.decl) (thisScope :: scopes) (.receiver methods :: os)

structure Sound (m : Machine) : Prop where
  globals : m.heap.chain m.globals = [m.globals]
  functions : ∀ f ∈ m.heap.functions, FunctionSound made seen m f
  methods : ∀ c ∈ m.heap.classes, ∀ name f, c.methods.get? name = some f →
    MethodSound made seen m f
  supers : ∀ s v, s ≠ m.globals → m.heap.binding? s "super" = some v → ∃ c, v = .cls c

/-- From `m` to `m'` the heap has grown and is sound; the machine stands where it stood. -/
structure Evolves (P : ScopeId → Prop) (m m' : Machine) : Prop where
  heap : m.heap.Extends P m'.heap
  current : m'.current = m.current
  globals : m'.globals = m.globals
  distances : m'.distances = m.distances
  sound : Sound made seen m'

end Invariant

variable {made : ScopeId → Opener → Prop} {seen : Visit → Prop} {m m' : Machine}
  {P Q : ScopeId → Prop}

theorem Lies.mono {h h' : Heap} (hl : Lies made h g ids scopes os) (he : h.Extends P h') :
    Lies made h' g ids scopes os := by
  induction hl with
  | globals => exact .globals
  | inside hs hb hm _ ih => exact .inside hs (fun name hn => he.bound _ name (hb name hn)) hm ih

theorem Lies.ne_nil {h : Heap} (hl : Lies made h g ids scopes os) : ids ≠ [] := by
  cases hl <;> exact List.cons_ne_nil _ _

theorem Lies.chain_mono {h h' : Heap} (hl : Lies made h g (h.chain s) scopes os)
    (he : h.Extends P h') : Lies made h' g (h'.chain s) scopes os := by
  rw [he.chain s hl.ne_nil]
  exact hl.mono he

theorem Lies.length {h : Heap} (hl : Lies made h g ids scopes os) :
    ids.length = scopes.length + 1 := by
  induction hl with
  | globals => rfl
  | inside _ _ _ _ ih => simp [ih]

theorem Lies.getLast? {h : Heap} (hl : Lies made h g ids scopes os) : ids.getLast? = some g := by
  induction hl with
  | globals => rfl
  | inside _ _ _ hl ih => rw [List.getLast?_cons_of_ne_nil hl.ne_nil, ih]

theorem Lies.entry {h : Heap} (hl : Lies made h g ids scopes os)
    (he : ready? scopes d name = some true) : ∃ s o, ids[d]? = some s ∧ os[d]? = some o ∧
      made s o ∧ s ≠ g ∧ (h.binding? s name).isSome := by
  induction hl generalizing d with
  | globals => cases he
  | inside hne hb hm _ ih =>
    cases d with
    | zero => exact ⟨_, _, rfl, rfl, hm, hne, hb name he⟩
    | succ d => exact ih he

theorem Stands.ready?_eq (hs : Stands made m scopes os) (hd : distance scopes name = some d)
    (hu : ¬ Unready scopes name) : ready? scopes d name = some true := by
  obtain ⟨ready, he⟩ := Option.isSome_iff_exists.mp (ready?_of_distance hd)
  cases ready with
  | true => exact he
  | false =>
    obtain ⟨scope, hscope, hget⟩ := Option.bind_eq_some_iff.mp he
    cases d with
    | zero => exact absurd ⟨scope, by rwa [List.head?_eq_getElem?], hget⟩ hu
    | succ d =>
      have hmem : scope ∈ scopes.tail := List.mem_of_getElem? (List.getElem?_tail ▸ hscope)
      exact absurd hget (hs.outer scope hmem name)

theorem Stands.mono (hs : Stands made m scopes os) (he : Evolves made seen P m m')
    (hP : ¬ P m.current) : Stands made m' scopes os := by
  refine ⟨?_, fun scope hscope name hb => ?_, hs.outer⟩
  · rw [he.current, he.globals]
    exact hs.lies.chain_mono he.heap
  · rw [he.current] at hb
    exact hs.exact scope hscope name
      (he.heap.unbound _ name (Heap.chain_ne_nil_iff.mp hs.lies.ne_nil) hP hb)

theorem FunctionSound.mono {f : Closure} (hf : FunctionSound made seen m f)
    (he : m.heap.Extends P m'.heap) (hg : m'.globals = m.globals)
    (hd : m'.distances = m.distances) : FunctionSound made seen m' f := by
  obtain ⟨ctx, scopes, os, hl, hf⟩ := hf
  rw [FunctionSound, hg, hd]
  exact ⟨ctx, scopes, os, hl.chain_mono he, hf⟩

theorem MethodSound.mono {f : Closure} (hf : MethodSound made seen m f)
    (he : m.heap.Extends P m'.heap) (hg : m'.globals = m.globals)
    (hd : m'.distances = m.distances) : MethodSound made seen m' f := by
  obtain ⟨ctx, scopes, os, methods, hmem, hl, hf⟩ := hf
  rw [MethodSound, hg, hd]
  exact ⟨ctx, scopes, os, methods, hmem, hl.chain_mono he, hf⟩

theorem Sound.step (hs : Sound made seen m) (he : m.heap.Extends P m'.heap)
    (hg : m'.globals = m.globals) (hd : m'.distances = m.distances)
    (hf : ∀ f ∈ m'.heap.functions, f ∈ m.heap.functions ∨ FunctionSound made seen m' f)
    (hc : ∀ c ∈ m'.heap.classes, c ∈ m.heap.classes ∨ ∀ name f, c.methods.get? name = some f →
      MethodSound made seen m' f)
    (hsuper : ∀ s v, s ≠ m.globals → m'.heap.binding? s "super" = some v →
      m.heap.binding? s "super" = some v ∨ ∃ c, v = .cls c) : Sound made seen m' where
  globals := by
    rw [hg, he.chain _ (hs.globals ▸ List.cons_ne_nil _ _)]
    exact hs.globals
  functions f hmem := by
    obtain h | h := hf f hmem
    · exact (hs.functions f h).mono he hg hd
    · exact h
  methods c hmem name f hget := by
    obtain h | h := hc c hmem
    · exact (hs.methods c h name f hget).mono he hg hd
    · exact h name f hget
  supers s v hne hb := by
    rw [hg] at hne
    obtain h | h := hsuper s v hne hb
    · exact hs.supers s v hne h
    · exact h

namespace Evolves

theorem refl (P : ScopeId → Prop) (hs : Sound made seen m) : Evolves made seen P m m :=
  ⟨.refl P m.heap, rfl, rfl, rfl, hs⟩

theorem trans {m₁ m₂ : Machine} (h : Evolves made seen P m m₁) (h₁ : Evolves made seen P m₁ m₂) :
    Evolves made seen P m m₂ :=
  ⟨h.heap.trans h₁.heap, h₁.current.trans h.current, h₁.globals.trans h.globals,
    h₁.distances.trans h.distances, h₁.sound⟩

theorem still (h : Evolves made seen (· = m.current) m m')
    (hb : ∀ name, (m'.heap.binding? m.current name).isSome →
      (m.heap.binding? m.current name).isSome) : Evolves made seen nowhere m m' := by
  refine ⟨⟨h.heap.size, h.heap.chain, h.heap.bound, fun s name hs _ hb' => ?_⟩, h.current, h.globals,
    h.distances, h.sound⟩
  by_cases hc : s = m.current
  · subst hc
    exact hb name hb'
  · exact h.heap.unbound s name hs hc hb'

theorem mono (h : Evolves made seen P m m') (hPQ : ∀ s, P s → Q s) : Evolves made seen Q m m' :=
  ⟨h.heap.mono hPQ, h.current, h.globals, h.distances, h.sound⟩

end Evolves

def nowhere : ScopeId → Prop := fun _ => False

def anywhere : ScopeId → Prop := fun _ => True

def Kept (made : ScopeId → Opener → Prop) (seen : Visit → Prop) (P : ScopeId → Prop) (m : Machine)
    (R : α → Machine → Prop) : EStateM.Result Halt Machine α → Prop
  | .ok a m' => Evolves made seen P m m' ∧ R a m'
  | .error _ m' => Evolves made seen anywhere m m'

namespace Kept

variable {x : Run α} {f : α → Run β} {R : α → Machine → Prop} {S : β → Machine → Prop}

theorem bind (hx : Kept made seen P m R (x m))
    (hf : ∀ a m₁, x m = .ok a m₁ → Evolves made seen P m m₁ → R a m₁ →
      Kept made seen P m₁ S (f a m₁)) : Kept made seen P m S ((x >>= f) m) := by
  cases h : x m with
  | ok a m₁ =>
    rw [h] at hx
    have hfm := hf a m₁ h hx.1 hx.2
    simp only [Bind.bind, EStateM.bind, h]
    match f a m₁, hfm with
    | .ok b m₂, ⟨he, hb⟩ => exact ⟨hx.1.trans he, hb⟩
    | .error e m₂, he => exact (hx.1.mono fun _ _ => trivial).trans he
  | error e m₁ =>
    rw [h] at hx
    simp only [Bind.bind, EStateM.bind, h]
    exact hx

theorem mono {r : EStateM.Result Halt Machine α} {R' : α → Machine → Prop}
    (hx : Kept made seen P m R r) (hPQ : ∀ s, P s → Q s) (hR : ∀ a m', R a m' → R' a m') :
    Kept made seen Q m R' r := by
  match r, hx with
  | .ok a m', ⟨he, ha⟩ => exact ⟨he.mono hPQ, hR a m' ha⟩
  | .error e m', he => exact he

theorem evolves {r : EStateM.Result Halt Machine α} (hx : Kept made seen P m R r) :
    Kept made seen P m (fun a m' => Evolves made seen P m m' ∧ R a m') r := by
  match r, hx with
  | .ok a m', ⟨he, ha⟩ => exact ⟨he, he, ha⟩
  | .error e m', he => exact he

theorem weaken {r : EStateM.Result Halt Machine α} (hx : Kept made seen nowhere m R r) :
    Kept made seen P m R r :=
  hx.mono (fun _ h => h.elim) fun _ _ h => h

theorem pure (hs : Sound made seen m) (ha : R a m) : Kept made seen P m R ((Pure.pure a : Run α) m) :=
  ⟨.refl P hs, ha⟩

theorem current (hs : Sound made seen m) :
    Kept made seen P m (fun s m' => s = m.current ∧ m' = m) (Run.current m) :=
  ⟨.refl P hs, rfl, rfl⟩

theorem get (hs : Sound made seen m) :
    Kept made seen P m (fun m₁ m' => m₁ = m ∧ m' = m) ((MonadState.get : Run Machine) m) :=
  ⟨.refl P hs, rfl, rfl⟩

theorem heap (hs : Sound made seen m) :
    Kept made seen P m (fun h m' => h = m.heap ∧ m' = m) (Run.heap m) :=
  ⟨.refl P hs, rfl, rfl⟩

theorem fail (hs : Sound made seen m) : Kept made seen P m R (Run.fail fault token m) :=
  .refl anywhere hs

end Kept

end Treewalk
