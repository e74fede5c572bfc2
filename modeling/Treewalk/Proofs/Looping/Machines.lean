import Treewalk.Proofs.Looping.Trees
import Treewalk.Proofs.Scoping.Order
import Treewalk.Proofs.SideBySide.Machine

namespace Treewalk

/-- Where the scopes of a machine lie on the other one. A gap lies nowhere. -/
abbrev Placing := Array (Option ScopeId)

namespace Placing

def Puts (μ : Placing) (s t : ScopeId) : Prop := μ[s.index]? = some (some t)

def Omits (μ : Placing) (s : ScopeId) : Prop := μ[s.index]? = some none

def identity (n : Nat) : Placing := Array.ofFn fun i : Fin n => some ⟨i⟩

/-- A scope and those around it on both machines. Gaps are marked, innermost first, and there are none
beyond the marks. -/
inductive Aligned (μ : Placing) : List Bool → List ScopeId → List ScopeId → Prop
  | plain : ids ≠ [] → List.Forall₂ μ.Puts ids ids' → Aligned μ [] ids ids'
  | kept : μ.Puts s t → Aligned μ gaps ids ids' → Aligned μ (false :: gaps) (s :: ids) (t :: ids')
  | gap : μ.Omits s → Aligned μ gaps ids ids' → Aligned μ (true :: gaps) (s :: ids) ids'

variable {μ : Placing} {gaps : List Bool} {ids ids' : List ScopeId} {s t : ScopeId}

theorem Puts.unique (h : μ.Puts s t) (h' : μ.Puts s t') : t' = t := by
  cases h.symm.trans h'
  rfl

theorem Puts.ne_of_omits (h : μ.Puts s t) (h' : μ.Omits s') : s ≠ s' := by
  rintro rfl
  cases h.symm.trans h'

theorem puts_push_iff : Puts (μ.push place) s t ↔
    s.index = μ.size ∧ place = some t ∨ s.index ≠ μ.size ∧ μ.Puts s t := by
  rw [Puts, Array.getElem?_push]
  by_cases h : s.index = μ.size <;> simp [h, Puts]

theorem omits_push_iff : Omits (μ.push place) s ↔
    s.index = μ.size ∧ place = none ∨ s.index ≠ μ.size ∧ μ.Omits s := by
  rw [Omits, Array.getElem?_push]
  by_cases h : s.index = μ.size <;> simp [h, Omits]

theorem puts_identity_iff : (identity n).Puts s t ↔ s.index < n ∧ t = s := by
  simp only [Puts, identity, Array.getElem?_ofFn, Option.dite_none_right_eq_some,
    Option.some.injEq, exists_prop]
  exact and_congr_right fun _ => eq_comm

theorem not_omits_identity : ¬ (identity n).Omits s := by
  simp [Omits, identity, Array.getElem?_ofFn]

namespace Aligned

theorem ne_nil (h : Aligned μ gaps ids ids') : ids ≠ [] ∧ ids' ≠ [] := by
  induction h with
  | plain hne h =>
    cases h with
    | nil => exact absurd rfl hne
    | cons => exact ⟨nofun, nofun⟩
  | kept => exact ⟨nofun, nofun⟩
  | gap _ _ ih => exact ⟨nofun, ih.2⟩

theorem mono (h : Aligned μ gaps ids ids') {μ₁ : Placing}
    (hμ : ∀ (i : Nat) place, μ[i]? = some place → μ₁[i]? = some place) :
    Aligned μ₁ gaps ids ids' := by
  induction h with
  | plain hne h => exact .plain hne (h.imp fun _ _ hp => hμ _ _ hp)
  | kept hp _ ih => exact .kept (hμ _ _ hp) ih
  | gap ho _ ih => exact .gap (hμ _ _ ho) ih

theorem of_forall₂ (h : List.Forall₂ μ.Puts ids ids') (d : Nat) :
    Option.Rel μ.Puts ids[d]? ids'[d]? := by
  induction h generalizing d with
  | nil => exact .none
  | cons hp _ ih =>
    cases d with
    | zero => exact .some hp
    | succ d => exact ih d

theorem getElem? (h : Aligned μ gaps ids ids') (hd : Passes gaps d d') :
    Option.Rel μ.Puts ids[d]? ids'[d']? := by
  induction h generalizing d d' with
  | plain _ h =>
    cases hd
    exact of_forall₂ h d
  | kept hp _ ih =>
    cases hd with
    | here => exact .some hp
    | kept hd => exact ih hd
  | gap _ _ ih =>
    cases hd with
    | gap hd => exact ih hd

end Aligned

end Placing

open Placing

section Lifted

variable (D D' : Distances) (μ : Placing)

structure Closure.Lifted (inner : List Bool) (h h' : Heap) (f f' : Closure) : Prop where
  scope : μ.Puts f.scope f'.scope
  isInitializer : f'.isInitializer = f.isInitializer
  decl : ∃ gaps, Aligned μ gaps (h.chain f.scope) (h'.chain f'.scope) ∧
    Stmt.LiftedFunction D D' (inner ++ gaps) f.decl f'.decl

structure Class.Lifted (h h' : Heap) (c c' : Class) : Prop where
  name : c'.name = c.name
  ancestors : c'.ancestors = c.ancestors
  methods : ∀ name, Option.Rel (Closure.Lifted D D' μ [false] h h') (c.methods.get? name)
    (c'.methods.get? name)

structure Heap.Lifted (h h' : Heap) : Prop where
  size : μ.size = h.scopes.size
  range : ∀ s t, μ.Puts s t → t.index < h'.scopes.size
  injective : ∀ s s' t, μ.Puts s t → μ.Puts s' t → s' = s
  bindings : ∀ s t, μ.Puts s t → ∀ name, h'.binding? t name = h.binding? s name
  unbound : ∀ s, μ.Omits s → ∀ name, h.binding? s name = none
  functions : Alongside (fun _ => Closure.Lifted D D' μ [] h h') h.functions h'.functions
  classes : Alongside (fun _ => Class.Lifted D D' μ h h') h.classes h'.classes
  objects : h'.objects = h.objects

structure Machine.Lifted (m m' : Machine) : Prop where
  heap : m.heap.Lifted D D' μ m'.heap
  natives : m'.natives = m.natives
  fixed : ∀ native ∈ m.natives, native.Fixed
  home : Aligned μ [] (m.heap.chain m.globals) (m'.heap.chain m'.globals)
  distances : m.distances = D
  distances' : m'.distances = D'
  sink : m'.sink = m.sink

end Lifted

abbrev Machine.Aligned (μ : Placing) (gaps : List Bool) (m m' : Machine) : Prop :=
  Placing.Aligned μ gaps (m.heap.chain m.current) (m'.heap.chain m'.current)

structure Placing.Grows (μ : Placing) (h h' : Heap) (μ₁ : Placing) (h₁ h₁' : Heap) : Prop where
  places : ∀ (i : Nat) place, μ[i]? = some place → μ₁[i]? = some place
  heap : h.Extends (fun _ => True) h₁
  heap' : h'.Extends (fun _ => True) h₁'

namespace Placing.Grows

variable {μ μ₁ μ₂ : Placing} {h h' h₁ h₁' h₂ h₂' : Heap} {s t : ScopeId}

theorem refl (μ : Placing) (h h' : Heap) : Grows μ h h' μ h h' :=
  ⟨fun _ _ hp => hp, .refl _ h, .refl _ h'⟩

theorem trans (g : Grows μ h h' μ₁ h₁ h₁') (g₁ : Grows μ₁ h₁ h₁' μ₂ h₂ h₂') :
    Grows μ h h' μ₂ h₂ h₂' :=
  ⟨fun i place hp => g₁.places i place (g.places i place hp), g.heap.trans g₁.heap,
    g.heap'.trans g₁.heap'⟩

theorem of_scopes (hs : h₁.scopes = h.scopes) (hs' : h₁'.scopes = h'.scopes) :
    Grows μ h h' μ h₁ h₁' :=
  ⟨fun _ _ hp => hp, .of_scopes hs, .of_scopes hs'⟩

theorem define (hs : s.index < h.scopes.size) (ht : t.index < h'.scopes.size) (name : String)
    (v : Value) : Grows μ h h' μ (h.define s name v) (h'.define t name v) :=
  ⟨fun _ _ hp => hp, (Heap.extends_define hs).mono fun _ _ => trivial,
    (Heap.extends_define ht).mono fun _ _ => trivial⟩

theorem push (place : Option ScopeId) (heap : h.Extends (fun _ => True) h₁)
    (heap' : h'.Extends (fun _ => True) h₁') : Grows μ h h' (μ.push place) h₁ h₁' := by
  refine ⟨fun i b hb => ?_, heap, heap'⟩
  have hlt := (Array.getElem?_eq_some_iff.mp hb).1
  rwa [Array.getElem?_push_lt hlt, ← Array.getElem?_eq_getElem hlt]

end Placing.Grows

section Growth

variable {D D' : Distances} {μ μ₁ : Placing} {h h' h₁ h₁' : Heap} {inner gaps : List Bool}
  {f f' : Closure} {c c' : Class}

theorem Placing.Aligned.grow (ha : Aligned μ gaps (h.chain s) (h'.chain t))
    (g : μ.Grows h h' μ₁ h₁ h₁') : Aligned μ₁ gaps (h₁.chain s) (h₁'.chain t) := by
  rw [g.heap.chain s ha.ne_nil.1, g.heap'.chain t ha.ne_nil.2]
  exact ha.mono g.places

theorem Placing.Aligned.puts (ha : Aligned μ gaps (h.chain s) (h'.chain t))
    (hg : gaps.headD false = false) : μ.Puts s t := by
  have hd : Passes gaps 0 0 := by
    cases gaps with
    | nil => exact .plain
    | cons b gaps =>
      obtain rfl : b = false := hg
      exact .here
  have hrel := ha.getElem? hd
  rw [Heap.head?_chain ha.ne_nil.1, Heap.head?_chain ha.ne_nil.2] at hrel
  cases hrel with
  | some hp => exact hp

theorem Closure.Lifted.grow (hf : f.Lifted D D' μ inner h h' f') (g : μ.Grows h h' μ₁ h₁ h₁') :
    f.Lifted D D' μ₁ inner h₁ h₁' f' := by
  obtain ⟨gaps, ha, hd⟩ := hf.decl
  exact ⟨g.places _ _ hf.scope, hf.isInitializer, gaps, ha.grow g, hd⟩

theorem Closure.Lifted.arity_eq (hf : f.Lifted D D' μ inner h h' f') : f'.arity = f.arity := by
  obtain ⟨gaps, -, hd⟩ := hf.decl
  exact congrArg List.length hd.params_eq

theorem Class.Lifted.grow (hc : c.Lifted D D' μ h h' c') (g : μ.Grows h h' μ₁ h₁ h₁') :
    c.Lifted D D' μ₁ h₁ h₁' c' :=
  ⟨hc.name, hc.ancestors, fun name => rel_imp (hc.methods name) fun _ _ hf => hf.grow g⟩

end Growth

section Lookup

variable {D D' : Distances} {μ : Placing} {h h' : Heap} {s t : ScopeId} {gaps : List Bool}
  (hh : h.Lifted D D' μ h')
include hh

theorem Heap.Lifted.lt_size (hp : μ.Puts s t) : s.index < h.scopes.size :=
  hh.size ▸ (Array.getElem?_eq_some_iff.mp hp).1

theorem Heap.Lifted.lookupAt? (ha : Aligned μ gaps (h.chain s) (h'.chain t)) (hd : Passes gaps d d')
    (name : String) : h'.lookupAt? t d' name = h.lookupAt? s d name := by
  have hrel := ha.getElem? hd
  unfold Heap.lookupAt?
  generalize (h.chain s)[d]? = o, (h'.chain t)[d']? = o' at hrel ⊢
  cases hrel with
  | none => rfl
  | some hp => exact hh.bindings _ _ hp name

theorem Heap.Lifted.ownerAt? (ha : Aligned μ gaps (h.chain s) (h'.chain t)) (hd : Passes gaps d d')
    (name : String) : Option.Rel μ.Puts (h.ownerAt? s d name) (h'.ownerAt? t d' name) := by
  have hrel := ha.getElem? hd
  unfold Heap.ownerAt?
  generalize (h.chain s)[d]? = o, (h'.chain t)[d']? = o' at hrel ⊢
  cases hrel with
  | none => exact .none
  | some hp =>
    rw [Option.filter_some, Option.filter_some, hh.bindings _ _ hp name]
    split
    · exact .some hp
    · exact .none

theorem Heap.Lifted.find?_forall₂ (hids : List.Forall₂ μ.Puts ids ids') (name : String) :
    Option.Rel μ.Puts (ids.find? fun s => (h.binding? s name).isSome)
      (ids'.find? fun t => (h'.binding? t name).isSome) := by
  induction hids with
  | nil => exact .none
  | cons hp _ ih =>
    rw [List.find?_cons, List.find?_cons, hh.bindings _ _ hp name]
    split
    · exact .some hp
    · exact ih

theorem Heap.Lifted.owner? (ha : Aligned μ gaps (h.chain s) (h'.chain t)) (name : String) :
    Option.Rel μ.Puts (h.owner? s name) (h'.owner? t name) := by
  unfold Heap.owner?
  generalize h.chain s = ids, h'.chain t = ids' at ha
  induction ha with
  | plain _ hids => exact hh.find?_forall₂ hids name
  | kept hp _ ih =>
    rw [List.find?_cons, List.find?_cons, hh.bindings _ _ hp name]
    split
    · exact .some hp
    · exact ih
  | gap ho _ ih =>
    rw [List.find?_cons, hh.unbound _ ho name]
    exact ih

theorem Heap.Lifted.lookup? (ha : Aligned μ gaps (h.chain s) (h'.chain t)) (name : String) :
    h'.lookup? t name = h.lookup? s name := by
  have hrel := hh.owner? ha name
  rw [Heap.lookup?_eq, Heap.lookup?_eq]
  generalize h.owner? s name = o, h'.owner? t name = o' at hrel ⊢
  cases hrel with
  | none => rfl
  | some hp => exact hh.bindings _ _ hp name

theorem Heap.Lifted.beside :
    Alongside (fun _ => Class.Beside (Closure.Lifted D D' μ [false] h h')) h.classes h'.classes :=
  hh.classes.mono fun _ _ _ hc => ⟨hc.name, hc.ancestors, hc.methods⟩

theorem Heap.Lifted.method? (c : ClassId) (name : String) :
    Option.Rel (Closure.Lifted D D' μ [false] h h') (h.method? c name) (h'.method? c name) :=
  Heap.method?_beside hh.beside c name

theorem Heap.Lifted.view : h'.view = h.view := by
  refine Heap.view_beside hh.beside (fun _ _ hf => hf.arity_eq)
    (hh.functions.mono fun _ f f' hf => ?_) hh.objects
  obtain ⟨gaps, -, hd⟩ := hf.decl
  exact ⟨congrArg Token.lexeme hd.name_eq, hf.arity_eq⟩

theorem Heap.Lifted.line (v : Value) : h'.line v = h.line v :=
  Heap.line_congr hh.view v

end Lookup

section Changes

variable {D D' : Distances} {μ μ₁ : Placing} {h h' h₁ h₁' : Heap} {s t : ScopeId}
  (hh : h.Lifted D D' μ h')
include hh

theorem Heap.Lifted.functions_grow (g : μ.Grows h h' μ₁ h₁ h₁') :
    Alongside (fun _ => Closure.Lifted D D' μ₁ [] h₁ h₁') h.functions h'.functions :=
  hh.functions.mono fun _ _ _ hf => hf.grow g

theorem Heap.Lifted.classes_grow (g : μ.Grows h h' μ₁ h₁ h₁') :
    Alongside (fun _ => Class.Lifted D D' μ₁ h₁ h₁') h.classes h'.classes :=
  hh.classes.mono fun _ _ _ hc => hc.grow g

theorem Heap.Lifted.define (hp : μ.Puts s t) (name : String) (v : Value) :
    (h.define s name v).Lifted D D' μ (h'.define t name v) := by
  have g : μ.Grows h h' μ (h.define s name v) (h'.define t name v) :=
    .define (hh.lt_size hp) (hh.range s t hp) name v
  refine ⟨hh.size.trans (by simp [Heap.define]), fun s₁ t₁ hp₁ => ?_, hh.injective,
    fun s₁ t₁ hp₁ other => ?_, fun s₁ ho other => ?_, hh.functions_grow g, hh.classes_grow g,
    hh.objects⟩
  · simpa [Heap.define] using hh.range s₁ t₁ hp₁
  · by_cases hs : s = s₁
    · subst hs
      obtain rfl := hp.unique hp₁
      rw [Heap.binding?_define_self _ _ _ _ _ (hh.lt_size hp),
        Heap.binding?_define_self _ _ _ _ _ (hh.range s t₁ hp), hh.bindings s t₁ hp]
    · have ht : t ≠ t₁ := fun heq => hs (hh.injective _ _ _ hp₁ (heq ▸ hp))
      rw [Heap.binding?_define_of_ne _ _ _ _ hs, Heap.binding?_define_of_ne _ _ _ _ ht,
        hh.bindings s₁ t₁ hp₁]
  · rw [Heap.binding?_define_of_ne _ _ _ _ (hp.ne_of_omits ho), hh.unbound s₁ ho]

theorem Heap.Lifted.addChild (parent parent' : ScopeId) (b : Bindings Value) :
    (h.addChild parent b).2.Lifted D D' (μ.push (some h'.nextScope)) (h'.addChild parent' b).2 := by
  have g : μ.Grows h h' (μ.push (some h'.nextScope)) (h.addChild parent b).2
      (h'.addChild parent' b).2 :=
    .push _ (Heap.extends_addChild _ h parent b) (Heap.extends_addChild _ h' parent' b)
  refine ⟨?_, fun s t hp => ?_, fun s s' t hp hp' => ?_, fun s t hp name => ?_, fun s ho name => ?_,
    hh.functions_grow g, hh.classes_grow g, hh.objects⟩
  · rw [Array.size_push, Heap.size_addChild, hh.size]
  · rw [Heap.size_addChild]
    obtain ⟨-, heq⟩ | ⟨-, hp⟩ := puts_push_iff.mp hp
    · cases heq
      exact Nat.lt_succ_self _
    · exact Nat.lt_succ_of_lt (hh.range s t hp)
  · obtain ⟨hs, heq⟩ | ⟨-, hp⟩ := puts_push_iff.mp hp
    · obtain ⟨hs', -⟩ | ⟨-, hp'⟩ := puts_push_iff.mp hp'
      · cases s
        cases s'
        exact congrArg ScopeId.mk (hs'.trans hs.symm)
      · cases heq
        exact absurd (hh.range _ _ hp') (Nat.lt_irrefl _)
    · obtain ⟨-, heq⟩ | ⟨-, hp'⟩ := puts_push_iff.mp hp'
      · cases heq
        exact absurd (hh.range _ _ hp) (Nat.lt_irrefl _)
      · exact hh.injective s s' t hp hp'
  · rw [Heap.binding?_addChild, Heap.binding?_addChild]
    obtain ⟨hs, heq⟩ | ⟨hs, hp⟩ := puts_push_iff.mp hp
    · cases heq
      rw [if_pos (hs.trans hh.size)]
      exact if_pos rfl
    · rw [if_neg (Nat.ne_of_lt (hh.range s t hp)), if_neg (hh.size ▸ hs), hh.bindings s t hp]
  · obtain ⟨-, heq⟩ | ⟨hs, ho⟩ := omits_push_iff.mp ho
    · cases heq
    · rw [Heap.binding?_addChild, if_neg (hh.size ▸ hs), hh.unbound s ho]

theorem Heap.Lifted.addGap (parent : ScopeId) :
    (h.addChild parent .empty).2.Lifted D D' (μ.push none) h' := by
  have g : μ.Grows h h' (μ.push none) (h.addChild parent .empty).2 h' :=
    .push _ (Heap.extends_addChild _ h parent .empty) (.refl _ h')
  have hold {s t : ScopeId} (hp : Puts (μ.push none) s t) : s.index ≠ h.scopes.size ∧ μ.Puts s t := by
    obtain ⟨-, heq⟩ | ⟨hs, hp⟩ := puts_push_iff.mp hp
    · cases heq
    · exact ⟨hh.size ▸ hs, hp⟩
  refine ⟨?_, fun s t hp => hh.range s t (hold hp).2,
    fun s s' t hp hp' => hh.injective s s' t (hold hp).2 (hold hp').2, fun s t hp name => ?_,
    fun s ho name => ?_, hh.functions_grow g, hh.classes_grow g, hh.objects⟩
  · rw [Array.size_push, Heap.size_addChild, hh.size]
  · rw [Heap.binding?_addChild, if_neg (hold hp).1, hh.bindings s t (hold hp).2]
  · rw [Heap.binding?_addChild]
    obtain ⟨hs, -⟩ | ⟨hs, ho⟩ := omits_push_iff.mp ho
    · rw [if_pos (hs.trans hh.size)]
      rfl
    · rw [if_neg (hh.size ▸ hs), hh.unbound s ho]

theorem Heap.Lifted.addFunction {f f' : Closure} (hf : f.Lifted D D' μ [] h h' f') :
    (h.addFunction f).2.Lifted D D' μ (h'.addFunction f').2 := by
  have g : μ.Grows h h' μ (h.addFunction f).2 (h'.addFunction f').2 := .of_scopes rfl rfl
  exact ⟨hh.size, hh.range, hh.injective, hh.bindings, hh.unbound,
    (hh.functions_grow g).push (hf.grow g), hh.classes_grow g, hh.objects⟩

theorem Heap.Lifted.addClass {c c' : Class} (hc : c.Lifted D D' μ h h' c') :
    (h.addClass c).2.Lifted D D' μ (h'.addClass c').2 := by
  have g : μ.Grows h h' μ (h.addClass c).2 (h'.addClass c').2 := .of_scopes rfl rfl
  exact ⟨hh.size, hh.range, hh.injective, hh.bindings, hh.unbound, hh.functions_grow g,
    (hh.classes_grow g).push (hc.grow g), hh.objects⟩

theorem Heap.Lifted.addObject (o : Object) :
    (h.addObject o).2.Lifted D D' μ (h'.addObject o).2 := by
  have g : μ.Grows h h' μ (h.addObject o).2 (h'.addObject o).2 := .of_scopes rfl rfl
  exact ⟨hh.size, hh.range, hh.injective, hh.bindings, hh.unbound, hh.functions_grow g,
    hh.classes_grow g, by simp [Heap.addObject, hh.objects]⟩

theorem Heap.Lifted.setField (o : ObjectId) (name : String) (v : Value) :
    (h.setField o name v).Lifted D D' μ (h'.setField o name v) := by
  have g : μ.Grows h h' μ (h.setField o name v) (h'.setField o name v) := .of_scopes rfl rfl
  exact ⟨hh.size, hh.range, hh.injective, hh.bindings, hh.unbound, hh.functions_grow g,
    hh.classes_grow g, by simp [Heap.setField, hh.objects]⟩

end Changes

end Treewalk
