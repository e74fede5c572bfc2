import Treewalk.Proofs.Scoping.Growth
import Treewalk.Proofs.SideBySide.Tree
import Treewalk.Machine

namespace Treewalk

theorem rel_imp {R S : α → β → Prop} {a : Option α} {b : Option β} (h : Option.Rel R a b)
    (hRS : ∀ x y, R x y → S x y) : Option.Rel S a b := by
  cases h with
  | none => exact .none
  | some h => exact .some (hRS _ _ h)

theorem map_eq_of_rel {R : α → α → Prop} {a b : Option α} {f : α → β} (h : Option.Rel R a b)
    (hf : ∀ x y, R x y → f y = f x) : b.map f = a.map f := by
  cases h with
  | none => rfl
  | some h => exact congrArg some (hf _ _ h)

def Alongside (R : Nat → α → α → Prop) (a a' : Array α) : Prop := ∀ i, Option.Rel (R i) a[i]? a'[i]?

namespace Alongside

variable {R S : Nat → α → α → Prop} {a a' : Array α} {x x' : α} {i : Nat}

theorem of_some (h : Alongside R a a') (hx : a[i]? = some x) :
    ∃ x', a'[i]? = some x' ∧ R i x x' := by
  have hi := h i
  rw [hx] at hi
  cases hi' : a'[i]? with
  | none =>
    rw [hi'] at hi
    cases hi
  | some x' =>
    rw [hi'] at hi
    cases hi with
    | some hr => exact ⟨x', rfl, hr⟩

theorem of_none (h : Alongside R a a') (hx : a[i]? = none) : a'[i]? = none := by
  have hi := h i
  rw [hx] at hi
  cases hi' : a'[i]? with
  | none => rfl
  | some x' =>
    rw [hi'] at hi
    cases hi

theorem size_eq (h : Alongside R a a') : a'.size = a.size := by
  refine Nat.le_antisymm (Nat.not_lt.mp fun hlt => ?_) (Nat.not_lt.mp fun hlt => ?_)
  · have hn := h.of_none (Array.getElem?_eq_none (Nat.le_refl a.size))
    exact absurd (Array.getElem?_eq_none_iff.mp hn) (Nat.not_le.mpr hlt)
  · obtain ⟨x', hx, -⟩ := h.of_some (Array.getElem?_eq_getElem hlt)
    exact absurd (Array.getElem?_eq_some_iff.mp hx).1 (Nat.lt_irrefl _)

theorem mono (h : Alongside R a a') (hRS : ∀ i x x', R i x x' → S i x x') : Alongside S a a' := by
  intro i
  cases hx : a[i]? with
  | none =>
    rw [h.of_none hx]
    exact .none
  | some x =>
    obtain ⟨x', hx', hr⟩ := h.of_some hx
    rw [hx']
    exact .some (hRS i x x' hr)

theorem push (h : Alongside R a a') (hx : R a.size x x') :
    Alongside R (a.push x) (a'.push x') := by
  intro i
  rw [Array.getElem?_push, Array.getElem?_push, h.size_eq]
  split
  · next hi => exact .some (hi ▸ hx)
  · exact h i

theorem modify {f f' : α → α} (h : Alongside R a a') (j : Nat)
    (hf : ∀ x x', R j x x' → R j (f x) (f' x')) :
    Alongside R (a.modify j f) (a'.modify j f') := by
  intro i
  rw [Array.getElem?_modify, Array.getElem?_modify]
  split
  · next hi =>
    subst hi
    cases hx : a[j]? with
    | none =>
      rw [h.of_none hx]
      exact .none
    | some x =>
      obtain ⟨x', hx', hr⟩ := h.of_some hx
      rw [hx']
      exact .some (hf x x' hr)
  · exact h i

end Alongside

/-- What a host function can see of a heap: names and arities of functions, names, ancestors and
methods of classes, and all of the objects. -/
structure Heap.View where
  functions : Nat → Option (String × Nat)
  classes : Nat → Option (String × List ClassId × (String → Option Nat))
  objects : Array Object

def Heap.view (h : Heap) : View where
  functions i := h.functions[i]?.map fun f => (f.decl.name.lexeme, f.arity)
  classes i := h.classes[i]?.map fun c =>
    (c.name, c.ancestors, fun name => (c.methods.get? name).map Closure.arity)
  objects := h.objects

theorem Heap.className_eq (h : Heap) (c : ClassId) :
    h.className c = ((h.view.classes c.index).map (·.1)).getD "" := by
  simp only [Heap.className, Heap.view, Option.map_map]
  cases h.classes[c.index]? <;> rfl

theorem Heap.functionName_eq (h : Heap) (f : FunctionId) :
    h.functionName f = ((h.view.functions f.index).map (·.1)).getD "" := by
  simp only [Heap.functionName, Heap.view, Option.map_map]
  cases h.functions[f.index]? <;> rfl

theorem Heap.line_congr {h h' : Heap} (hv : h'.view = h.view) (v : Value) :
    h'.line v = h.line v := by
  have ho : h'.objects = h.objects := congrArg View.objects hv
  cases v with
  | bool b => cases b <;> rfl
  | function f => simp only [Heap.line, Heap.pieces, Heap.functionName_eq, hv]
  | cls c => simp only [Heap.line, Heap.pieces, Heap.display, Heap.className_eq, hv]
  | object o =>
    simp only [Heap.line, Heap.pieces, Heap.objectClassName, Heap.className_eq, hv, ho]
  | _ => rfl

/-- A fixed function of its arguments and of what they show. -/
def Native.Fixed (native : Native) : Prop :=
  ∀ h h' : Heap, h.view = h'.view → ∀ args, native.body h args = native.body h' args

structure Class.Beside (R : Closure → Closure → Prop) (c c' : Class) : Prop where
  name : c'.name = c.name
  ancestors : c'.ancestors = c.ancestors
  methods : ∀ name, Option.Rel R (c.methods.get? name) (c'.methods.get? name)

section Beside

variable {R : Closure → Closure → Prop} {h h' : Heap}
  (hc : Alongside (fun _ => Class.Beside R) h.classes h'.classes)
include hc

theorem Heap.lineage_beside (c : ClassId) : h'.lineage c = h.lineage c := by
  unfold Heap.lineage
  cases hcls : h.classes[c.index]? with
  | none => rw [hc.of_none hcls]
  | some cls =>
    obtain ⟨cls', hcls', hb⟩ := hc.of_some hcls
    rw [hcls']
    exact congrArg (c :: ·) hb.ancestors

theorem Heap.ownMethod?_beside (c : ClassId) (name : String) :
    Option.Rel R (h.ownMethod? c name) (h'.ownMethod? c name) := by
  unfold Heap.ownMethod?
  cases hcls : h.classes[c.index]? with
  | none =>
    rw [hc.of_none hcls]
    exact .none
  | some cls =>
    obtain ⟨cls', hcls', hb⟩ := hc.of_some hcls
    rw [hcls']
    exact hb.methods name

theorem Heap.method?_beside (c : ClassId) (name : String) :
    Option.Rel R (h.method? c name) (h'.method? c name) := by
  unfold Heap.method?
  rw [lineage_beside hc]
  induction h.lineage c with
  | nil => exact .none
  | cons c cs ih =>
    have hown := ownMethod?_beside hc c name
    rw [List.findSome?_cons, List.findSome?_cons]
    generalize h.ownMethod? c name = f, h'.ownMethod? c name = f' at hown ⊢
    cases hown with
    | none => exact ih
    | some hf => exact .some hf

theorem Heap.view_beside (hR : ∀ f f', R f f' → f'.arity = f.arity)
    (hf : Alongside (fun _ f f' => f'.decl.name.lexeme = f.decl.name.lexeme ∧ f'.arity = f.arity)
      h.functions h'.functions) (ho : h'.objects = h.objects) : h'.view = h.view := by
  have hfunctions : h'.view.functions = h.view.functions := by
    funext i
    exact map_eq_of_rel (hf i) fun f f' hff => by rw [hff.1, hff.2]
  have hclasses : h'.view.classes = h.view.classes := by
    funext i
    refine map_eq_of_rel (hc i) fun c c' hb => ?_
    have hm (name : String) :
        (c'.methods.get? name).map Closure.arity = (c.methods.get? name).map Closure.arity :=
      map_eq_of_rel (hb.methods name) hR
    simp only [hb.name, hb.ancestors, hm]
  have hview : Heap.View.mk h'.view.functions h'.view.classes h'.objects =
      ⟨h.view.functions, h.view.classes, h.objects⟩ := by
    rw [hfunctions, hclasses, ho]
  exact hview

end Beside

section Alike

variable (w : Wording) (P : Pairing)

structure Scope.Alike (marked : Bool) (s s' : Scope) : Prop where
  enclosing : s'.enclosing = s.enclosing
  bindings : ∀ name, w.Known name → s'.bindings.get? (w.word marked name) = s.bindings.get? name

/-- The marks of some scopes, of which the last is the global one. -/
def Marked (μ : Array Bool) (scopes : List ScopeId) (marks : List Bool) : Prop :=
  List.Forall₂ (fun s b => μ[s.index]? = some b) scopes (marks ++ [false])

structure Closure.Alike (inner : List Bool) (μ : Array Bool) (h : Heap) (f f' : Closure) :
    Prop where
  scope : f'.scope = f.scope
  isInitializer : f'.isInitializer = f.isInitializer
  decl : ∃ marks, Marked μ (h.chain f.scope) marks ∧
    Stmt.AlikeFunction w P (inner ++ marks) f.decl f'.decl

structure Class.Alike (μ : Array Bool) (h : Heap) (c c' : Class) : Prop where
  name : c'.name = c.name
  ancestors : c'.ancestors = c.ancestors
  methods : ∀ name, Option.Rel (Closure.Alike w P [false] μ h) (c.methods.get? name)
    (c'.methods.get? name)

structure Heap.Alike (μ : Array Bool) (h h' : Heap) : Prop where
  size : μ.size = h.scopes.size
  scopes : Alongside (fun i s s' => ∃ b, μ[i]? = some b ∧ s.Alike w b s') h.scopes h'.scopes
  functions : Alongside (fun _ => Closure.Alike w P [] μ h) h.functions h'.functions
  classes : Alongside (fun _ => Class.Alike w P μ h) h.classes h'.classes
  objects : h'.objects = h.objects

structure Machine.Alike (μ : Array Bool) (m m' : Machine) : Prop where
  heap : m.heap.Alike w P μ m'.heap
  natives : m'.natives = m.natives
  fixed : ∀ native ∈ m.natives, native.Fixed
  globals : m'.globals = m.globals
  home : Marked μ (m.heap.chain m.globals) []
  current : m'.current = m.current
  distances : ∀ i i' d, P i i' d → m.distances[i]? = d ∧ m'.distances[i']? = d
  sink : m'.sink = m.sink

end Alike

structure Grows (μ : Array Bool) (h : Heap) (μ₁ : Array Bool) (h₁ : Heap) : Prop where
  marks : ∀ (i : Nat) b, μ[i]? = some b → μ₁[i]? = some b
  heap : h.Extends (fun _ => True) h₁

namespace Grows

variable {μ μ₁ μ₂ : Array Bool} {h h₁ h₂ : Heap}

theorem refl (μ : Array Bool) (h : Heap) : Grows μ h μ h := ⟨fun _ _ hb => hb, .refl _ h⟩

theorem trans (g : Grows μ h μ₁ h₁) (g₁ : Grows μ₁ h₁ μ₂ h₂) : Grows μ h μ₂ h₂ :=
  ⟨fun i b hb => g₁.marks i b (g.marks i b hb), g.heap.trans g₁.heap⟩

theorem of_scopes (hs : h₁.scopes = h.scopes) : Grows μ h μ h₁ :=
  ⟨fun _ _ hb => hb, .of_scopes hs⟩

theorem define (hs : s.index < h.scopes.size) (name : String) (v : Value) :
    Grows μ h μ (h.define s name v) :=
  ⟨fun _ _ hb => hb, (Heap.extends_define hs).mono fun _ _ => trivial⟩

theorem addChild (marked : Bool) (parent : ScopeId) (b : Bindings Value) :
    Grows μ h (μ.push marked) (h.addChild parent b).2 := by
  refine ⟨fun i b hb => ?_, Heap.extends_addChild _ h parent b⟩
  have hlt := (Array.getElem?_eq_some_iff.mp hb).1
  rwa [Array.getElem?_push_lt hlt, ← Array.getElem?_eq_getElem hlt]

end Grows

section Growth

variable {w : Wording} {P : Pairing} {μ μ₁ : Array Bool} {h h₁ : Heap} {inner : List Bool}

theorem Marked.chain_ne_nil (hm : Marked μ scopes marks) : scopes ≠ [] := by
  rintro rfl
  have hl := hm.length_eq
  simp at hl

theorem Marked.grow (hm : Marked μ (h.chain s) marks) (g : Grows μ h μ₁ h₁) :
    Marked μ₁ (h₁.chain s) marks := by
  rw [g.heap.chain s hm.chain_ne_nil]
  exact hm.imp fun _ _ hb => g.marks _ _ hb

theorem Closure.Alike.grow {f f' : Closure} (hf : f.Alike w P inner μ h f') (g : Grows μ h μ₁ h₁) :
    f.Alike w P inner μ₁ h₁ f' := by
  obtain ⟨marks, hm, hd⟩ := hf.decl
  exact ⟨hf.scope, hf.isInitializer, marks, hm.grow g, hd⟩

theorem Closure.Alike.arity_eq {f f' : Closure} (hf : f.Alike w P inner μ h f') :
    f'.arity = f.arity := by
  obtain ⟨marks, -, hd⟩ := hf.decl
  exact hd.length_params

theorem Class.Alike.grow {c c' : Class} (hc : c.Alike w P μ h c') (g : Grows μ h μ₁ h₁) :
    c.Alike w P μ₁ h₁ c' := by
  exact ⟨hc.name, hc.ancestors, fun name => rel_imp (hc.methods name) fun _ _ hf => hf.grow g⟩

end Growth

section More

variable {w : Wording} {P Q : Pairing} {μ : Array Bool} {inner : List Bool}
  (hPQ : ∀ i i' d, P i i' d → Q i i' d)
include hPQ

theorem Closure.Alike.mono {h : Heap} {f f' : Closure} (hf : f.Alike w P inner μ h f') :
    f.Alike w Q inner μ h f' := by
  obtain ⟨marks, hm, hd⟩ := hf.decl
  exact ⟨hf.scope, hf.isInitializer, marks, hm, hd.mono fun i _ => hPQ i⟩

theorem Heap.Alike.mono {h h' : Heap} (hh : h.Alike w P μ h') : h.Alike w Q μ h' :=
  ⟨hh.size, hh.scopes, hh.functions.mono fun _ _ _ hf => hf.mono hPQ,
    hh.classes.mono fun _ _ _ hc =>
      ⟨hc.name, hc.ancestors, fun name => rel_imp (hc.methods name) fun _ _ hf => hf.mono hPQ⟩,
    hh.objects⟩

theorem Machine.Alike.settle {m m' : Machine} {D D' : Distances} (hm : m.Alike w P μ m')
    (hD : ∀ i i' d, Q i i' d → D[i]? = d ∧ D'[i']? = d) :
    Machine.Alike w Q μ { m with distances := D } { m' with distances := D' } :=
  ⟨hm.heap.mono hPQ, hm.natives, hm.fixed, hm.globals, hm.home, hm.current, hD, hm.sink⟩

end More

theorem Marked.mark {μ : Array Bool} (hm : Marked μ scopes marks) (hd : scopes[d]? = some t) :
    μ[t.index]? = some (Wording.markAt marks (some d)) := by
  induction marks generalizing scopes d with
  | nil =>
    cases hm with
    | cons hb hnil =>
      cases hnil
      cases d with
      | zero =>
        cases hd
        exact hb
      | succ d => cases hd
  | cons b marks ih =>
    cases hm with
    | cons hb hrest =>
      cases d with
      | zero =>
        cases hd
        exact hb
      | succ d => exact ih hrest hd

theorem Marked.eq_singleton {μ : Array Bool} {h : Heap} (hm : Marked μ (h.chain s) []) :
    h.chain s = [s] ∧ μ[s.index]? = some false := by
  unfold Heap.chain at hm ⊢
  split
  · next scope hs =>
    rw [hs] at hm
    dsimp only at hm
    generalize scope.enclosing = outer at hm ⊢
    cases hm with
    | cons hb hnil =>
      cases hnil
      exact ⟨rfl, hb⟩
  · next hs =>
    rw [hs] at hm
    cases hm

section Lookup

variable {w : Wording} {P : Pairing} {μ : Array Bool} {h h' : Heap} {s t : ScopeId}
  (hh : h.Alike w P μ h')
include hh

theorem Heap.Alike.lt_size (hb : μ[s.index]? = some marked) : s.index < h.scopes.size :=
  hh.size ▸ (Array.getElem?_eq_some_iff.mp hb).1

theorem Heap.Alike.chain (s : ScopeId) : h'.chain s = h.chain s := by
  unfold Heap.chain
  cases hs : h.scopes[s.index]? with
  | none => rw [hh.scopes.of_none hs]
  | some scope =>
    obtain ⟨scope', hs', b, -, hb⟩ := hh.scopes.of_some hs
    rw [hs']
    exact congrArg (s :: ·) hb.enclosing

theorem Heap.Alike.binding? (hb : μ[s.index]? = some marked) (hn : w.Known name) :
    h'.binding? s (w.word marked name) = h.binding? s name := by
  unfold Heap.binding?
  cases hs : h.scopes[s.index]? with
  | none => rw [hh.scopes.of_none hs]
  | some scope =>
    obtain ⟨scope', hs', b, hb', ha⟩ := hh.scopes.of_some hs
    cases hb.symm.trans hb'
    rw [hs']
    exact ha.bindings name hn

theorem Heap.Alike.lookupAt? (hm : Marked μ (h.chain s) marks) (hn : w.Known name) :
    h'.lookupAt? s d (w.word (Wording.markAt marks (some d)) name) = h.lookupAt? s d name := by
  unfold Heap.lookupAt?
  rw [hh.chain]
  split
  · next t ht => exact hh.binding? (hm.mark ht) hn
  · rfl

theorem Heap.Alike.ownerAt? (hm : Marked μ (h.chain s) marks) (hn : w.Known name) :
    h'.ownerAt? s d (w.word (Wording.markAt marks (some d)) name) = h.ownerAt? s d name := by
  unfold Heap.ownerAt?
  rw [hh.chain]
  cases ht : (h.chain s)[d]? with
  | none => rfl
  | some t => simp only [Option.filter_some, hh.binding? (hm.mark ht) hn]

theorem Heap.Alike.lookup? (hm : Marked μ (h.chain s) []) (hn : w.Known name) :
    h'.lookup? s name = h.lookup? s name := by
  obtain ⟨hc, hb⟩ := hm.eq_singleton
  have hbind := hh.binding? hb hn
  rw [w.word_false] at hbind
  simp only [Heap.lookup?, hh.chain, hc, List.findSome?_cons, List.findSome?_nil, hbind]

theorem Heap.Alike.owner? (hm : Marked μ (h.chain s) []) (hn : w.Known name) :
    h'.owner? s name = h.owner? s name := by
  obtain ⟨hc, hb⟩ := hm.eq_singleton
  have hbind := hh.binding? hb hn
  rw [w.word_false] at hbind
  simp only [Heap.owner?, hh.chain, hc, List.find?_cons, List.find?_nil, hbind]

theorem Heap.Alike.beside :
    Alongside (fun _ => Class.Beside (Closure.Alike w P [false] μ h)) h.classes h'.classes :=
  hh.classes.mono fun _ _ _ hc => ⟨hc.name, hc.ancestors, hc.methods⟩

theorem Heap.Alike.method? (c : ClassId) (name : String) :
    Option.Rel (Closure.Alike w P [false] μ h) (h.method? c name) (h'.method? c name) :=
  Heap.method?_beside hh.beside c name

theorem Heap.Alike.view : h'.view = h.view := by
  refine Heap.view_beside hh.beside (fun _ _ hf => hf.arity_eq)
    (hh.functions.mono fun _ f f' hf => ?_) hh.objects
  obtain ⟨marks, -, hd⟩ := hf.decl
  exact ⟨hd.lexeme_name, hf.arity_eq⟩

theorem Heap.Alike.line (v : Value) : h'.line v = h.line v :=
  Heap.line_congr hh.view v

end Lookup

section Changes

variable {w : Wording} {P : Pairing} {μ μ₁ : Array Bool} {h h' h₁ h₁' : Heap} {s : ScopeId}
  (hh : h.Alike w P μ h')
include hh

theorem Heap.Alike.functions_grow (g : Grows μ h μ₁ h₁) :
    Alongside (fun _ => Closure.Alike w P [] μ₁ h₁) h.functions h'.functions :=
  hh.functions.mono fun _ _ _ hf => hf.grow g

theorem Heap.Alike.classes_grow (g : Grows μ h μ₁ h₁) :
    Alongside (fun _ => Class.Alike w P μ₁ h₁) h.classes h'.classes :=
  hh.classes.mono fun _ _ _ hc => hc.grow g

theorem Heap.Alike.rescope (g : Grows μ h μ₁ h₁) (hf : h₁.functions = h.functions)
    (hc : h₁.classes = h.classes) (ho : h₁.objects = h.objects)
    (hf' : h₁'.functions = h'.functions) (hc' : h₁'.classes = h'.classes)
    (ho' : h₁'.objects = h'.objects) (hsize : μ₁.size = h₁.scopes.size)
    (hscopes : Alongside (fun i s s' => ∃ b, μ₁[i]? = some b ∧ s.Alike w b s') h₁.scopes
      h₁'.scopes) : h₁.Alike w P μ₁ h₁' := by
  refine ⟨hsize, hscopes, ?_, ?_, ?_⟩
  · rw [hf, hf']
    exact hh.functions_grow g
  · rw [hc, hc']
    exact hh.classes_grow g
  · rw [ho, ho', hh.objects]

theorem Heap.Alike.bind {name name' : String} (hb : μ[s.index]? = some marked)
    (hn : ∀ other, w.Known other → (name' = w.word marked other ↔ name = other)) (v : Value) :
    (h.define s name v).Alike w P μ (h'.define s name' v) := by
  refine hh.rescope (.define (hh.lt_size hb) name v) rfl rfl rfl rfl rfl rfl
    (hh.size.trans (by simp [Heap.define])) (hh.scopes.modify s.index fun scope scope' ha => ?_)
  obtain ⟨b, hb', ha⟩ := ha
  cases hb.symm.trans hb'
  refine ⟨marked, hb, ha.enclosing, fun other ho => ?_⟩
  rw [Bindings.get?_insert, Bindings.get?_insert, ha.bindings other ho]
  exact if_congr (hn other ho) rfl rfl

theorem Heap.Alike.define (hb : μ[s.index]? = some marked) (hn : w.Known name) (v : Value) :
    (h.define s name v).Alike w P μ (h'.define s (w.word marked name) v) :=
  hh.bind hb (fun _ ho => ⟨w.word_inj hn ho, congrArg _⟩) v

theorem Heap.Alike.addChild (marked : Bool) (parent : ScopeId) {b b' : Bindings Value}
    (hb : ∀ name, w.Known name → b'.get? (w.word marked name) = b.get? name) :
    (h.addChild parent b).2.Alike w P (μ.push marked) (h'.addChild parent b').2 := by
  refine hh.rescope (.addChild marked parent b) rfl rfl rfl rfl rfl rfl
    (by simp [Heap.addChild, Heap.addScope, hh.size]) (Alongside.push ?_ ?_)
  · refine hh.scopes.mono fun i s s' ha => ?_
    obtain ⟨c, hc, ha⟩ := ha
    exact ⟨c, (Grows.addChild (h := h) marked parent b).marks i c hc, ha⟩
  · exact ⟨marked, by rw [← hh.size, Array.getElem?_push_size], hh.chain parent, hb⟩

theorem Heap.Alike.addFunction {f f' : Closure} (hf : f.Alike w P [] μ h f') :
    (h.addFunction f).2.Alike w P μ (h'.addFunction f').2 := by
  have g : Grows μ h μ (h.addFunction f).2 := .of_scopes rfl
  exact ⟨hh.size, hh.scopes, (hh.functions_grow g).push (hf.grow g), hh.classes_grow g, hh.objects⟩

theorem Heap.Alike.addClass {c c' : Class} (hc : c.Alike w P μ h c') :
    (h.addClass c).2.Alike w P μ (h'.addClass c').2 := by
  have g : Grows μ h μ (h.addClass c).2 := .of_scopes rfl
  exact ⟨hh.size, hh.scopes, hh.functions_grow g, (hh.classes_grow g).push (hc.grow g), hh.objects⟩

theorem Heap.Alike.addObject (o : Object) :
    (h.addObject o).2.Alike w P μ (h'.addObject o).2 := by
  have g : Grows μ h μ (h.addObject o).2 := .of_scopes rfl
  exact ⟨hh.size, hh.scopes, hh.functions_grow g, hh.classes_grow g,
    by simp [Heap.addObject, hh.objects]⟩

theorem Heap.Alike.setField (o : ObjectId) (name : String) (v : Value) :
    (h.setField o name v).Alike w P μ (h'.setField o name v) := by
  have g : Grows μ h μ (h.setField o name v) := .of_scopes rfl
  exact ⟨hh.size, hh.scopes, hh.functions_grow g, hh.classes_grow g,
    by simp [Heap.setField, hh.objects]⟩

end Changes

section Fresh

variable {w : Wording} {P : Pairing} {μ : Array Bool} {m m' : Machine}

theorem Machine.Alike.addNative (hm : m.Alike w P μ m') {native : Native} (hf : native.Fixed) :
    (m.addNative native).Alike w P μ (m'.addNative native) := by
  obtain ⟨-, hb⟩ := hm.home.eq_singleton
  have hheap : (m.heap.define m.globals native.name (.native ⟨m.natives.size⟩)).Alike w P μ
      (m'.heap.define m'.globals native.name (.native ⟨m'.natives.size⟩)) := by
    rw [hm.globals, hm.natives]
    exact hm.heap.bind hb (fun other _ => by rw [w.word_false]) _
  refine ⟨hheap, ?_, fun f hmem => ?_, hm.globals, ?_, hm.current, hm.distances, hm.sink⟩
  · exact congrArg (·.push native) hm.natives
  · obtain hmem | rfl := Array.mem_push.mp hmem
    · exact hm.fixed f hmem
    · exact hf
  · exact hm.home.grow (.define (hm.heap.lt_size hb) _ _)

theorem Machine.alike_new (w : Wording) (sink : Sink) (now : Float) :
    (Machine.new sink now).Alike w (fun _ _ _ => False) #[false] (Machine.new sink now) := by
  have hempty : Heap.empty.Alike w (fun _ _ _ => False) #[] Heap.empty :=
    ⟨rfl, fun _ => .none, fun _ => .none, fun _ => .none, rfl⟩
  have hheap : (Heap.empty.addChild ⟨0⟩ .empty).2.Alike w (fun _ _ _ => False) #[false]
      (Heap.empty.addChild ⟨0⟩ .empty).2 := hempty.addChild false ⟨0⟩ fun _ _ => rfl
  have hclock : (Machine.clock now).Fixed := fun _ _ _ _ => rfl
  have hbare : Machine.Alike w (fun _ _ _ => False) #[false]
      ⟨(Heap.empty.addChild ⟨0⟩ .empty).2, #[], ⟨0⟩, ⟨0⟩, ∅, sink⟩
      ⟨(Heap.empty.addChild ⟨0⟩ .empty).2, #[], ⟨0⟩, ⟨0⟩, ∅, sink⟩ :=
    ⟨hheap, rfl, fun f hf => absurd hf (Array.not_mem_empty f), rfl, .cons rfl .nil, rfl,
      fun _ _ _ => False.elim, rfl⟩
  exact hbare.addNative hclock

end Fresh

end Treewalk
