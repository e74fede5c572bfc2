import Treewalk.Proofs.Scoping.Growth
import Treewalk.Proofs.Scoping.Points

namespace Treewalk

namespace Heap

def Inner (h : Heap) (s : ScopeId) : Prop := 1 < (h.chain s).length

/-- From `h` to `h'` nothing is lost, and no receiver and no superclass is replaced. -/
structure Keeps (h h' : Heap) : Prop where
  size : h.scopes.size ≤ h'.scopes.size
  chain : ∀ s, h.chain s ≠ [] → h'.chain s = h.chain s
  reserved : ∀ s name, name = "this" ∨ name = "super" → h.Inner s →
    h'.binding? s name = h.binding? s name
  functions : ∀ (i : Nat) f, h.functions[i]? = some f → h'.functions[i]? = some f
  classes : ∀ (i : Nat) c, h.classes[i]? = some c → h'.classes[i]? = some c
  objects : ∀ (i : Nat) o, h.objects[i]? = some o → ∃ o', h'.objects[i]? = some o' ∧ o'.cls = o.cls

variable {h h' h₁ h₂ : Heap} {s t : ScopeId} {name : String} {v : Value}

theorem Inner.chain_ne_nil (hs : h.Inner s) : h.chain s ≠ [] := by
  intro hn
  rw [Inner, hn] at hs
  cases hs

theorem head?_chain (hs : h.chain s ≠ []) : (h.chain s)[0]? = some s := by
  unfold Heap.chain at hs ⊢
  split
  · rfl
  · next hn => simp [hn] at hs

theorem binding?_of_lt_addChild (parent : ScopeId) (b : Bindings Value)
    (hs : s.index < h.scopes.size) (name : String) :
    (h.addChild parent b).2.binding? s name = h.binding? s name := by
  rw [binding?_addChild, if_neg (Nat.ne_of_lt hs)]

theorem binding?_nextScope (parent : ScopeId) (b : Bindings Value) (name : String) :
    (h.addChild parent b).2.binding? h.nextScope name = b.get? name := by
  rw [binding?_addChild]
  exact if_pos rfl

theorem nextScope_define (h : Heap) (s : ScopeId) (name : String) (v : Value) :
    (h.define s name v).nextScope = h.nextScope := by
  simp [nextScope, Heap.define]

theorem inner_nextScope {parent : ScopeId} {b : Bindings Value} (hparent : h.chain parent ≠ []) :
    (h.addChild parent b).2.Inner h.nextScope := by
  have hlen := List.length_pos_iff.mpr hparent
  show 1 < ((h.addChild parent b).2.chain (h.addChild parent b).1).length
  rw [Heap.chain_addChild, List.length_cons]
  omega

theorem size_addChild (h : Heap) (parent : ScopeId) (b : Bindings Value) :
    (h.addChild parent b).2.scopes.size = h.scopes.size + 1 := by
  simp [addChild, addScope]

theorem inner_addChild_cases {parent : ScopeId} {b : Bindings Value}
    (hs : (h.addChild parent b).2.Inner s) :
    s = h.nextScope ∧ (∀ name, (h.addChild parent b).2.binding? s name = b.get? name) ∨
      h.Inner s ∧ ∀ name, (h.addChild parent b).2.binding? s name = h.binding? s name := by
  have hlt := chain_ne_nil_iff.mp hs.chain_ne_nil
  rw [size_addChild] at hlt
  by_cases heq : s.index = h.scopes.size
  · obtain rfl : s = h.nextScope := congrArg ScopeId.mk heq
    exact .inl ⟨rfl, binding?_nextScope parent b⟩
  · have hold : s.index < h.scopes.size := by omega
    rw [Inner, chain_of_lt_addChild parent b hold] at hs
    exact .inr ⟨hs, binding?_of_lt_addChild parent b hold⟩

theorem binding?_define_cases (h : Heap) (s t : ScopeId) (name other : String) (v : Value) :
    s = t ∧ name = other ∨ (h.define s name v).binding? t other = h.binding? t other := by
  by_cases hs : s = t
  · by_cases hname : name = other
    · exact .inl ⟨hs, hname⟩
    · exact .inr (binding?_define_ne_name hname)
  · exact .inr (binding?_define_of_ne h name other v hs)

theorem lineage_addClass (c : Class) {d : ClassId} (hd : h.lineage d ≠ []) :
    (h.addClass c).2.lineage d = h.lineage d := by
  unfold lineage at hd ⊢
  split at hd
  · next cls hcls =>
    rw [addClass, Array.getElem?_push_lt (Array.getElem?_eq_some_iff.mp hcls).1,
      ← Array.getElem?_eq_getElem, hcls]
  · exact absurd rfl hd

namespace Keeps

theorem refl (h : Heap) : Keeps h h :=
  ⟨Nat.le_refl _, fun _ _ => rfl, fun _ _ _ _ => rfl, fun _ _ h => h, fun _ _ h => h,
    fun _ o h => ⟨o, h, rfl⟩⟩

theorem inner (k : Keeps h h') (hs : h.Inner s) : h'.Inner s := by
  rw [Inner, k.chain s hs.chain_ne_nil]
  exact hs

theorem trans (k : Keeps h h₁) (k₁ : Keeps h₁ h₂) : Keeps h h₂ where
  size := Nat.le_trans k.size k₁.size
  chain s hs := by
    have hc := k.chain s hs
    rw [k₁.chain s (hc ▸ hs), hc]
  reserved s name hn hs := by
    rw [k₁.reserved s name hn (k.inner hs), k.reserved s name hn hs]
  functions i f hf := k₁.functions i f (k.functions i f hf)
  classes i c hc := k₁.classes i c (k.classes i c hc)
  objects i o ho := by
    obtain ⟨o₁, ho₁, hc₁⟩ := k.objects i o ho
    obtain ⟨o₂, ho₂, hc₂⟩ := k₁.objects i o₁ ho₁
    exact ⟨o₂, ho₂, hc₂.trans hc₁⟩

theorem objects_size (k : Keeps h h') : h.objects.size ≤ h'.objects.size := by
  refine Nat.le_of_not_lt fun hlt => ?_
  obtain ⟨o, ho, -⟩ := k.objects h'.objects.size _ (Array.getElem?_eq_getElem hlt)
  simp at ho

theorem define (hthis : name ≠ "this") (hsuper : name ≠ "super") :
    Keeps h (h.define s name v) where
  size := by simp [Heap.define]
  chain t _ := chain_define h s t name v
  reserved t other hn _ := by
    refine binding?_define_ne_name ?_
    rintro rfl
    exact hn.elim hthis hsuper
  functions _ _ hf := hf
  classes _ _ hc := hc
  objects _ o ho := ⟨o, ho, rfl⟩

theorem define_outermost (hs : ¬ h.Inner s) : Keeps h (h.define s name v) where
  size := by simp [Heap.define]
  chain t _ := chain_define h s t name v
  reserved t other _ ht := binding?_define_of_ne h name other v fun heq => hs (heq ▸ ht)
  functions _ _ hf := hf
  classes _ _ hc := hc
  objects _ o ho := ⟨o, ho, rfl⟩

theorem addChild (h : Heap) (parent : ScopeId) (b : Bindings Value) :
    Keeps h (h.addChild parent b).2 where
  size := by rw [size_addChild]; exact Nat.le_succ _
  chain s hs := chain_of_lt_addChild parent b (chain_ne_nil_iff.mp hs)
  reserved s name _ hs := binding?_of_lt_addChild parent b (chain_ne_nil_iff.mp hs.chain_ne_nil) name
  functions _ _ hf := hf
  classes _ _ hc := hc
  objects _ o ho := ⟨o, ho, rfl⟩

theorem addFunction (h : Heap) (f : Closure) : Keeps h (h.addFunction f).2 where
  size := Nat.le_refl _
  chain _ _ := rfl
  reserved _ _ _ _ := rfl
  functions i g hg := by
    rw [← hg]
    exact Array.getElem?_push_lt (Array.getElem?_eq_some_iff.mp hg).1 ▸
      (Array.getElem?_eq_getElem _).symm
  classes _ _ hc := hc
  objects _ o ho := ⟨o, ho, rfl⟩

theorem addClass (h : Heap) (c : Class) : Keeps h (h.addClass c).2 where
  size := Nat.le_refl _
  chain _ _ := rfl
  reserved _ _ _ _ := rfl
  functions _ _ hf := hf
  classes i d hd := by
    rw [← hd]
    exact Array.getElem?_push_lt (Array.getElem?_eq_some_iff.mp hd).1 ▸
      (Array.getElem?_eq_getElem _).symm
  objects _ o ho := ⟨o, ho, rfl⟩

theorem addObject (h : Heap) (o : Object) : Keeps h (h.addObject o).2 where
  size := Nat.le_refl _
  chain _ _ := rfl
  reserved _ _ _ _ := rfl
  functions _ _ hf := hf
  classes _ _ hc := hc
  objects i o' ho := by
    refine ⟨o', ?_, rfl⟩
    rw [← ho]
    exact Array.getElem?_push_lt (Array.getElem?_eq_some_iff.mp ho).1 ▸
      (Array.getElem?_eq_getElem _).symm

theorem setField (h : Heap) (o : ObjectId) (name : String) (v : Value) :
    Keeps h (h.setField o name v) where
  size := Nat.le_refl _
  chain _ _ := rfl
  reserved _ _ _ _ := rfl
  functions _ _ hf := hf
  classes _ _ hc := hc
  objects i o' ho := by
    simp only [Heap.setField, Array.getElem?_modify]
    split
    · exact ⟨{ o' with fields := o'.fields.insert name v }, by rw [ho]; rfl, rfl⟩
    · exact ⟨o', ho, rfl⟩

end Keeps

end Heap

end Treewalk
