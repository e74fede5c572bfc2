import Treewalk.Heap

namespace Treewalk.Heap

variable {h h' : Heap} {s t : ScopeId} {P Q : ScopeId → Prop} {name other : String} {v : Value}

theorem chain_ne_nil_iff : h.chain s ≠ [] ↔ s.index < h.scopes.size := by
  unfold chain
  cases hs : h.scopes[s.index]? with
  | none => simpa using Array.getElem?_eq_none_iff.mp hs
  | some scope => simpa using (Array.getElem?_eq_some_iff.mp hs).1

theorem lt_size_of_binding? (hb : (h.binding? s name).isSome) : s.index < h.scopes.size := by
  unfold binding? at hb
  split at hb
  · next hs => exact (Array.getElem?_eq_some_iff.mp hs).1
  · cases hb

theorem lookup?_eq (h : Heap) (s : ScopeId) (name : String) :
    h.lookup? s name = (h.owner? s name).bind (h.binding? · name) := by
  unfold lookup? owner?
  induction h.chain s with
  | nil => rfl
  | cons t ids ih =>
    rw [List.findSome?_cons, List.find?_cons]
    cases hb : h.binding? t name with
    | none => exact ih
    | some v => exact hb.symm

structure Extends (P : ScopeId → Prop) (h h' : Heap) : Prop where
  size : h.scopes.size ≤ h'.scopes.size
  chain : ∀ s, h.chain s ≠ [] → h'.chain s = h.chain s
  bound : ∀ s name, (h.binding? s name).isSome → (h'.binding? s name).isSome
  unbound : ∀ s name, s.index < h.scopes.size → ¬ P s → (h'.binding? s name).isSome →
    (h.binding? s name).isSome

namespace Extends

theorem refl (P : ScopeId → Prop) (h : Heap) : Extends P h h :=
  ⟨Nat.le_refl _, fun _ _ => rfl, fun _ _ hb => hb, fun _ _ _ _ hb => hb⟩

theorem trans {h₁ h₂ : Heap} (e : Extends P h h₁) (e₁ : Extends P h₁ h₂) : Extends P h h₂ where
  size := Nat.le_trans e.size e₁.size
  chain s hs := by
    have hs₁ := e.chain s hs
    rw [e₁.chain s (hs₁ ▸ hs), hs₁]
  bound s name hb := e₁.bound s name (e.bound s name hb)
  unbound s name hs hp hb :=
    e.unbound s name hs hp (e₁.unbound s name (Nat.lt_of_lt_of_le hs e.size) hp hb)

theorem mono (e : Extends P h h') (hPQ : ∀ s, P s → Q s) : Extends Q h h' :=
  ⟨e.size, e.chain, e.bound, fun s name hs hq => e.unbound s name hs (mt (hPQ s) hq)⟩

theorem of_scopes (hs : h'.scopes = h.scopes) : Extends P h h' := by
  refine ⟨Nat.le_of_eq (by rw [hs]), fun s _ => ?_, fun s name hb => ?_, fun s name _ _ hb => ?_⟩
  · simp only [Heap.chain, hs]
  · simpa only [binding?, hs] using hb
  · simpa only [binding?, hs] using hb

end Extends

theorem chain_of_lt_addChild (parent : ScopeId) (b : Bindings Value) (hs : s.index < h.scopes.size) :
    (h.addChild parent b).2.chain s = h.chain s := by
  simp only [addChild, addScope, chain]
  rw [Array.getElem?_push_lt hs, ← Array.getElem?_eq_getElem hs]

theorem binding?_addChild (parent : ScopeId) (b : Bindings Value) :
    (h.addChild parent b).2.binding? s name =
      if s.index = h.scopes.size then b.get? name else h.binding? s name := by
  simp only [addChild, addScope, binding?, Array.getElem?_push]
  by_cases hi : s.index = h.scopes.size
  · simp [hi]
  · simp [hi]

theorem extends_addChild (P : ScopeId → Prop) (h : Heap) (parent : ScopeId) (b : Bindings Value) :
    Extends P h (h.addChild parent b).2 where
  size := by simp [addChild, addScope]
  chain s hs := chain_of_lt_addChild parent b (chain_ne_nil_iff.mp hs)
  bound s name hb := by
    have hlt := lt_size_of_binding? hb
    rwa [binding?_addChild, if_neg (Nat.ne_of_lt hlt)]
  unbound s name hs _ hb := by rwa [binding?_addChild, if_neg (Nat.ne_of_lt hs)] at hb

theorem Extends.of_addChild {parent : ScopeId} {b : Bindings Value}
    (e : Extends (· = (h.addChild parent b).1) (h.addChild parent b).2 h') : Extends P h h' := by
  have h₀ := extends_addChild P h parent b
  refine ⟨Nat.le_trans h₀.size e.size, fun s hs => ?_,
    fun s name hb => e.bound s name (h₀.bound s name hb), fun s name hs hp hb => ?_⟩
  · have hs₀ := h₀.chain s hs
    rw [e.chain s (hs₀ ▸ hs), hs₀]
  · refine h₀.unbound s name hs hp (e.unbound s name (Nat.lt_of_lt_of_le hs h₀.size) ?_ hb)
    rintro rfl
    exact Nat.lt_irrefl _ hs

theorem isSome_binding?_define (hs : s.index < h.scopes.size) :
    ((h.define s name v).binding? t other).isSome ↔
      (h.binding? t other).isSome ∨ s = t ∧ name = other := by
  by_cases ht : s = t
  · subst ht
    rw [binding?_define_self h s name other v hs]
    split
    · next hn => simp [hn]
    · next hn => simp [hn]
  · rw [binding?_define_of_ne h name other v ht]
    simp [ht]

theorem extends_define (hs : s.index < h.scopes.size) :
    Extends (· = s) h (h.define s name v) where
  size := by simp [define]
  chain t _ := chain_define h s t name v
  bound t other hb := (isSome_binding?_define hs).mpr (.inl hb)
  unbound t other _ ht hb := by
    obtain hb | ⟨rfl, -⟩ := (isSome_binding?_define hs).mp hb
    · exact hb
    · exact absurd rfl ht

theorem extends_change (hb : (h.binding? s name).isSome) : Extends P h (h.define s name v) where
  size := by simp [define]
  chain t _ := chain_define h s t name v
  bound t other ht := (isSome_binding?_define (lt_size_of_binding? hb)).mpr (.inl ht)
  unbound t other _ _ ht := by
    obtain ht | ⟨rfl, rfl⟩ := (isSome_binding?_define (lt_size_of_binding? hb)).mp ht
    · exact ht
    · exact hb

theorem binding?_define_ne_name (hn : name ≠ other) :
    (h.define s name v).binding? t other = h.binding? t other := by
  simp only [binding?, scopes_define]
  split
  · next scope ht =>
    split at ht
    · cases hs : h.scopes[t.index]? with
      | none => simp [hs] at ht
      | some scope₀ =>
        simp only [hs, Option.map_some, Option.some.injEq] at ht
        subst ht
        simp [hn]
    · simp [ht]
  · next ht =>
    split at ht
    · cases hs : h.scopes[t.index]? with
      | none => rfl
      | some scope₀ => simp [hs] at ht
    · simp [ht]

end Treewalk.Heap
