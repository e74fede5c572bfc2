import Mathlib.Order.WellFounded
import Treewalk.Proofs.Scoping.Keeping

namespace Treewalk.Heap

def around? (h : Heap) (s : ScopeId) : Option ScopeId := (h.chain s)[1]?

def superclass? (h : Heap) (c : ClassId) : Option ClassId :=
  match h.classes[c.index]? with
  | some cls => cls.ancestors.head?
  | none => none

/-- Every link leads to what was made before, and the lists of a heap are what the links lead to. -/
structure Founded (h : Heap) : Prop where
  scopes : ∀ s t, h.around? s = some t → t.index < s.index ∧ h.chain s = s :: h.chain t
  classes : ∀ c d, h.superclass? c = some d → d.index < c.index ∧ h.lineage c = c :: h.lineage d

variable {h h' h₁ h₂ : Heap} {s t : ScopeId} {c d : ClassId} {name : String} {v : Value}

theorem chain_eq_cons (hs : h.chain s ≠ []) : ∃ rest, h.chain s = s :: rest := by
  obtain ⟨t, rest, hc⟩ := List.exists_cons_of_ne_nil hs
  have hhead := head?_chain hs
  rw [hc] at hhead
  cases hhead
  exact ⟨rest, hc⟩

theorem superclass?_eq (h : Heap) (c : ClassId) : h.superclass? c = (h.lineage c)[1]? := by
  unfold superclass? lineage
  cases h.classes[c.index]? with
  | none => rfl
  | some cls => exact List.head?_eq_getElem?

theorem lineage_eq_cons (hc : h.lineage c ≠ []) : ∃ rest, h.lineage c = c :: rest := by
  unfold lineage at hc ⊢
  split
  · exact ⟨_, rfl⟩
  · next hn => simp [hn] at hc

theorem lineage_ne_nil_iff : h.lineage c ≠ [] ↔ c.index < h.classes.size := by
  unfold lineage
  cases hc : h.classes[c.index]? with
  | none => simpa using Array.getElem?_eq_none_iff.mp hc
  | some cls => simpa using (Array.getElem?_eq_some_iff.mp hc).1

theorem binding?_of_chain_nil (hs : h.chain s = []) (name : String) : h.binding? s name = none := by
  by_contra hb
  exact chain_ne_nil_iff.mpr (lt_size_of_binding? (Option.isSome_iff_ne_none.mpr hb)) hs

theorem ownMethod?_of_lineage_nil (hc : h.lineage c = []) (name : String) :
    h.ownMethod? c name = none := by
  unfold lineage at hc
  unfold ownMethod?
  split
  · next hcls => simp [hcls] at hc
  · rfl

theorem nil_or_singleton {α : Type} {l : List α} {a : α} (hl : l ≠ [] → ∃ rest, l = a :: rest)
    (hn : l[1]? = none) : l = [] ∨ l = [a] := by
  rw [or_iff_not_imp_left]
  intro hne
  obtain ⟨rest, rfl⟩ := hl hne
  cases rest with
  | nil => rfl
  | cons => cases hn

theorem ne_nil_of_second {α : Type} {l : List α} {a : α} (hl : l[1]? = some a) : l ≠ [] := by
  rintro rfl
  cases hl

theorem ne_nil_of_head {α : Type} {l : List α} {a : α} (hl : l.head? = some a) : l ≠ [] := by
  rintro rfl
  cases hl

namespace Founded

theorem chain_cases (hf : h.Founded) (s : ScopeId) :
    (h.chain s = [] ∨ h.chain s = [s]) ∧ h.around? s = none ∨
      ∃ t, h.chain s = s :: h.chain t ∧ h.around? s = some t := by
  cases ha : h.around? s with
  | some t => exact .inr ⟨t, (hf.scopes s t ha).2, rfl⟩
  | none =>
    exact .inl ⟨nil_or_singleton chain_eq_cons ha, rfl⟩

theorem lineage_cases (hf : h.Founded) (c : ClassId) :
    (h.lineage c = [] ∨ h.lineage c = [c]) ∧ h.superclass? c = none ∨
      ∃ d, h.lineage c = c :: h.lineage d ∧ h.superclass? c = some d := by
  cases ha : h.superclass? c with
  | some d => exact .inr ⟨d, (hf.classes c d ha).2, rfl⟩
  | none =>
    rw [superclass?_eq] at ha
    exact .inl ⟨nil_or_singleton lineage_eq_cons ha, rfl⟩

end Founded

/-- The searches of a heap are the recursions along its links. -/
structure Recurses (h : Heap) : Prop where
  lookup : ∀ s name, h.lookup? s name =
    (h.binding? s name).or ((h.around? s).bind (h.lookup? · name))
  assign : ∀ s name v, h.assign? s name v =
    if (h.binding? s name).isSome then some (h.define s name v)
    else (h.around? s).bind (h.assign? · name v)
  lookupAt : ∀ s distance name, h.lookupAt? s distance name =
    match distance with
    | 0 => h.binding? s name
    | distance + 1 => (h.around? s).bind (h.lookupAt? · distance name)
  assignAt : ∀ s distance name v, h.assignAt? s distance name v =
    match distance with
    | 0 => if (h.binding? s name).isSome then some (h.define s name v) else none
    | distance + 1 => (h.around? s).bind (h.assignAt? · distance name v)
  method : ∀ c name, h.method? c name =
    (h.ownMethod? c name).or ((h.superclass? c).bind (h.method? · name))

/-- Nobody can follow the links forever. -/
structure Ends (h : Heap) : Prop where
  scopes : WellFounded fun t s => h.around? s = some t
  classes : WellFounded fun d c => h.superclass? c = some d

namespace Founded

theorem ends (hf : h.Founded) : h.Ends where
  scopes := Subrelation.wf (fun ha => (hf.scopes _ _ ha).1)
    (InvImage.wf ScopeId.index Nat.lt_wfRel.wf)
  classes := Subrelation.wf (fun ha => (hf.classes _ _ ha).1)
    (InvImage.wf ClassId.index Nat.lt_wfRel.wf)

theorem lookup?_eq (hf : h.Founded) (s : ScopeId) (name : String) : h.lookup? s name =
    (h.binding? s name).or ((h.around? s).bind (h.lookup? · name)) := by
  obtain ⟨hs | hs, ha⟩ | ⟨t, hs, ha⟩ := hf.chain_cases s
  · rw [lookup?, hs, ha, binding?_of_chain_nil hs]
    rfl
  · rw [lookup?, hs, ha, List.findSome?_cons]
    cases h.binding? s name <;> rfl
  · rw [lookup?, hs, ha, List.findSome?_cons]
    cases h.binding? s name <;> rfl

theorem owner?_eq (hf : h.Founded) (s : ScopeId) (name : String) : h.owner? s name =
    if (h.binding? s name).isSome then some s else (h.around? s).bind (h.owner? · name) := by
  obtain ⟨hs | hs, ha⟩ | ⟨t, hs, ha⟩ := hf.chain_cases s
  · rw [owner?, hs, ha, binding?_of_chain_nil hs]
    rfl
  · rw [owner?, hs, ha, List.find?_cons]
    cases (h.binding? s name).isSome <;> rfl
  · rw [owner?, hs, ha, List.find?_cons]
    cases (h.binding? s name).isSome <;> rfl

theorem getElem?_chain_succ (hf : h.Founded) (s : ScopeId) (distance : Nat) :
    (h.chain s)[distance + 1]? = (h.around? s).bind fun t => (h.chain t)[distance]? := by
  obtain ⟨hs | hs, ha⟩ | ⟨t, hs, ha⟩ := hf.chain_cases s <;> rw [hs, ha] <;> rfl

theorem lookupAt?_succ (hf : h.Founded) (s : ScopeId) (distance : Nat) (name : String) :
    h.lookupAt? s (distance + 1) name = (h.around? s).bind (h.lookupAt? · distance name) := by
  rw [lookupAt?, hf.getElem?_chain_succ]
  cases h.around? s <;> rfl

theorem ownerAt?_succ (hf : h.Founded) (s : ScopeId) (distance : Nat) (name : String) :
    h.ownerAt? s (distance + 1) name = (h.around? s).bind (h.ownerAt? · distance name) := by
  rw [ownerAt?, hf.getElem?_chain_succ]
  cases h.around? s <;> rfl

end Founded

theorem lookupAt?_zero (h : Heap) (s : ScopeId) (name : String) :
    h.lookupAt? s 0 name = h.binding? s name := by
  by_cases hs : h.chain s = []
  · rw [lookupAt?, hs, binding?_of_chain_nil hs]
    rfl
  · rw [lookupAt?, head?_chain hs]

theorem ownerAt?_zero (h : Heap) (s : ScopeId) (name : String) :
    h.ownerAt? s 0 name = if (h.binding? s name).isSome then some s else none := by
  by_cases hs : h.chain s = []
  · rw [ownerAt?, hs, binding?_of_chain_nil hs]
    rfl
  · rw [ownerAt?, head?_chain hs]
    rfl

theorem assign?_eq_map (h : Heap) (s : ScopeId) (name : String) (v : Value) :
    h.assign? s name v = (h.owner? s name).map (h.define · name v) := by
  unfold assign?
  cases h.owner? s name <;> rfl

theorem assignAt?_eq_map (h : Heap) (s : ScopeId) (distance : Nat) (name : String) (v : Value) :
    h.assignAt? s distance name v = (h.ownerAt? s distance name).map (h.define · name v) := by
  unfold assignAt?
  cases h.ownerAt? s distance name <;> rfl

theorem Founded.recurses (hf : h.Founded) : h.Recurses where
  lookup := hf.lookup?_eq
  assign s name v := by
    rw [assign?_eq_map, hf.owner?_eq]
    split
    · rfl
    · rw [Option.map_bind]
      simp only [Function.comp_def, assign?_eq_map]
  lookupAt s distance name := by
    cases distance with
    | zero => exact h.lookupAt?_zero s name
    | succ distance => exact hf.lookupAt?_succ s distance name
  assignAt s distance name v := by
    cases distance with
    | zero =>
      rw [assignAt?_eq_map, ownerAt?_zero]
      dsimp only
      split <;> rfl
    | succ distance =>
      rw [assignAt?_eq_map, hf.ownerAt?_succ, Option.map_bind]
      simp only [Function.comp_def, assignAt?_eq_map]
  method c name := by
    obtain ⟨hc | hc, ha⟩ | ⟨d, hc, ha⟩ := hf.lineage_cases c
    · rw [method?, hc, ha, ownMethod?_of_lineage_nil hc]
      rfl
    · rw [method?, hc, ha, List.findSome?_cons]
      cases h.ownMethod? c name <;> rfl
    · rw [method?, hc, ha, List.findSome?_cons]
      cases h.ownMethod? c name <;> rfl

theorem lineage_addClass_new (h : Heap) (cls : Class) :
    (h.addClass cls).2.lineage (h.addClass cls).1 = (h.addClass cls).1 :: cls.ancestors := by
  simp [addClass, lineage]

namespace Founded

theorem empty : Founded .empty where
  scopes s t ha := by simp [around?, chain, Heap.empty] at ha
  classes c d ha := by simp [superclass?, Heap.empty] at ha

theorem congr (hf : h.Founded) (hscopes : ∀ s, h'.chain s = h.chain s)
    (hclasses : ∀ c, h'.lineage c = h.lineage c) : h'.Founded where
  scopes s t ha := by
    rw [around?, hscopes] at ha
    rw [hscopes, hscopes]
    exact hf.scopes s t ha
  classes c d ha := by
    rw [superclass?_eq, hclasses, ← superclass?_eq] at ha
    rw [hclasses, hclasses]
    exact hf.classes c d ha

theorem define (hf : h.Founded) (s : ScopeId) (name : String) (v : Value) :
    (h.define s name v).Founded :=
  hf.congr (fun t => chain_define h s t name v) fun _ => rfl

theorem addChild (hf : h.Founded) (parent : ScopeId) (b : Bindings Value) :
    (h.addChild parent b).2.Founded where
  scopes s t ha := by
    rw [around?] at ha
    have hs : (h.addChild parent b).2.chain s ≠ [] := ne_nil_of_second ha
    have hlt := chain_ne_nil_iff.mp hs
    rw [size_addChild] at hlt
    by_cases hnew : s.index = h.scopes.size
    · obtain rfl : s = (h.addChild parent b).1 := congrArg ScopeId.mk hnew
      rw [chain_addChild] at ha ⊢
      -- what is around the new scope is its parent, if that is a scope
      have hparent : h.chain parent ≠ [] := ne_nil_of_head (List.head?_eq_getElem?.trans ha)
      obtain rfl : parent = t := Option.some.inj ((head?_chain hparent).symm.trans ha)
      have hold := chain_ne_nil_iff.mp hparent
      exact ⟨hold, by rw [chain_of_lt_addChild parent b hold]⟩
    · have hold : s.index < h.scopes.size := by omega
      rw [chain_of_lt_addChild parent b hold] at ha ⊢
      obtain ⟨hts, hc⟩ := hf.scopes s t ha
      exact ⟨hts, by rw [chain_of_lt_addChild parent b (by omega), hc]⟩
  classes := hf.classes

theorem addClass (hf : h.Founded) {cls : Class} {superclass : Option ClassId}
    (hcls : cls.ancestors = h.ancestorsFrom superclass) : (h.addClass cls).2.Founded where
  scopes := hf.scopes
  classes c d ha := by
    rw [superclass?_eq] at ha
    have hc : (h.addClass cls).2.lineage c ≠ [] := ne_nil_of_second ha
    have hlt := lineage_ne_nil_iff.mp hc
    rw [show (h.addClass cls).2.classes.size = h.classes.size + 1 from Array.size_push _] at hlt
    by_cases hnew : c.index = h.classes.size
    · obtain rfl : c = (h.addClass cls).1 := congrArg ClassId.mk hnew
      rw [lineage_addClass_new, hcls] at ha ⊢
      cases superclass with
      | none => cases ha
      | some parent =>
        have hparent : h.lineage parent ≠ [] := ne_nil_of_head (List.head?_eq_getElem?.trans ha)
        obtain ⟨rest, hrest⟩ := lineage_eq_cons hparent
        rw [ancestorsFrom, hrest] at ha
        cases ha
        refine ⟨lineage_ne_nil_iff.mp hparent, ?_⟩
        rw [lineage_addClass cls hparent]
        rfl
    · have hold : h.lineage c ≠ [] := lineage_ne_nil_iff.mpr (by omega)
      rw [lineage_addClass cls hold, ← superclass?_eq] at ha
      rw [lineage_addClass cls hold]
      obtain ⟨hdc, hl⟩ := hf.classes c d ha
      have hd : h.lineage d ≠ [] := lineage_ne_nil_iff.mpr (by omega)
      exact ⟨hdc, by rw [lineage_addClass cls hd, hl]⟩

end Founded

end Treewalk.Heap
