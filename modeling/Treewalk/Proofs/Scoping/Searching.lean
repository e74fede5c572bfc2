import Treewalk.Proofs.Scoping.Links

namespace Treewalk

open Run

inductive ScopeOperation
  | new
  | child (parent : ScopeId)
  | define (s : ScopeId) (name : String) (v : Value)
  | assign (s : ScopeId) (name : String) (v : Value)
  | assignAt (s : ScopeId) (distance : Nat) (name : String) (v : Value)

namespace Heap

def perform (h : Heap) : ScopeOperation → Heap
  | .new => (h.addScope ⟨.empty, []⟩).2
  | .child parent => (h.addChild parent .empty).2
  | .define s name v => h.define s name v
  | .assign s name v => (h.assign? s name v).getD h
  | .assignAt s distance name v => (h.assignAt? s distance name v).getD h

def built (ops : List ScopeOperation) : Heap := ops.foldl perform .empty

/-- The least distance at which a name is bound. -/
structure Nearest (h : Heap) (s : ScopeId) (name : String) (distance : Nat) : Prop where
  bound : (h.lookupAt? s distance name).isSome
  unbound : ∀ k < distance, h.lookupAt? s k name = none

/-- From `h` to `h'` one slot gets a value, and nothing else changes. -/
structure Sets (h : Heap) (t : ScopeId) (name : String) (v : Value) (h' : Heap) : Prop where
  slot : (h.binding? t name).isSome ∧ h'.binding? t name = some v
  others : ∀ u other, (u, other) ≠ (t, name) → h'.binding? u other = h.binding? u other
  chain : ∀ u, h'.chain u = h.chain u
  functions : h'.functions = h.functions
  classes : h'.classes = h.classes
  objects : h'.objects = h.objects

variable {h h' : Heap} {s t u : ScopeId} {name : String} {v x : Value} {d k : Nat}

theorem lookupAt?_eq_bind (h : Heap) (s : ScopeId) (d : Nat) (name : String) :
    h.lookupAt? s d name = (h.chain s)[d]?.bind (h.binding? · name) := by
  unfold lookupAt?
  cases (h.chain s)[d]? <;> rfl

theorem ownerAt?_eq_some_iff :
    h.ownerAt? s d name = some t ↔ (h.chain s)[d]? = some t ∧ (h.binding? t name).isSome := by
  rw [ownerAt?, Option.filter_eq_some_iff]

theorem isSome_ownerAt? : (h.ownerAt? s d name).isSome ↔ (h.lookupAt? s d name).isSome := by
  simp only [Option.isSome_iff_exists, ownerAt?_eq_some_iff, lookupAt?_eq_bind,
    Option.bind_eq_some_iff]
  exact ⟨fun ⟨t, ht, v, hv⟩ => ⟨v, t, ht, hv⟩, fun ⟨v, t, ht, hv⟩ => ⟨t, ht, v, hv⟩⟩

theorem owner?_eq_some_iff :
    h.owner? s name = some t ↔ ∃ d, h.Nearest s name d ∧ (h.chain s)[d]? = some t := by
  rw [owner?, List.find?_eq_some_iff_getElem]
  constructor
  · rintro ⟨hb, d, hd, rfl, hbefore⟩
    have hget : (h.chain s)[d]? = some (h.chain s)[d] := List.getElem?_eq_getElem hd
    refine ⟨d, ⟨?_, fun k hk => ?_⟩, hget⟩
    · rwa [lookupAt?_eq_bind, hget]
    · rw [lookupAt?_eq_bind, List.getElem?_eq_getElem (hk.trans hd)]
      simpa using hbefore k hk
  · rintro ⟨d, ⟨hb, hn⟩, hget⟩
    obtain ⟨hd, rfl⟩ := List.getElem?_eq_some_iff.mp hget
    refine ⟨?_, d, hd, rfl, fun k hk => ?_⟩
    · rwa [lookupAt?_eq_bind, hget] at hb
    · have hk' := hn k hk
      rw [lookupAt?_eq_bind, List.getElem?_eq_getElem (hk.trans hd)] at hk'
      simpa using hk'

theorem Nearest.exists_scope (hd : h.Nearest s name d) :
    ∃ t, (h.chain s)[d]? = some t ∧ (h.binding? t name).isSome := by
  obtain ⟨t, ht⟩ := Option.isSome_iff_exists.mp (isSome_ownerAt?.mpr hd.bound)
  exact ⟨t, ownerAt?_eq_some_iff.mp ht⟩

theorem Nearest.owner?_eq (hd : h.Nearest s name d) : h.owner? s name = h.ownerAt? s d name := by
  obtain ⟨t, ht, hb⟩ := hd.exists_scope
  rw [owner?_eq_some_iff.mpr ⟨d, hd, ht⟩, ownerAt?_eq_some_iff.mpr ⟨ht, hb⟩]

theorem lookup?_eq_some_iff :
    h.lookup? s name = some x ↔ ∃ d, h.Nearest s name d ∧ h.lookupAt? s d name = some x := by
  rw [lookup?_eq, Option.bind_eq_some_iff]
  constructor
  · rintro ⟨t, ht, hx⟩
    obtain ⟨d, hd, hget⟩ := owner?_eq_some_iff.mp ht
    exact ⟨d, hd, by rw [lookupAt?_eq_bind, hget]; exact hx⟩
  · rintro ⟨d, hd, hx⟩
    obtain ⟨t, hget, -⟩ := hd.exists_scope
    refine ⟨t, owner?_eq_some_iff.mpr ⟨d, hd, hget⟩, ?_⟩
    rwa [lookupAt?_eq_bind, hget] at hx

theorem sets_define (hb : (h.binding? t name).isSome) (v : Value) :
    h.Sets t name v (h.define t name v) where
  slot := ⟨hb, by rw [binding?_define_self h t name name v (lt_size_of_binding? hb), if_pos rfl]⟩
  others u other hne := by
    obtain ⟨rfl, rfl⟩ | heq := binding?_define_cases h t u name other v
    · exact absurd rfl hne
    · exact heq
  chain u := chain_define h t u name v
  functions := rfl
  classes := rfl
  objects := rfl

namespace Sets

theorem isSome_binding? (hs : h.Sets t name v h') (u : ScopeId) (other : String) :
    (h'.binding? u other).isSome = (h.binding? u other).isSome := by
  by_cases hu : (u, other) = (t, name)
  · cases hu
    rw [hs.slot.2, hs.slot.1]
    rfl
  · rw [hs.others u other hu]

theorem owner?_eq (hs : h.Sets t name v h') (u : ScopeId) (other : String) :
    h'.owner? u other = h.owner? u other := by
  simp only [owner?, hs.chain, hs.isSome_binding?]

theorem lookup?_eq (hs : h.Sets t name v h') (hk : h.Nearest u name k)
    (ht : (h.chain u)[k]? = some t) : h'.lookup? u name = some v := by
  rw [Heap.lookup?_eq, hs.owner?_eq, owner?_eq_some_iff.mpr ⟨k, hk, ht⟩]
  exact hs.slot.2

end Sets

theorem assignAt?_eq_some_iff : h.assignAt? s d name v = some h' ↔
    ∃ t, (h.chain s)[d]? = some t ∧ (h.binding? t name).isSome ∧ h.define t name v = h' := by
  simp only [assignAt?_eq_map, Option.map_eq_some_iff, ownerAt?_eq_some_iff, and_assoc]

theorem assign?_eq_some_iff : h.assign? s name v = some h' ↔
    ∃ d, h.Nearest s name d ∧ h.assignAt? s d name v = some h' := by
  rw [assign?_eq_map, Option.map_eq_some_iff]
  constructor
  · rintro ⟨t, ht, rfl⟩
    obtain ⟨d, hd, -⟩ := owner?_eq_some_iff.mp ht
    refine ⟨d, hd, ?_⟩
    rw [assignAt?_eq_map, ← hd.owner?_eq, ht]
    rfl
  · rintro ⟨d, hd, h'⟩
    rw [assignAt?_eq_map, ← hd.owner?_eq] at h'
    exact Option.map_eq_some_iff.mp h'

theorem sets_assignAt? (ha : h.assignAt? s d name v = some h') :
    ∃ t, (h.chain s)[d]? = some t ∧ h.Sets t name v h' := by
  obtain ⟨t, ht, hb, rfl⟩ := assignAt?_eq_some_iff.mp ha
  exact ⟨t, ht, sets_define hb v⟩

theorem chain_nextScope (h : Heap) : h.chain h.nextScope = [] := by
  by_contra hs
  exact Nat.lt_irrefl _ (chain_ne_nil_iff.mp hs)

theorem addScope_eq_addChild (h : Heap) (b : Bindings Value) :
    h.addScope ⟨b, []⟩ = h.addChild h.nextScope b := by
  rw [addChild, chain_nextScope]

theorem Founded.assigned (hf : h.Founded) (o : Option ScopeId) (name : String) (v : Value) :
    ((o.map (h.define · name v)).getD h).Founded := by
  cases o with
  | none => exact hf
  | some t => exact hf.define t name v

theorem Founded.perform (hf : h.Founded) (op : ScopeOperation) : (h.perform op).Founded := by
  cases op with
  | new =>
    rw [Heap.perform, addScope_eq_addChild]
    exact hf.addChild _ _
  | child parent => exact hf.addChild parent _
  | define s name v => exact hf.define s name v
  | assign s name v =>
    rw [Heap.perform, assign?_eq_map]
    exact hf.assigned _ name v
  | assignAt s d name v =>
    rw [Heap.perform, assignAt?_eq_map]
    exact hf.assigned _ name v

theorem Founded.performAll (hf : h.Founded) (ops : List ScopeOperation) :
    (ops.foldl Heap.perform h).Founded := by
  induction ops generalizing h with
  | nil => exact hf
  | cons op ops ih => exact ih (hf.perform op)

theorem binding?_addChild_empty (h : Heap) (parent u : ScopeId) {name : String}
    (hb : ((h.addChild parent .empty).2.binding? u name).isSome) : (h.binding? u name).isSome := by
  rw [binding?_addChild] at hb
  split at hb
  · cases hb
  · exact hb

theorem isSome_binding?_assigned {o : Option Heap}
    (ho : ∀ h', o = some h' → ∃ t other v, h.Sets t other v h')
    (hb : ((o.getD h).binding? u name).isSome) : (h.binding? u name).isSome := by
  cases o with
  | none => exact hb
  | some h' =>
    obtain ⟨t, other, v, hs⟩ := ho h' rfl
    rwa [Option.getD_some, hs.isSome_binding?] at hb

theorem slot_perform (op : ScopeOperation) (hb : ((h.perform op).binding? u name).isSome) :
    (h.binding? u name).isSome ∨ ∃ v, op = .define u name v := by
  cases op with
  | new =>
    rw [perform, addScope_eq_addChild] at hb
    exact .inl (binding?_addChild_empty h _ u hb)
  | child parent => exact .inl (binding?_addChild_empty h parent u hb)
  | define s other v =>
    obtain ⟨rfl, rfl⟩ | heq := binding?_define_cases h s u other name v
    · exact .inr ⟨v, rfl⟩
    · exact .inl (heq ▸ hb)
  | assign s other v =>
    refine .inl (isSome_binding?_assigned (fun h' ha => ?_) hb)
    obtain ⟨d, -, ha⟩ := assign?_eq_some_iff.mp ha
    obtain ⟨t, -, hs⟩ := sets_assignAt? ha
    exact ⟨t, other, v, hs⟩
  | assignAt s d other v =>
    refine .inl (isSome_binding?_assigned (fun h' ha => ?_) hb)
    obtain ⟨t, -, hs⟩ := sets_assignAt? ha
    exact ⟨t, other, v, hs⟩

end Heap

def Machine.changed (m : Machine) (name : Token) :
    Option Heap → EStateM.Result Halt Machine Unit
  | some heap => .ok () { m with heap }
  | none => .error (.fault (undefined name)) m

theorem assign_eq_changed (ref : Ref) (v : Value) (m : Machine) :
    Run.assign ref v m = m.changed ref.token (match m.distances[ref.id]? with
      | some d => m.heap.assignAt? m.current d ref.token.lexeme v
      | none => m.heap.assign? m.globals ref.token.lexeme v) := by
  rw [Run.assign, Machine.owner?]
  cases m.distances[ref.id]? with
  | none =>
    dsimp only
    rw [Heap.assign?_eq_map]
    cases m.heap.owner? m.globals ref.token.lexeme <;> rfl
  | some d =>
    dsimp only
    rw [Heap.assignAt?_eq_map]
    cases m.heap.ownerAt? m.current d ref.token.lexeme <;> rfl

/-- In every family of scopes the search for a name and the way of a given length lead to the same
slot: what is read there is the same, and what is changed is that slot and nothing else. An operation
that finds none changes nothing, and only a definition makes a slot. -/
theorem searches_agree (ops : List ScopeOperation) :
    let h := Heap.built ops
    h.Recurses ∧ h.Ends ∧
    (∀ s name x, h.lookup? s name = some x ↔
      ∃ d, h.Nearest s name d ∧ h.lookupAt? s d name = some x) ∧
    (∀ s name v h', h.assign? s name v = some h' ↔
      ∃ d, h.Nearest s name d ∧ h.assignAt? s d name v = some h') ∧
    (∀ s d name v, (h.assignAt? s d name v).isSome ↔ (h.lookupAt? s d name).isSome) ∧
    (∀ s d name v h', h.assignAt? s d name v = some h' →
      ∃ t, (h.chain s)[d]? = some t ∧ h.Sets t name v h' ∧
        ∀ u k, h.Nearest u name k → (h.chain u)[k]? = some t → h'.lookup? u name = some v) ∧
    (∀ m : Machine, m.heap = h → ∀ ref v, Run.assign ref v m =
      m.changed ref.token (match m.distances[ref.id]? with
        | some d => h.assignAt? m.current d ref.token.lexeme v
        | none => h.assign? m.globals ref.token.lexeme v)) ∧
    ∀ op u name, ((h.perform op).binding? u name).isSome →
      (h.binding? u name).isSome ∨ ∃ v, op = .define u name v := by
  have hf : (Heap.built ops).Founded := Heap.Founded.empty.performAll ops
  refine ⟨hf.recurses, hf.ends, fun s name x => Heap.lookup?_eq_some_iff,
    fun s name v h' => Heap.assign?_eq_some_iff, fun s d name v => ?_, fun s d name v h' ha => ?_,
    ?_, fun op u name => Heap.slot_perform op⟩
  · rw [Heap.assignAt?_eq_map, Option.isSome_map, Heap.isSome_ownerAt?]
  · obtain ⟨t, ht, hs⟩ := Heap.sets_assignAt? ha
    exact ⟨t, ht, hs, fun u k hk hu => hs.lookup?_eq hk hu⟩
  · rintro m hm ref v
    rw [← hm]
    exact assign_eq_changed ref v m

theorem searches_agree_enclosing :
    (Heap.built [.new, .define ⟨0⟩ "a" .nil, .child ⟨0⟩]).lookup? ⟨1⟩ "a" = some .nil ∧
      ∃ d, (Heap.built [.new, .define ⟨0⟩ "a" .nil, .child ⟨0⟩]).Nearest ⟨1⟩ "a" d ∧
        (Heap.built [.new, .define ⟨0⟩ "a" .nil, .child ⟨0⟩]).lookupAt? ⟨1⟩ d "a" = some .nil := by
  have hread :
      (Heap.built [.new, .define ⟨0⟩ "a" .nil, .child ⟨0⟩]).lookup? ⟨1⟩ "a" = some .nil := rfl
  obtain ⟨-, -, hlookup, -⟩ := searches_agree [.new, .define ⟨0⟩ "a" .nil, .child ⟨0⟩]
  exact ⟨hread, (hlookup _ _ _).mp hread⟩

end Treewalk
