import Treewalk.Evaluation
import Treewalk.Proofs.Looping.Machines
import Treewalk.Proofs.SideBySide.Running

namespace Treewalk

open Placing

namespace Run

variable {α β : Type}

/-- What is reached from machines of which the second is the first one lifted. -/
structure Tracks (D D' : Distances) (μ : Placing) (m m' : Machine) (μ₁ : Placing)
    (m₁ m₁' : Machine) : Prop where
  grows : μ.Grows m.heap m'.heap μ₁ m₁.heap m₁'.heap
  current : m₁.current = m.current
  current' : m₁'.current = m'.current
  lifted : m₁.Lifted D D' μ₁ m₁'

inductive Matches (D D' : Distances) (μ : Placing) (m m' : Machine)
    (R : α → α → Placing → Machine → Machine → Prop) :
    EStateM.Result Halt Machine α → EStateM.Result Halt Machine α → Prop
  | ok : R a a' μ₁ m₁ m₁' → Tracks D D' μ m m' μ₁ m₁ m₁' →
      Matches D D' μ m m' R (.ok a m₁) (.ok a' m₁')
  | error : Tracks D D' μ m m' μ₁ m₁ m₁' → Matches D D' μ m m' R (.error e m₁) (.error e m₁')

abbrev equal (a a' : α) (_ : Placing) (_ _ : Machine) : Prop := a' = a

variable {D D' : Distances} {μ μ₁ μ₂ : Placing} {m m' m₁ m₁' m₂ m₂' : Machine}
  {R : α → α → Placing → Machine → Machine → Prop}
  {S : β → β → Placing → Machine → Machine → Prop} {gaps : List Bool}

theorem Tracks.trans (h : Tracks D D' μ m m' μ₁ m₁ m₁') (h₁ : Tracks D D' μ₁ m₁ m₁' μ₂ m₂ m₂') :
    Tracks D D' μ m m' μ₂ m₂ m₂' :=
  ⟨h.grows.trans h₁.grows, h₁.current.trans h.current, h₁.current'.trans h.current', h₁.lifted⟩

theorem tracks_self (hm : m.Lifted D D' μ m') : Tracks D D' μ m m' μ m m' :=
  ⟨.refl μ _ _, rfl, rfl, hm⟩

theorem tracks_heap {h₁ h₁' : Heap} (hm : m.Lifted D D' μ m')
    (g : μ.Grows m.heap m'.heap μ₁ h₁ h₁') (hh : h₁.Lifted D D' μ₁ h₁') :
    Tracks D D' μ m m' μ₁ { m with heap := h₁ } { m' with heap := h₁' } :=
  ⟨g, rfl, rfl, hh, hm.natives, hm.fixed, hm.home.grow g, hm.distances, hm.distances', hm.sink⟩

theorem Tracks.aligned (h : Tracks D D' μ m m' μ₁ m₁ m₁') (hc : m.Aligned μ gaps m') :
    m₁.Aligned μ₁ gaps m₁' := by
  rw [Machine.Aligned, h.current, h.current']
  exact hc.grow h.grows

theorem Matches.after (h : Tracks D D' μ m m' μ₁ m₁ m₁') {r r' : EStateM.Result Halt Machine α}
    (hr : Matches D D' μ₁ m₁ m₁' R r r') : Matches D D' μ m m' R r r' := by
  cases hr with
  | ok ha h₁ => exact .ok ha (h.trans h₁)
  | error h₁ => exact .error (h.trans h₁)

theorem Matches.bind {x x' : Run α} {f f' : α → Run β} (hx : Matches D D' μ m m' R (x m) (x' m'))
    (hf : ∀ a a' μ₁ m₁ m₁', R a a' μ₁ m₁ m₁' → Tracks D D' μ m m' μ₁ m₁ m₁' →
      Matches D D' μ₁ m₁ m₁' S (f a m₁) (f' a' m₁')) :
    Matches D D' μ m m' S ((x >>= f) m) ((x' >>= f') m') := by
  simp only [Bind.bind, EStateM.bind]
  generalize x m = r, x' m' = r' at hx ⊢
  cases hx with
  | ok ha h => exact (hf _ _ _ _ _ ha h).after h
  | error h => exact .error h

theorem Matches.then {x x' : Run α} {f f' : α → Run β}
    (hx : Matches D D' μ m m' equal (x m) (x' m'))
    (hf : ∀ a μ₁ m₁ m₁', Tracks D D' μ m m' μ₁ m₁ m₁' →
      Matches D D' μ₁ m₁ m₁' S (f a m₁) (f' a m₁')) :
    Matches D D' μ m m' S ((x >>= f) m) ((x' >>= f') m') := by
  refine hx.bind fun a a' μ₁ m₁ m₁' ha h => ?_
  cases ha
  exact hf a μ₁ m₁ m₁' h

theorem matches_pure (hm : m.Lifted D D' μ m') (a : α) :
    Matches D D' μ m m' equal ((pure a : Run α) m) ((pure a : Run α) m') :=
  .ok rfl (tracks_self hm)

theorem Matches.ite {c : Prop} [Decidable c] {x x' y y' : Run α}
    (hx : Matches D D' μ m m' R (x m) (x' m')) (hy : Matches D D' μ m m' R (y m) (y' m')) :
    Matches D D' μ m m' R ((if c then x else y) m) ((if c then x' else y') m') := by
  by_cases h : c
  · rw [if_pos h, if_pos h]
    exact hx
  · rw [if_neg h, if_neg h]
    exact hy

theorem matches_exhausted (hm : m.Lifted D D' μ m') :
    Matches D D' μ m m' R (exhausted m) (exhausted m') :=
  .error (tracks_self hm)

theorem matches_fail (hm : m.Lifted D D' μ m') (fault : RuntimeFault) (t : Token) :
    Matches D D' μ m m' R (fail fault t m) (fail fault t m') :=
  .error (tracks_self hm)

theorem matches_heap (hm : m.Lifted D D' μ m') :
    Matches D D' μ m m' (fun h h' μ m m' => h = m.heap ∧ h' = m'.heap ∧ h.Lifted D D' μ h') (heap m)
      (heap m') :=
  .ok ⟨rfl, rfl, hm.heap⟩ (tracks_self hm)

theorem matches_current (hm : m.Lifted D D' μ m') :
    Matches D D' μ m m' (fun s s' _ m m' => s = m.current ∧ s' = m'.current) (current m)
      (current m') :=
  .ok ⟨rfl, rfl⟩ (tracks_self hm)

theorem matches_get (hm : m.Lifted D D' μ m') :
    Matches D D' μ m m' (fun a a' μ m m' => a = m ∧ a' = m' ∧ a.Lifted D D' μ a')
      ((get : Run Machine) m) ((get : Run Machine) m') :=
  .ok ⟨rfl, rfl, hm⟩ (tracks_self hm)

theorem lifted_move (hm : m.Lifted D D' μ m') (s s' : ScopeId) :
    Machine.Lifted D D' μ { m with current := s } { m' with current := s' } :=
  ⟨hm.heap, hm.natives, hm.fixed, hm.home, hm.distances, hm.distances', hm.sink⟩

theorem Tracks.back (h : Tracks D D' μ { m with current := s } { m' with current := s' } μ₁ m₁ m₁') :
    Tracks D D' μ m m' μ₁ { m₁ with current := m.current } { m₁' with current := m'.current } :=
  ⟨h.grows, rfl, rfl, lifted_move h.lifted _ _⟩

theorem matches_within {x x' : Run α} {s s' : ScopeId}
    (hx : Matches D D' μ { m with current := s } { m' with current := s' } equal
      (x { m with current := s }) (x' { m' with current := s' })) :
    Matches D D' μ m m' equal (within s x m) (within s' x' m') := by
  simp only [within]
  generalize x _ = r, x' _ = r' at hx ⊢
  cases hx with
  | ok ha h => exact .ok ha h.back
  | error h => exact .error h.back

theorem Steady.matches {x : Run α} (hx : Steady x) (hm : m.Lifted D D' μ m') :
    Matches D D' μ m m' equal (x m) (x m') := by
  obtain ⟨r, rfl⟩ := hx
  cases r with
  | ok a => exact .ok rfl (tracks_self hm)
  | error e => exact .error (tracks_self hm)

theorem matches_write (hm : m.Lifted D D' μ m') (text : String) :
    Matches D D' μ m m' equal (write text m) (write text m') := by
  unfold write
  rw [hm.sink]
  cases m.sink.offer text with
  | mk refused sink =>
    have hr : Tracks D D' μ m m' μ { m with sink } { m' with sink } := ⟨.refl μ _ _, rfl, rfl,
      hm.heap, hm.natives, hm.fixed, hm.home, hm.distances, hm.distances', rfl⟩
    cases refused with
    | none => exact .ok rfl hr
    | some reason => exact .error hr

theorem matches_writeAll (texts : List String) {μ : Placing} {m m' : Machine}
    (hm : m.Lifted D D' μ m') : Matches D D' μ m m' equal (writeAll texts m) (writeAll texts m') := by
  induction texts generalizing μ m m' with
  | nil => exact matches_pure hm ()
  | cons text texts ih => exact (matches_write hm text).then fun _ _ _ _ hr => ih hr.lifted

theorem matches_print (hm : m.Lifted D D' μ m') (v : Value) :
    Matches D D' μ m m' equal (print v m) (print v m') := by
  refine (matches_heap hm).bind fun h h' μ₁ m₁ m₁' hh hr => ?_
  rw [hh.2.2.line]
  exact matches_writeAll _ hr.lifted

theorem find?_lifted (hm : m.Lifted D D' μ m') (hc : m.Aligned μ gaps m')
    (ho : ref.Lifted D D' gaps ref') : m'.find? ref' = m.find? ref := by
  have hd := ho.distance
  unfold Machine.find?
  rw [hm.distances, hm.distances', ho.token]
  generalize D[ref.id]? = d, D'[ref'.id]? = d' at hd ⊢
  cases hd with
  | none => exact hm.heap.lookup? hm.home ref.token.lexeme
  | some hd => exact hm.heap.lookupAt? hc hd ref.token.lexeme

theorem owner?_lifted (hm : m.Lifted D D' μ m') (hc : m.Aligned μ gaps m')
    (ho : ref.Lifted D D' gaps ref') : Option.Rel μ.Puts (m.owner? ref) (m'.owner? ref') := by
  have hd := ho.distance
  unfold Machine.owner?
  rw [hm.distances, hm.distances', ho.token]
  generalize D[ref.id]? = d, D'[ref'.id]? = d' at hd ⊢
  cases hd with
  | none => exact hm.heap.owner? hm.home ref.token.lexeme
  | some hd => exact hm.heap.ownerAt? hc hd ref.token.lexeme

theorem matches_read (hm : m.Lifted D D' μ m') (hc : m.Aligned μ gaps m')
    (ho : ref.Lifted D D' gaps ref') : Matches D D' μ m m' equal (read ref m) (read ref' m') := by
  unfold read
  rw [find?_lifted hm hc ho, ho.token]
  cases m.find? ref with
  | some v => exact .ok rfl (tracks_self hm)
  | none => exact .error (tracks_self hm)

theorem tracks_define (hm : m.Lifted D D' μ m') (hp : μ.Puts s t) (name : String) (v : Value) :
    Tracks D D' μ m m' μ { m with heap := m.heap.define s name v }
      { m' with heap := m'.heap.define t name v } :=
  tracks_heap hm (.define (hm.heap.lt_size hp) (hm.heap.range s t hp) name v)
    (hm.heap.define hp name v)

theorem matches_assign (hm : m.Lifted D D' μ m') (hc : m.Aligned μ gaps m')
    (ho : ref.Lifted D D' gaps ref') (v : Value) :
    Matches D D' μ m m' equal (assign ref v m) (assign ref' v m') := by
  have howner := owner?_lifted hm hc ho
  unfold assign
  rw [ho.token]
  generalize m.owner? ref = s, m'.owner? ref' = s' at howner ⊢
  cases howner with
  | none => exact .error (tracks_self hm)
  | some hp => exact .ok rfl (tracks_define hm hp _ v)

theorem matches_define (hm : m.Lifted D D' μ m') (hc : m.Aligned μ gaps m')
    (hg : gaps.headD false = false) (name : String) (v : Value) :
    Matches D D' μ m m' equal (define name v m) (define name v m') :=
  .ok rfl (tracks_define hm (hc.puts hg) name v)

theorem matches_reassign (hm : m.Lifted D D' μ m') (hc : m.Aligned μ gaps m') (name : Token)
    (v : Value) : Matches D D' μ m m' equal (reassign name v m) (reassign name v m') := by
  have howner := hm.heap.owner? hc name.lexeme
  unfold reassign
  generalize m.heap.owner? m.current name.lexeme = s,
    m'.heap.owner? m'.current name.lexeme = s' at howner ⊢
  cases howner with
  | none => exact .error (tracks_self hm)
  | some hp => exact .ok rfl (tracks_define hm hp _ v)

theorem matches_newScope {parent parent' : ScopeId} (hm : m.Lifted D D' μ m')
    (hp : Placing.Aligned μ gaps (m.heap.chain parent) (m'.heap.chain parent'))
    (b : Bindings Value) :
    Matches D D' μ m m' (fun s s' μ m m' =>
        Placing.Aligned μ (false :: gaps) (m.heap.chain s) (m'.heap.chain s'))
      (newScope parent b m) (newScope parent' b m') := by
  have g : μ.Grows m.heap m'.heap (μ.push (some m'.heap.nextScope)) (m.heap.addChild parent b).2
      (m'.heap.addChild parent' b).2 :=
    .push _ (Heap.extends_addChild _ _ parent b) (Heap.extends_addChild _ _ parent' b)
  refine .ok ?_ (tracks_heap hm g (hm.heap.addChild parent parent' b))
  change Placing.Aligned _ _ ((m.heap.addChild parent b).2.chain (m.heap.addChild parent b).1)
    ((m'.heap.addChild parent' b).2.chain (m'.heap.addChild parent' b).1)
  rw [Heap.chain_addChild, Heap.chain_addChild]
  exact .kept (puts_push_iff.mpr (.inl ⟨hm.heap.size.symm, rfl⟩)) (hp.mono g.places)

theorem matches_newFunction {f f' : Closure} (hm : m.Lifted D D' μ m')
    (hf : f.Lifted D D' μ [] m.heap m'.heap f') :
    Matches D D' μ m m' equal (newFunction f m) (newFunction f' m') := by
  have hid : (m'.heap.addFunction f').1 = (m.heap.addFunction f).1 := by
    simp only [Heap.addFunction, hm.heap.functions.size_eq]
  exact .ok (congrArg Value.function hid)
    (tracks_heap hm (.of_scopes rfl rfl) (hm.heap.addFunction hf))

theorem matches_newObject (hm : m.Lifted D D' μ m') (cls : ClassId) :
    Matches D D' μ m m' equal (newObject cls m) (newObject cls m') := by
  have hid : (m'.heap.addObject ⟨cls, .empty⟩).1 = (m.heap.addObject ⟨cls, .empty⟩).1 := by
    simp only [Heap.addObject, hm.heap.objects]
  exact .ok hid (tracks_heap hm (.of_scopes rfl rfl) (hm.heap.addObject _))

theorem matches_bindMethod {f f' : Closure} (hm : m.Lifted D D' μ m')
    (hf : f.Lifted D D' μ [false] m.heap m'.heap f') (receiver : Value) :
    Matches D D' μ m m' (fun f f' μ m m' => f.Lifted D D' μ [] m.heap m'.heap f')
      (bindMethod f receiver m) (bindMethod f' receiver m') := by
  obtain ⟨gaps, ha, hd⟩ := hf.decl
  have hscope := matches_newScope hm ha (Bindings.empty.insert "this" receiver)
  cases hscope with
  | ok hs hr => exact .ok ⟨hs.puts rfl, hf.isInitializer, false :: gaps, hs, hd⟩ hr

theorem matches_boundMethod {f f' : Closure} (hm : m.Lifted D D' μ m')
    (hf : f.Lifted D D' μ [false] m.heap m'.heap f') (receiver : Value) :
    Matches D D' μ m m' equal ((do newFunction (← bindMethod f receiver)) m)
      ((do newFunction (← bindMethod f' receiver)) m') :=
  (matches_bindMethod hm hf receiver).bind fun _ _ _ _ _ hf hr => matches_newFunction hr.lifted hf

theorem matches_property (hm : m.Lifted D D' μ m') (o : ObjectId) (name : Token) :
    Matches D D' μ m m' equal (property o name m) (property o name m') := by
  refine (matches_heap hm).bind fun h h' μ₁ m₁ m₁' hh hr => ?_
  obtain ⟨rfl, rfl, hh⟩ := hh
  rw [hh.objects]
  cases m₁.heap.objects[o.index]? with
  | none => exact matches_fail hr.lifted _ _
  | some obj =>
    dsimp only
    cases obj.fields.get? name.lexeme with
    | some v => exact matches_pure hr.lifted v
    | none =>
      have hmethod := hh.method? obj.cls name.lexeme
      dsimp only
      generalize m₁.heap.method? obj.cls name.lexeme = f,
        m₁'.heap.method? obj.cls name.lexeme = f' at hmethod ⊢
      cases hmethod with
      | none => exact matches_fail hr.lifted _ _
      | some hf => exact matches_boundMethod hr.lifted hf _

theorem matches_inherited (hm : m.Lifted D D' μ m') (hc : m.Aligned μ gaps m')
    (ho : ref.LiftedSuper D D' gaps ref') (method : Token) :
    Matches D D' μ m m' equal (inherited ref method m) (inherited ref' method m') := by
  refine (matches_get hm).bind fun a a' μ₁ m₁ m₁' ha hr => ?_
  obtain ⟨rfl, rfl, ha⟩ := ha
  have hc := hr.aligned hc
  have hd := ho.distance
  rw [ha.distances, ha.distances', ho.token]
  generalize D[ref.id]? = d, D'[ref'.id]? = d' at hd ⊢
  cases hd with
  | none => exact matches_fail hr.lifted _ _
  | some hd =>
  cases hd with
  | zero => exact matches_fail hr.lifted _ _
  | succ hthis hsuper =>
  dsimp only
  rw [ha.heap.lookupAt? hc hsuper "super", ha.heap.lookupAt? hc hthis "this"]
  cases a.heap.lookupAt? a.current (_ + 1) "super" with
  | none => exact matches_fail hr.lifted _ _
  | some v =>
    cases v with
    | cls superclass =>
      cases a.heap.lookupAt? a.current _ "this" with
      | none => exact matches_fail hr.lifted _ _
      | some receiver =>
        have hfound := ha.heap.method? superclass method.lexeme
        dsimp only
        generalize a.heap.method? superclass method.lexeme = f,
          a'.heap.method? superclass method.lexeme = f' at hfound ⊢
        cases hfound with
        | none => exact matches_fail hr.lifted _ _
        | some hf => exact matches_boundMethod hr.lifted hf receiver
    | _ => exact matches_fail hr.lifted _ _

theorem lifted_closures {h h' : Heap} {scope scope' : ScopeId}
    (ha : Placing.Aligned μ gaps (h.chain scope) (h'.chain scope')) (hg : gaps.headD false = false)
    (hms : Stmt.LiftedMethods D D' (false :: gaps) ms ms') :
    List.Forall₂ (fun e e' => e'.1 = e.1 ∧ Closure.Lifted D D' μ [false] h h' e.2 e'.2)
      (ms.map fun decl =>
        (decl.name.lexeme, (⟨decl, scope, decl.name.lexeme = initializerName⟩ : Closure)))
      (ms'.map fun decl =>
        (decl.name.lexeme, (⟨decl, scope', decl.name.lexeme = initializerName⟩ : Closure))) := by
  induction ms generalizing ms' with
  | nil =>
    cases hms
    exact .nil
  | cons f ms ih =>
    cases hms with
    | cons hf hms =>
      refine .cons ⟨congrArg Token.lexeme hf.name_eq, ha.puts hg, ?_, gaps, ha, hf⟩ (ih hms)
      simp only [hf.name_eq]

theorem matches_newClass {c c' : Class} (hm : m.Lifted D D' μ m')
    (hc : c.Lifted D D' μ m.heap m'.heap c') :
    Matches D D' μ m m' equal (newClass c m) (newClass c' m') := by
  have hid : (m'.heap.addClass c').1 = (m.heap.addClass c).1 := by
    simp only [Heap.addClass, hm.heap.classes.size_eq]
  exact .ok hid (tracks_heap hm (.of_scopes rfl rfl) (hm.heap.addClass hc))

theorem matches_createClass {scope scope' : ScopeId} {outer : List Bool} (name : Token)
    (superclass : Option ClassId) {ms ms' : List (FunctionDecl Stmt)} (hm : m.Lifted D D' μ m')
    (hc : m.Aligned μ gaps m')
    (hs : Placing.Aligned μ outer (m.heap.chain scope) (m'.heap.chain scope'))
    (hg : outer.headD false = false) (hms : Stmt.LiftedMethods D D' (false :: outer) ms ms') :
    Matches D D' μ m m' equal (createClass name superclass ms scope m)
      (createClass name superclass ms' scope' m') := by
  refine (matches_heap hm).bind fun h h' μ₁ m₁ m₁' hh hr => ?_
  obtain ⟨rfl, rfl, hh⟩ := hh
  have hancestors : m₁'.heap.ancestorsFrom superclass = m₁.heap.ancestorsFrom superclass := by
    cases superclass with
    | none => rfl
    | some c => exact Heap.lineage_beside hh.beside c
  have hclass : Class.Lifted D D' μ₁ m₁.heap m₁'.heap
      ⟨name.lexeme, m₁.heap.ancestorsFrom superclass, _⟩
      ⟨name.lexeme, m₁'.heap.ancestorsFrom superclass, _⟩ :=
    ⟨rfl, hancestors, rel_get?_ofList (lifted_closures (hs.grow hr.grows) hg hms)⟩
  refine (matches_newClass hr.lifted hclass).then fun id μ₂ m₂ m₂' hr₂ => ?_
  exact matches_reassign hr₂.lifted ((hr.trans hr₂).aligned hc) name _

theorem matches_declareBase (hm : m.Lifted D D' μ m') (hc : m.Aligned μ gaps m')
    (hg : gaps.headD false = false) (name : Token)
    (hms : Stmt.LiftedMethods D D' (false :: gaps) ms ms') :
    Matches D D' μ m m' equal (declareClass name none ms m) (declareClass name none ms' m') := by
  refine (matches_define hm hc hg _ .nil).then fun _ μ₁ m₁ m₁' hr => ?_
  refine (matches_current hr.lifted).bind fun s s' μ₂ m₂ m₂' hs hr₂ => ?_
  obtain ⟨rfl, rfl⟩ := hs
  have hc₂ := (hr.trans hr₂).aligned hc
  exact matches_createClass name none hr₂.lifted hc₂ hc₂ hg hms

theorem matches_declareDerived (hm : m.Lifted D D' μ m') (hc : m.Aligned μ gaps m')
    (hg : gaps.headD false = false) (name : Token) (parent : ClassId)
    (hms : Stmt.LiftedMethods D D' (false :: false :: gaps) ms ms') :
    Matches D D' μ m m' equal (declareClass name (some parent) ms m)
      (declareClass name (some parent) ms' m') := by
  refine (matches_define hm hc hg _ .nil).then fun _ μ₁ m₁ m₁' hr => ?_
  refine (matches_current hr.lifted).bind fun s s' μ₂ m₂ m₂' hs hr₂ => ?_
  obtain ⟨rfl, rfl⟩ := hs
  have hr₂ := hr.trans hr₂
  refine (matches_newScope hr₂.lifted (hr₂.aligned hc) _).bind fun s s' μ₃ m₃ m₃' hs hr₃ => ?_
  exact matches_createClass name (some parent) hr₃.lifted ((hr₂.trans hr₃).aligned hc) hs rfl hms

theorem matches_yielded {inner : List Bool} {f f' : Closure} (hm : m.Lifted D D' μ m')
    (hf : f.Lifted D D' μ inner m.heap m'.heap f') (completion : Completion) :
    Matches D D' μ m m' equal (yielded f completion m) (yielded f' completion m') := by
  unfold yielded
  rw [hf.isInitializer]
  cases f.isInitializer with
  | true =>
    refine (matches_heap hm).bind fun h h' μ₁ m₁ m₁' hh hr => ?_
    obtain ⟨rfl, rfl, hh⟩ := hh
    rw [hh.bindings _ _ (hf.grow hr.grows).scope]
    exact matches_pure hr.lifted _
  | false =>
    cases completion with
    | normal => exact matches_pure hm _
    | returned v => exact matches_pure hm v

end Run

open Run

variable {D D' : Distances}

mutual

theorem matches_evaluate : (n : Nat) → {gaps : List Bool} → {e e' : Expr} →
    e.Lifted D D' gaps e' → {μ : Placing} → {m m' : Machine} → m.Lifted D D' μ m' →
    m.Aligned μ gaps m' → Matches D D' μ m m' equal (evaluate n e m) (evaluate n e' m')
  | 0, _, _, _, _, _, _, _, hm, _ => matches_exhausted hm
  | n + 1, _, _, _, he, _, _, _, hm, hc => by
    cases he with
    | literal => exact matches_pure hm _
    | group he => exact matches_evaluate n he hm hc
    | unary he =>
      exact (matches_evaluate n he hm hc).then fun v _ _ _ hr => (steady_unary _ v).matches hr.lifted
    | binary hl hr =>
      refine (matches_evaluate n hl hm hc).then fun a _ _ _ h₁ => ?_
      refine (matches_evaluate n hr h₁.lifted (h₁.aligned hc)).then fun b _ _ _ h₂ => ?_
      exact (steady_binary _ a b).matches h₂.lifted
    | logical hl hr =>
      refine (matches_evaluate n hl hm hc).then fun a _ _ _ h₁ => ?_
      exact .ite (matches_pure h₁.lifted a) (matches_evaluate n hr h₁.lifted (h₁.aligned hc))
    | name ho => exact matches_read hm hc ho
    | assign ho he =>
      refine (matches_evaluate n he hm hc).then fun v _ _ _ h₁ => ?_
      refine (matches_assign h₁.lifted (h₁.aligned hc) ho v).then fun _ _ _ _ h₂ => ?_
      exact matches_pure h₂.lifted v
    | call hf ha =>
      refine (matches_evaluate n hf hm hc).then fun f _ _ _ h₁ => ?_
      refine (matches_evaluateAll n ha h₁.lifted (h₁.aligned hc)).then fun vs _ _ _ h₂ => ?_
      exact matches_apply n f _ vs h₂.lifted
    | get ho =>
      refine (matches_evaluate n ho hm hc).then fun v _ _ _ h₁ => ?_
      cases v with
      | object id => exact matches_property h₁.lifted id _
      | _ => exact matches_fail h₁.lifted _ _
    | set ho he =>
      refine (matches_evaluate n ho hm hc).then fun v _ _ _ h₁ => ?_
      cases v with
      | object id =>
        refine (matches_evaluate n he h₁.lifted (h₁.aligned hc)).then fun v _ _ _ h₂ => ?_
        exact .ok rfl (tracks_heap h₂.lifted (.of_scopes rfl rfl)
          (h₂.lifted.heap.setField id _ v))
      | _ => exact matches_fail h₁.lifted _ _
    | receiver ho => exact matches_read hm hc ho
    | inherited ho => exact matches_inherited hm hc ho _

theorem matches_evaluateAll : (n : Nat) → {gaps : List Bool} → {es es' : List Expr} →
    Expr.LiftedAll D D' gaps es es' → {μ : Placing} → {m m' : Machine} → m.Lifted D D' μ m' →
    m.Aligned μ gaps m' → Matches D D' μ m m' equal (evaluateAll n es m) (evaluateAll n es' m')
  | 0, _, _, _, _, _, _, _, hm, _ => matches_exhausted hm
  | n + 1, _, _, _, hes, _, _, _, hm, hc => by
    cases hes with
    | nil => exact matches_pure hm _
    | cons he hes =>
      refine (matches_evaluate n he hm hc).then fun v _ _ _ h₁ => ?_
      refine (matches_evaluateAll n hes h₁.lifted (h₁.aligned hc)).then fun vs _ _ _ h₂ => ?_
      exact matches_pure h₂.lifted _

theorem matches_apply : (n : Nat) → (f : Value) → (paren : Token) → (args : List Value) →
    {μ : Placing} → {m m' : Machine} → m.Lifted D D' μ m' →
    Matches D D' μ m m' equal (apply n f paren args m) (apply n f paren args m')
  | 0, _, _, _, _, _, _, hm => matches_exhausted hm
  | n + 1, f, paren, args, μ, m, m', hm => by
    cases f with
    | native id =>
      refine (matches_get hm).bind fun a a' μ₁ m₁ m₁' ha hr => ?_
      obtain ⟨rfl, rfl, ha⟩ := ha
      rw [ha.natives]
      cases hnative : a.natives[id.index]? with
      | none => exact matches_fail hr.lifted _ _
      | some native =>
        refine ((steady_checkArity paren native.arity args.length).matches hr.lifted).then
          fun _ μ₂ m₂ m₂' hr₂ => (matches_heap hr₂.lifted).bind fun h h' μ₃ m₃ m₃' hh hr₃ => ?_
        -- a host function cannot tell the heaps apart
        rw [ha.fixed native (Array.mem_of_getElem? hnative) h' h hh.2.2.view args]
        cases native.body h args with
        | ok v => exact matches_pure hr₃.lifted v
        | error reason => exact matches_fail hr₃.lifted _ _
    | function id =>
      refine (matches_heap hm).bind fun h h' μ₁ m₁ m₁' hh hr => ?_
      obtain ⟨rfl, rfl, hh⟩ := hh
      have hf := hh.functions id.index
      generalize m₁.heap.functions[id.index]? = f, m₁'.heap.functions[id.index]? = f' at hf ⊢
      cases hf with
      | none => exact matches_fail hr.lifted _ _
      | @some f f' hf =>
        have harity : f'.arity = f.arity := hf.arity_eq
        dsimp only
        rw [harity]
        exact ((steady_checkArity paren f.arity args.length).matches hr.lifted).then
          fun _ μ₂ m₂ m₂' hr₂ => matches_invoke n args hr₂.lifted (hf.grow hr₂.grows)
    | cls id =>
      refine (matches_heap hm).bind fun h h' μ₁ m₁ m₁' hh hr => ?_
      obtain ⟨rfl, rfl, hh⟩ := hh
      have hmethod := hh.method? id initializerName
      have harity := map_eq_of_rel hmethod fun _ _ hf => hf.arity_eq
      dsimp only
      rw [harity]
      refine ((steady_checkArity paren _ args.length).matches hr.lifted).then fun _ μ₂ m₂ m₂' hr₂ =>
        (matches_newObject hr₂.lifted id).then fun o μ₃ m₃ m₃' hr₃ => ?_
      have hr₃ := hr₂.trans hr₃
      generalize m₁.heap.method? id initializerName = f,
        m₁'.heap.method? id initializerName = f' at hmethod ⊢
      cases hmethod with
      | none => exact matches_pure hr₃.lifted _
      | some hf =>
        refine (matches_bindMethod hr₃.lifted (hf.grow hr₃.grows) _).bind
          fun f f' μ₄ m₄ m₄' hf hr₄ => ?_
        exact (matches_invoke n args hr₄.lifted hf).then
          fun _ _ _ _ hr₅ => matches_pure hr₅.lifted _
    | _ => exact matches_fail hm _ _

theorem matches_invoke : (n : Nat) → {f f' : Closure} → (args : List Value) → {μ : Placing} →
    {m m' : Machine} → m.Lifted D D' μ m' → f.Lifted D D' μ [] m.heap m'.heap f' →
    Matches D D' μ m m' equal (invoke n f args m) (invoke n f' args m')
  | 0, _, _, _, _, _, _, hm, _ => matches_exhausted hm
  | n + 1, f, f', args, μ, m, m', hm, hf => by
    obtain ⟨gaps, ha, hd⟩ := hf.decl
    obtain ⟨⟨name, params, body⟩, scope, isInitializer⟩ := f
    obtain ⟨⟨name', params', body'⟩, scope', isInitializer'⟩ := f'
    cases hd with
    | mk hb =>
      refine (matches_newScope hm ha _).bind fun s s' μ₁ m₁ m₁' hs hr => ?_
      refine (matches_within
        (matches_executeAll n hb (lifted_move hr.lifted s s') hs)).then fun c μ₂ m₂ m₂' hr₂ => ?_
      exact matches_yielded hr₂.lifted (hf.grow (hr.trans hr₂).grows) c

theorem matches_execute : (n : Nat) → {gaps : List Bool} → {s s' : Stmt} →
    s.Lifted D D' gaps s' → {μ : Placing} → {m m' : Machine} → m.Lifted D D' μ m' →
    m.Aligned μ gaps m' → Matches D D' μ m m' equal (execute n s m) (execute n s' m')
  | 0, _, _, _, _, _, _, _, hm, _ => matches_exhausted hm
  | n + 1, gaps, _, _, hs, _, _, _, hm, hc => by
    cases hs with
    | expr he =>
      exact (matches_evaluate n he hm hc).then fun _ _ _ _ hr => matches_pure hr.lifted _
    | print he =>
      exact (matches_evaluate n he hm hc).then fun v _ _ _ h₁ =>
        (matches_print h₁.lifted v).then fun _ _ _ _ h₂ => matches_pure h₂.lifted _
    | var hg hi =>
      cases hi with
      | none =>
        exact (matches_define hm hc hg _ _).then fun _ _ _ _ hr => matches_pure hr.lifted _
      | some he =>
        refine (matches_evaluate n he hm hc).then fun v _ _ _ h₁ => ?_
        exact (matches_define h₁.lifted (h₁.aligned hc) hg _ v).then fun _ _ _ _ h₂ =>
          matches_pure h₂.lifted _
    | block hb =>
      refine (matches_current hm).bind fun s s' μ₁ m₁ m₁' hs hr => ?_
      obtain ⟨rfl, rfl⟩ := hs
      refine (matches_newScope hr.lifted (hr.aligned hc) .empty).bind
        fun s s' μ₂ m₂ m₂' hs hr₂ => ?_
      exact matches_within (matches_executeAll n hb (lifted_move hr₂.lifted s s') hs)
    | ifThen hcond ht =>
      exact (matches_evaluate n hcond hm hc).then fun v _ _ _ h₁ =>
        .ite (matches_execute n ht h₁.lifted (h₁.aligned hc)) (matches_pure h₁.lifted _)
    | ifElse hcond ht he =>
      exact (matches_evaluate n hcond hm hc).then fun v _ _ _ h₁ =>
        .ite (matches_execute n ht h₁.lifted (h₁.aligned hc))
          (matches_execute n he h₁.lifted (h₁.aligned hc))
    | loop hcond hb => exact matches_iterate n hcond hb hm hc
    | @function _ decl decl' hg hf =>
      refine (matches_current hm).bind fun s s' μ₁ m₁ m₁' hs hr => ?_
      obtain ⟨rfl, rfl⟩ := hs
      have hc₁ := hr.aligned hc
      have hclosure : Closure.Lifted D D' μ₁ [] m₁.heap m₁'.heap ⟨decl, m₁.current, false⟩
          ⟨decl', m₁'.current, false⟩ := ⟨hc₁.puts hg, rfl, gaps, hc₁, hf⟩
      rw [hf.name_eq]
      refine (matches_newFunction hr.lifted hclosure).then fun v μ₂ m₂ m₂' hr₂ => ?_
      exact (matches_define hr₂.lifted (hr₂.aligned hc₁) hg _ v).then
        fun _ _ _ _ hr₃ => matches_pure hr₃.lifted _
    | ret hv =>
      cases hv with
      | none => exact matches_pure hm _
      | some he =>
        exact (matches_evaluate n he hm hc).then fun v _ _ _ hr => matches_pure hr.lifted _
    | base hg hms =>
      exact (matches_declareBase hm hc hg _ hms).then fun _ _ _ _ hr => matches_pure hr.lifted _
    | derived hg he hms =>
      refine (matches_evaluate n he hm hc).then fun v _ _ _ h₁ => ?_
      cases v with
      | cls parent =>
        exact (matches_declareDerived h₁.lifted (h₁.aligned hc) hg _ parent hms).then
          fun _ _ _ _ h₂ => matches_pure h₂.lifted _
      | _ =>
        rw [he.superclassToken_eq]
        exact matches_fail h₁.lifted _ _

theorem matches_executeAll : (n : Nat) → {gaps : List Bool} → {ss ss' : List Stmt} →
    Stmt.LiftedAll D D' gaps ss ss' → {μ : Placing} → {m m' : Machine} → m.Lifted D D' μ m' →
    m.Aligned μ gaps m' → Matches D D' μ m m' equal (executeAll n ss m) (executeAll n ss' m')
  | 0, _, _, _, _, _, _, _, hm, _ => matches_exhausted hm
  | n + 1, _, _, _, hss, _, _, _, hm, hc => by
    cases hss with
    | nil => exact matches_pure hm _
    | cons hs hss =>
      refine (matches_execute n hs hm hc).then fun completion _ _ _ h₁ => ?_
      cases completion with
      | normal => exact matches_executeAll n hss h₁.lifted (h₁.aligned hc)
      | returned v => exact matches_pure h₁.lifted _

theorem matches_iterate : (n : Nat) → {gaps : List Bool} → {c c' : Expr} → {body body' : Stmt} →
    c.Lifted D D' gaps c' → body.Lifted D D' gaps body' → {μ : Placing} → {m m' : Machine} →
    m.Lifted D D' μ m' → m.Aligned μ gaps m' →
    Matches D D' μ m m' equal (iterate n c body m) (iterate n c' body' m')
  | 0, _, _, _, _, _, _, _, _, _, _, hm, _ => matches_exhausted hm
  | n + 1, _, _, _, _, _, hcond, hb, _, _, _, hm, hc => by
    refine (matches_evaluate n hcond hm hc).then fun v _ _ _ h₁ =>
      .ite ?_ (matches_pure h₁.lifted _)
    refine (matches_execute n hb h₁.lifted (h₁.aligned hc)).then fun completion _ _ _ h₂ => ?_
    cases completion with
    | normal => exact matches_iterate n hcond hb h₂.lifted (h₂.aligned (h₁.aligned hc))
    | returned v => exact matches_pure h₂.lifted _

end

end Treewalk
