import Treewalk.Proofs.Running.Steps
import Treewalk.Proofs.SideBySide.Machine

namespace Treewalk

namespace Wording

variable (w : Wording)

def Near (t t' : Token) : Prop := ∃ marked, w.Same (w.token marked t) t'

inductive NearFault : Diagnostic → Diagnostic → Prop
  | runtime : w.Near t t' → NearFault (.runtime fault t) (.runtime fault t')
  | undefined : w.Near t t' → NearFault (Run.undefined t) (Run.undefined t')
  | output : NearFault (.output reason) (.output reason)

variable {w}

theorem near_of_same (h : w.Same t t') : w.Near t t' := by
  refine ⟨false, ?_⟩
  rw [token, w.word_false]
  exact h

theorem Named.near (h : w.Named marked t t') : w.Near t t' := ⟨marked, h.same⟩

end Wording

namespace Run

variable {α β : Type}

structure Reaches (w : Wording) (P : Pairing) (μ : Array Bool) (m m' : Machine) (μ₁ : Array Bool)
    (m₁ m₁' : Machine) : Prop where
  grows : Grows μ m.heap μ₁ m₁.heap
  current : m₁.current = m.current
  distances : m₁.distances = m.distances
  distances' : m₁'.distances = m'.distances
  alike : m₁.Alike w P μ₁ m₁'

inductive Agrees (w : Wording) (P : Pairing) (μ : Array Bool) (m m' : Machine)
    (R : α → α → Array Bool → Machine → Prop) :
    EStateM.Result Halt Machine α → EStateM.Result Halt Machine α → Prop
  | ok : R a a' μ₁ m₁ → Reaches w P μ m m' μ₁ m₁ m₁' → Agrees w P μ m m' R (.ok a m₁) (.ok a' m₁')
  | fault : w.NearFault d d' → Reaches w P μ m m' μ₁ m₁ m₁' →
      Agrees w P μ m m' R (.error (.fault d) m₁) (.error (.fault d') m₁')
  | exhausted : Reaches w P μ m m' μ₁ m₁ m₁' →
      Agrees w P μ m m' R (.error .exhausted m₁) (.error .exhausted m₁')

abbrev same (a a' : α) (_ : Array Bool) (_ : Machine) : Prop := a' = a

variable {w : Wording} {P : Pairing} {μ μ₁ μ₂ : Array Bool} {m m' m₁ m₁' m₂ m₂' : Machine}
  {R : α → α → Array Bool → Machine → Prop} {S : β → β → Array Bool → Machine → Prop}
  {marks : List Bool}

theorem Reaches.trans (h : Reaches w P μ m m' μ₁ m₁ m₁') (h₁ : Reaches w P μ₁ m₁ m₁' μ₂ m₂ m₂') :
    Reaches w P μ m m' μ₂ m₂ m₂' :=
  ⟨h.grows.trans h₁.grows, h₁.current.trans h.current, h₁.distances.trans h.distances,
    h₁.distances'.trans h.distances', h₁.alike⟩

theorem reaches_self (hm : m.Alike w P μ m') : Reaches w P μ m m' μ m m' :=
  ⟨.refl μ _, rfl, rfl, rfl, hm⟩

theorem reaches_heap {h₁ h₁' : Heap} (hm : m.Alike w P μ m') (g : Grows μ m.heap μ₁ h₁)
    (hh : h₁.Alike w P μ₁ h₁') :
    Reaches w P μ m m' μ₁ { m with heap := h₁ } { m' with heap := h₁' } :=
  ⟨g, rfl, rfl, rfl, hh, hm.natives, hm.fixed, hm.globals, hm.home.grow g, hm.current,
    hm.distances, hm.sink⟩

theorem Reaches.marked (h : Reaches w P μ m m' μ₁ m₁ m₁')
    (hc : Marked μ (m.heap.chain m.current) marks) :
    Marked μ₁ (m₁.heap.chain m₁.current) marks := by
  rw [h.current]
  exact hc.grow h.grows

theorem bound_of_reaches (h : Reaches w P μ m m' μ₁ m₁ m₁')
    (hb : (m.heap.binding? m.current name).isSome) :
    (m₁.heap.binding? m₁.current name).isSome := by
  rw [h.current]
  exact h.grows.heap.bound _ _ hb

theorem Agrees.after (h : Reaches w P μ m m' μ₁ m₁ m₁') {r r' : EStateM.Result Halt Machine α}
    (hr : Agrees w P μ₁ m₁ m₁' R r r') : Agrees w P μ m m' R r r' := by
  cases hr with
  | ok ha h₁ => exact .ok ha (h.trans h₁)
  | fault hd h₁ => exact .fault hd (h.trans h₁)
  | exhausted h₁ => exact .exhausted (h.trans h₁)

theorem Agrees.bind {x x' : Run α} {f f' : α → Run β} (hx : Agrees w P μ m m' R (x m) (x' m'))
    (hf : ∀ a a' μ₁ m₁ m₁', R a a' μ₁ m₁ → Reaches w P μ m m' μ₁ m₁ m₁' →
      Agrees w P μ₁ m₁ m₁' S (f a m₁) (f' a' m₁')) :
    Agrees w P μ m m' S ((x >>= f) m) ((x' >>= f') m') := by
  simp only [Bind.bind, EStateM.bind]
  generalize x m = r, x' m' = r' at hx ⊢
  cases hx with
  | ok ha h => exact (hf _ _ _ _ _ ha h).after h
  | fault hd h => exact .fault hd h
  | exhausted h => exact .exhausted h

theorem Agrees.then {x x' : Run α} {f f' : α → Run β} (hx : Agrees w P μ m m' same (x m) (x' m'))
    (hf : ∀ a μ₁ m₁ m₁', Reaches w P μ m m' μ₁ m₁ m₁' →
      Agrees w P μ₁ m₁ m₁' S (f a m₁) (f' a m₁')) :
    Agrees w P μ m m' S ((x >>= f) m) ((x' >>= f') m') := by
  refine hx.bind fun a a' μ₁ m₁ m₁' ha h => ?_
  cases ha
  exact hf a μ₁ m₁ m₁' h

theorem agrees_pure (hm : m.Alike w P μ m') (a : α) :
    Agrees w P μ m m' same ((pure a : Run α) m) ((pure a : Run α) m') :=
  .ok rfl (reaches_self hm)

theorem Agrees.ite {c : Prop} [Decidable c] {x x' y y' : Run α}
    (hx : Agrees w P μ m m' R (x m) (x' m')) (hy : Agrees w P μ m m' R (y m) (y' m')) :
    Agrees w P μ m m' R ((if c then x else y) m) ((if c then x' else y') m') := by
  by_cases h : c
  · rw [if_pos h, if_pos h]
    exact hx
  · rw [if_neg h, if_neg h]
    exact hy

theorem agrees_exhausted (hm : m.Alike w P μ m') :
    Agrees w P μ m m' R (exhausted m) (exhausted m') :=
  .exhausted (reaches_self hm)

theorem agrees_fail {fault : RuntimeFault} {t t' : Token} (hm : m.Alike w P μ m')
    (ht : w.Near t t') : Agrees w P μ m m' R (fail fault t m) (fail fault t' m') :=
  .fault (.runtime ht) (reaches_self hm)

theorem agrees_heap (hm : m.Alike w P μ m') :
    Agrees w P μ m m' (fun h h' μ m => h = m.heap ∧ h.Alike w P μ h') (heap m) (heap m') :=
  .ok ⟨rfl, hm.heap⟩ (reaches_self hm)

theorem agrees_current (hm : m.Alike w P μ m') :
    Agrees w P μ m m' (fun s s' _ m => s = m.current ∧ s' = s) (current m) (current m') :=
  .ok ⟨rfl, hm.current⟩ (reaches_self hm)

theorem agrees_get (hm : m.Alike w P μ m') :
    Agrees w P μ m m' (fun a a' μ m => a = m ∧ a.Alike w P μ a') ((get : Run Machine) m)
      ((get : Run Machine) m') :=
  .ok ⟨rfl, hm⟩ (reaches_self hm)

theorem alike_move (hm : m.Alike w P μ m') (scope : ScopeId) :
    Machine.Alike w P μ { m with current := scope } { m' with current := scope } :=
  ⟨hm.heap, hm.natives, hm.fixed, hm.globals, hm.home, rfl, hm.distances, hm.sink⟩

theorem agrees_within {x x' : Run α} {scope : ScopeId} (hm : m.Alike w P μ m')
    (hx : Agrees w P μ { m with current := scope } { m' with current := scope } same
      (x { m with current := scope })
      (x' { m' with current := scope })) :
    Agrees w P μ m m' same (within scope x m) (within scope x' m') := by
  have hback {μ₁ : Array Bool} {m₁ m₁' : Machine}
      (h : Reaches w P μ { m with current := scope } { m' with current := scope } μ₁ m₁ m₁') :
      Reaches w P μ m m' μ₁ { m₁ with current := m.current }
        { m₁' with current := m'.current } := by
    rw [hm.current]
    exact ⟨h.grows, rfl, h.distances, h.distances', alike_move h.alike m.current⟩
  simp only [within]
  generalize x _ = r, x' _ = r' at hx ⊢
  cases hx with
  | ok ha h => exact .ok ha (hback h)
  | fault hd h => exact .fault hd (hback h)
  | exhausted h => exact .exhausted (hback h)

def Agree (w : Wording) (P : Pairing) (x x' : Run α) : Prop :=
  ∀ μ m m', m.Alike w P μ m' → Agrees w P μ m m' same (x m) (x' m')

theorem agree_pure (a : α) : Agree w P (pure a) (pure a) := fun _ _ _ hm => agrees_pure hm a

theorem agree_fail {fault : RuntimeFault} {t t' : Token} (ht : w.Same t t') :
    Agree w P (fail fault t : Run α) (fail fault t') :=
  fun _ _ _ hm => agrees_fail hm (w.near_of_same ht)

theorem agree_unary {op op' : Token} (ho : w.Same op op') (v : Value) :
    Agree w P (unary op v) (unary op' v) := by
  unfold unary
  rw [w.kind_eq ho]
  split
  · exact agree_pure _
  · exact agree_fail ho
  · exact agree_pure _
  · exact agree_fail ho

theorem agree_arithmetic {op op' : Token} (ho : w.Same op op') (f : Float → Float → Value)
    (a b : Value) : Agree w P (arithmetic op f a b) (arithmetic op' f a b) := by
  unfold arithmetic
  split
  · exact agree_pure _
  · exact agree_fail ho

theorem agree_add {op op' : Token} (ho : w.Same op op') (a b : Value) :
    Agree w P (add op a b) (add op' a b) := by
  unfold add
  split
  · exact agree_pure _
  · exact agree_pure _
  · exact agree_fail ho

theorem agree_binary {op op' : Token} (ho : w.Same op op') (a b : Value) :
    Agree w P (binary op a b) (binary op' a b) := by
  unfold binary
  rw [w.kind_eq ho]
  split
  · exact agree_add ho a b
  · exact agree_pure _
  · exact agree_pure _
  · exact agree_arithmetic ho _ a b
  · exact agree_arithmetic ho _ a b
  · exact agree_arithmetic ho _ a b
  · exact agree_arithmetic ho _ a b
  · exact agree_arithmetic ho _ a b
  · exact agree_arithmetic ho _ a b
  · exact agree_arithmetic ho _ a b
  · exact agree_fail ho

theorem agree_checkArity {paren paren' : Token} (hp : w.Same paren paren') (expected got : Nat) :
    Agree w P (checkArity paren expected got) (checkArity paren' expected got) := by
  unfold checkArity
  split
  · exact agree_pure _
  · exact agree_fail hp

theorem agrees_write (hm : m.Alike w P μ m') (text : String) :
    Agrees w P μ m m' same (write text m) (write text m') := by
  unfold write
  rw [hm.sink]
  cases m.sink.offer text with
  | mk refused sink =>
    have hr : Reaches w P μ m m' μ { m with sink } { m' with sink } := ⟨.refl μ _, rfl, rfl, rfl,
      hm.heap, hm.natives, hm.fixed, hm.globals, hm.home, hm.current, hm.distances, rfl⟩
    cases refused with
    | none => exact .ok rfl hr
    | some reason => exact .fault .output hr

theorem agrees_writeAll (texts : List String) {μ : Array Bool} {m m' : Machine}
    (hm : m.Alike w P μ m') : Agrees w P μ m m' same (writeAll texts m) (writeAll texts m') := by
  induction texts generalizing μ m m' with
  | nil => exact agrees_pure hm ()
  | cons text texts ih => exact (agrees_write hm text).then fun _ _ _ _ hr => ih hr.alike

theorem agrees_print (hm : m.Alike w P μ m') (v : Value) :
    Agrees w P μ m m' same (print v m) (print v m') := by
  refine (agrees_heap hm).bind fun h h' μ₁ m₁ m₁' hh hr => ?_
  rw [hh.2.line]
  exact agrees_writeAll _ hr.alike

theorem marked_scope {h : Heap} {s : ScopeId} (hs : Marked μ (h.chain s) marks) :
    μ[s.index]? = some (marks.headD false) := by
  have hhead : (h.chain s)[0]? = some s := by
    have hne := hs.chain_ne_nil
    unfold Heap.chain at hne ⊢
    split at hne
    · rfl
    · exact absurd rfl hne
  rw [hs.mark hhead]
  cases marks <;> rfl

theorem find?_eq (hm : m.Alike w P μ m') (hc : Marked μ (m.heap.chain m.current) marks)
    (ho : w.Occurs P marks ref ref') : m'.find? ref' = m.find? ref := by
  obtain ⟨d, hp, hn⟩ := ho
  obtain ⟨hd, hd'⟩ := hm.distances _ _ _ hp
  unfold Machine.find?
  rw [hd, hd', hm.current, hm.globals, hn.lexeme_eq]
  cases d with
  | none =>
    rw [Wording.markAt, w.word_false]
    exact hm.heap.lookup? hm.home hn.known
  | some d => exact hm.heap.lookupAt? hc hn.known

theorem owner?_eq (hm : m.Alike w P μ m') (hc : Marked μ (m.heap.chain m.current) marks)
    (ho : w.Occurs P marks ref ref') : m'.owner? ref' = m.owner? ref ∧
      ∀ t, m.owner? ref = some t → ∃ marked, μ[t.index]? = some marked ∧
        w.Named marked ref.token ref'.token := by
  obtain ⟨d, hp, hn⟩ := ho
  obtain ⟨hd, hd'⟩ := hm.distances _ _ _ hp
  unfold Machine.owner?
  rw [hd, hd', hm.current, hm.globals, hn.lexeme_eq]
  cases d with
  | none =>
    rw [Wording.markAt, w.word_false]
    refine ⟨hm.heap.owner? hm.home hn.known, fun t ht => ⟨false, ?_, hn⟩⟩
    obtain ⟨hchain, hmark⟩ := hm.home.eq_singleton
    simp only [Heap.owner?, hchain] at ht
    have hmem := List.mem_of_find?_eq_some ht
    rw [List.mem_singleton.mp hmem]
    exact hmark
  | some d =>
    refine ⟨hm.heap.ownerAt? hc hn.known, fun t ht => ⟨_, hc.mark ?_, hn⟩⟩
    exact (Option.filter_eq_some_iff.mp ht).1

theorem agrees_read (hm : m.Alike w P μ m') (hc : Marked μ (m.heap.chain m.current) marks)
    (ho : w.Occurs P marks ref ref') : Agrees w P μ m m' same (read ref m) (read ref' m') := by
  unfold read
  rw [find?_eq hm hc ho]
  split
  · exact .ok rfl (reaches_self hm)
  · obtain ⟨d, -, hn⟩ := ho
    exact .fault (.undefined hn.near) (reaches_self hm)

theorem reaches_define {name name' : Token} {t : ScopeId} (hm : m.Alike w P μ m')
    (ht : μ[t.index]? = some marked) (hn : w.Named marked name name') (v : Value) :
    Reaches w P μ m m' μ { m with heap := m.heap.define t name.lexeme v }
      { m' with heap := m'.heap.define t name'.lexeme v } := by
  rw [hn.lexeme_eq]
  exact reaches_heap hm (.define (hm.heap.lt_size ht) _ _) (hm.heap.define ht hn.known v)

theorem agrees_assign (hm : m.Alike w P μ m') (hc : Marked μ (m.heap.chain m.current) marks)
    (ho : w.Occurs P marks ref ref') (v : Value) :
    Agrees w P μ m m' same (assign ref v m) (assign ref' v m') := by
  obtain ⟨heq, hmark⟩ := owner?_eq hm hc ho
  unfold assign
  rw [heq]
  split
  · next t ht =>
    obtain ⟨marked, hb, hn⟩ := hmark t ht
    exact .ok rfl (reaches_define hm hb hn v)
  · obtain ⟨d, -, hn⟩ := ho
    exact .fault (.undefined hn.near) (reaches_self hm)

theorem agrees_define {name name' : Token} (hm : m.Alike w P μ m')
    (hc : Marked μ (m.heap.chain m.current) marks)
    (hn : w.Named (marks.headD false) name name') (v : Value) :
    Agrees w P μ m m'
      (fun _ _ _ m₁ => (m₁.heap.binding? m₁.current name.lexeme).isSome)
      (define name.lexeme v m) (define name'.lexeme v m') := by
  have hb := marked_scope hc
  have heq : define name'.lexeme v m' =
      .ok () { m' with heap := m'.heap.define m.current name'.lexeme v } := by
    simp only [define, hm.current]
  rw [heq]
  refine .ok ?_ (reaches_define hm hb hn v)
  rw [Heap.isSome_binding?_define (hm.heap.lt_size hb)]
  exact .inr ⟨rfl, rfl⟩

theorem agrees_reassign {name name' : Token} (hm : m.Alike w P μ m')
    (hc : Marked μ (m.heap.chain m.current) marks)
    (hn : w.Named (marks.headD false) name name')
    (hbound : (m.heap.binding? m.current name.lexeme).isSome) (v : Value) :
    Agrees w P μ m m' same (reassign name v m) (reassign name' v m') := by
  have hb := marked_scope hc
  have howner {h : Heap} {s : ScopeId} {name : String} (hs : (h.binding? s name).isSome) :
      h.owner? s name = some s := by
    have hne := Heap.chain_ne_nil_iff.mpr (Heap.lt_size_of_binding? hs)
    unfold Heap.owner?
    unfold Heap.chain at hne ⊢
    split at hne
    · simp [hs]
    · exact absurd rfl hne
  have hbound' : (m'.heap.binding? m.current name'.lexeme).isSome := by
    rw [hn.lexeme_eq, hm.heap.binding? hb hn.known]
    exact hbound
  have heq : reassign name' v m' =
      .ok () { m' with heap := m'.heap.define m.current name'.lexeme v } := by
    simp only [reassign, hm.current, howner hbound']
  rw [heq, reassign, howner hbound]
  exact .ok rfl (reaches_define hm hb hn v)

theorem agrees_newScope {parent : ScopeId} {b b' : Bindings Value} (hm : m.Alike w P μ m')
    (hp : Marked μ (m.heap.chain parent) marks) (marked : Bool)
    (hb : ∀ name, w.Known name → b'.get? (w.word marked name) = b.get? name) :
    Agrees w P μ m m' (fun s s' μ m => s' = s ∧ Marked μ (m.heap.chain s) (marked :: marks))
      (newScope parent b m) (newScope parent b' m') := by
  have hid : (m'.heap.addChild parent b').1 = (m.heap.addChild parent b).1 := by
    simp only [Heap.addChild, Heap.addScope, hm.heap.scopes.size_eq]
  have g : Grows μ m.heap (μ.push marked) (m.heap.addChild parent b).2 := .addChild marked parent b
  refine .ok ⟨hid, ?_⟩ (reaches_heap hm g (hm.heap.addChild marked parent hb))
  change Marked _ ((m.heap.addChild parent b).2.chain (m.heap.addChild parent b).1) _
  rw [Heap.chain_addChild]
  refine .cons ?_ (hp.imp fun _ _ h => g.marks _ _ h)
  simp only [Heap.addChild, Heap.addScope, ← hm.heap.size, Array.getElem?_push_size]

theorem agrees_newFunction {f f' : Closure} (hm : m.Alike w P μ m')
    (hf : f.Alike w P [] μ m.heap f') :
    Agrees w P μ m m' same (newFunction f m) (newFunction f' m') := by
  have hid : (m'.heap.addFunction f').1 = (m.heap.addFunction f).1 := by
    simp only [Heap.addFunction, hm.heap.functions.size_eq]
  exact .ok (congrArg Value.function hid)
    (reaches_heap hm (.of_scopes rfl) (hm.heap.addFunction hf))

theorem agrees_newObject (hm : m.Alike w P μ m') (cls : ClassId) :
    Agrees w P μ m m' same (newObject cls m) (newObject cls m') := by
  have hid : (m'.heap.addObject ⟨cls, .empty⟩).1 = (m.heap.addObject ⟨cls, .empty⟩).1 := by
    simp only [Heap.addObject, hm.heap.objects]
  exact .ok hid (reaches_heap hm (.of_scopes rfl) (hm.heap.addObject _))

theorem get?_keyword (k : Keyword) (marked : Bool) (v : Value) (name : String)
    (hn : w.Known name) :
    (Bindings.empty.insert k.spelling v).get? (w.word marked name) =
      (Bindings.empty.insert k.spelling v).get? name := by
  rw [Bindings.get?_insert, Bindings.get?_insert]
  refine if_congr ⟨fun h => ?_, fun h => ?_⟩ rfl rfl
  · rw [← w.word_keyword marked k] at h
    exact w.word_inj (w.known_keyword k) hn h
  · rw [← h, w.word_keyword]

theorem agrees_bindMethod {f f' : Closure} (hm : m.Alike w P μ m')
    (hf : f.Alike w P [false] μ m.heap f') (receiver : Value) :
    Agrees w P μ m m' (fun f f' μ m => f.Alike w P [] μ m.heap f') (bindMethod f receiver m)
      (bindMethod f' receiver m') := by
  obtain ⟨marks, hmarks, hd⟩ := hf.decl
  have hscope := agrees_newScope hm hmarks false
    (get?_keyword .thisKw false receiver)
  have hbind : bindMethod f' receiver m' = bindMethod { f' with scope := f.scope } receiver m' := by
    unfold bindMethod Heap.bindMethod
    rw [hf.scope]
  rw [hbind]
  cases hscope with
  | ok hs hr => exact .ok ⟨hs.1, hf.isInitializer, false :: marks, hs.2, hd⟩ hr

theorem agrees_boundMethod {f f' : Closure} (hm : m.Alike w P μ m')
    (hf : f.Alike w P [false] μ m.heap f') (receiver : Value) :
    Agrees w P μ m m' same ((do newFunction (← bindMethod f receiver)) m)
      ((do newFunction (← bindMethod f' receiver)) m') :=
  (agrees_bindMethod hm hf receiver).bind fun _ _ _ _ _ hf hr => agrees_newFunction hr.alike hf

theorem agrees_property {o : ObjectId} {name name' : Token} (hm : m.Alike w P μ m')
    (hn : w.Same name name') :
    Agrees w P μ m m' same (property o name m) (property o name' m') := by
  refine (agrees_heap hm).bind fun h h' μ₁ m₁ m₁' hh hr => ?_
  obtain ⟨rfl, hh⟩ := hh
  rw [hh.objects, w.lexeme_eq hn]
  cases m₁.heap.objects[o.index]? with
  | none => exact agrees_fail hr.alike (w.near_of_same hn)
  | some obj =>
    dsimp only
    cases obj.fields.get? name.lexeme with
    | some v => exact agrees_pure hr.alike v
    | none =>
      have hmethod := hh.method? obj.cls name.lexeme
      dsimp only
      generalize m₁.heap.method? obj.cls name.lexeme = f,
        h'.method? obj.cls name.lexeme = f' at hmethod ⊢
      cases hmethod with
      | none => exact agrees_fail hr.alike (w.near_of_same hn)
      | some hf => exact agrees_boundMethod hr.alike hf _

theorem lookupAt?_keyword (hm : m.Alike w P μ m') (hc : Marked μ (m.heap.chain m.current) marks)
    (k : Keyword) (d : Nat) :
    m'.heap.lookupAt? m.current d k.spelling = m.heap.lookupAt? m.current d k.spelling := by
  have h := hm.heap.lookupAt? hc (d := d) (w.known_keyword k)
  rwa [w.word_keyword] at h

theorem agrees_inherited {ref ref' : Ref} {method method' : Token} (hm : m.Alike w P μ m')
    (hc : Marked μ (m.heap.chain m.current) marks) (hp : P ref.id ref'.id d)
    (ht : w.Same ref.token ref'.token) (hmethod : w.Same method method') :
    Agrees w P μ m m' same (inherited ref method m) (inherited ref' method' m') := by
  refine (agrees_get hm).bind fun a a' μ₁ m₁ m₁' ha hr => ?_
  obtain ⟨rfl, ha⟩ := ha
  obtain ⟨hd, hd'⟩ := ha.distances _ _ _ hp
  have hc := hr.marked hc
  have hfault := w.near_of_same ht
  rw [hd, hd', w.lexeme_eq hmethod]
  obtain _ | _ | d := d
  · exact agrees_fail hr.alike hfault
  · exact agrees_fail hr.alike hfault
  · have hsuper := lookupAt?_keyword ha hc .superKw (d + 1)
    have hthis := lookupAt?_keyword ha hc .thisKw d
    dsimp only [Keyword.spelling] at hsuper hthis ⊢
    rw [ha.current, hsuper, hthis]
    cases a.heap.lookupAt? a.current (d + 1) "super" with
    | none => exact agrees_fail hr.alike hfault
    | some v =>
      cases v with
      | cls superclass =>
        cases a.heap.lookupAt? a.current d "this" with
        | none => exact agrees_fail hr.alike hfault
        | some receiver =>
          have hfound := ha.heap.method? superclass method.lexeme
          dsimp only
          generalize a.heap.method? superclass method.lexeme = f,
            a'.heap.method? superclass method.lexeme = f' at hfound ⊢
          cases hfound with
          | none => exact agrees_fail hr.alike (w.near_of_same hmethod)
          | some hf => exact agrees_boundMethod hr.alike hf receiver
      | _ => exact agrees_fail hr.alike hfault

theorem rel_get?_ofList {R : Closure → Closure → Prop} {es es' : List (String × Closure)}
    (h : List.Forall₂ (fun e e' => e'.1 = e.1 ∧ R e.2 e'.2) es es') (name : String) :
    Option.Rel R ((Bindings.ofList es).get? name) ((Bindings.ofList es').get? name) := by
  have hfold {b b' : Bindings Closure} (hb : Option.Rel R (b.get? name) (b'.get? name)) :
      Option.Rel R ((es.foldl (fun b e => b.insert e.1 e.2) b).get? name)
        ((es'.foldl (fun b e => b.insert e.1 e.2) b').get? name) := by
    induction h generalizing b b' with
    | nil => exact hb
    | cons he _ ih =>
      refine ih ?_
      rw [Bindings.get?_insert, Bindings.get?_insert, he.1]
      split
      · exact .some he.2
      · exact hb
  exact hfold .none

theorem alike_closures {h : Heap} {scope : ScopeId} (hs : Marked μ (h.chain scope) marks)
    (hms : Stmt.AlikeMethods w P (false :: marks) ms ms') :
    List.Forall₂ (fun e e' => e'.1 = e.1 ∧ Closure.Alike w P [false] μ h e.2 e'.2)
      (ms.map fun decl =>
        (decl.name.lexeme, (⟨decl, scope, decl.name.lexeme = initializerName⟩ : Closure)))
      (ms'.map fun decl =>
        (decl.name.lexeme, (⟨decl, scope, decl.name.lexeme = initializerName⟩ : Closure))) := by
  induction ms generalizing ms' with
  | nil =>
    cases hms
    exact .nil
  | cons f ms ih =>
    cases hms with
    | cons hf hms =>
      refine .cons ⟨hf.lexeme_name, rfl, ?_, marks, hs, hf⟩ (ih hms)
      simp only [hf.lexeme_name]

theorem agrees_newClass {c c' : Class} (hm : m.Alike w P μ m') (hc : c.Alike w P μ m.heap c') :
    Agrees w P μ m m' same (newClass c m) (newClass c' m') := by
  have hid : (m'.heap.addClass c').1 = (m.heap.addClass c).1 := by
    simp only [Heap.addClass, hm.heap.classes.size_eq]
  exact .ok hid (reaches_heap hm (.of_scopes rfl) (hm.heap.addClass hc))

theorem ancestorsFrom_eq {h h' : Heap} (hh : h.Alike w P μ h') (superclass : Option ClassId) :
    h'.ancestorsFrom superclass = h.ancestorsFrom superclass := by
  cases superclass with
  | none => rfl
  | some c => exact Heap.lineage_beside hh.beside c

theorem agrees_createClass {name name' : Token} {scope : ScopeId} {outer : List Bool}
    (superclass : Option ClassId) {ms ms' : List (FunctionDecl Stmt)} (hm : m.Alike w P μ m')
    (hc : Marked μ (m.heap.chain m.current) marks) (hn : w.Shown (marks.headD false) name name')
    (hbound : (m.heap.binding? m.current name.lexeme).isSome)
    (hs : Marked μ (m.heap.chain scope) outer)
    (hms : Stmt.AlikeMethods w P (false :: outer) ms ms') :
    Agrees w P μ m m' same (createClass name superclass ms scope m)
      (createClass name' superclass ms' scope m') := by
  refine (agrees_heap hm).bind fun h h' μ₁ m₁ m₁' hh hr => ?_
  obtain ⟨rfl, hh⟩ := hh
  have hclass := rel_get?_ofList (alike_closures (hs.grow hr.grows) hms)
  refine (agrees_newClass hr.alike
    ⟨w.lexeme_eq hn.same, ancestorsFrom_eq hh superclass, hclass⟩).then fun id μ₂ m₂ m₂' hr₂ => ?_
  have hr := hr.trans hr₂
  exact agrees_reassign hr₂.alike (hr.marked hc) hn.named (bound_of_reaches hr hbound) _

theorem agrees_declareClass {name name' : Token} (superclass : Option ClassId)
    {ms ms' : List (FunctionDecl Stmt)} (hm : m.Alike w P μ m')
    (hc : Marked μ (m.heap.chain m.current) marks) (hn : w.Shown (marks.headD false) name name')
    (hms : Stmt.AlikeMethods w P (false :: ((superclass.map fun _ => false).toList ++ marks))
      ms ms') :
    Agrees w P μ m m' same (declareClass name superclass ms m)
      (declareClass name' superclass ms' m') := by
  refine (agrees_define hm hc hn.named .nil).bind fun _ _ μ₁ m₁ m₁' hbound hr => ?_
  have hc₁ := hr.marked hc
  cases superclass with
  | none =>
    refine (agrees_current hr.alike).bind fun s s' μ₂ m₂ m₂' hs hr₂ => ?_
    obtain ⟨rfl, rfl⟩ := hs
    exact agrees_createClass none hr₂.alike (hr₂.marked hc₁) hn (bound_of_reaches hr₂ hbound)
      (hr₂.marked hc₁) hms
  | some parent =>
    refine (agrees_current hr.alike).bind fun s s' μ₂ m₂ m₂' hs hr₂ => ?_
    obtain ⟨rfl, rfl⟩ := hs
    refine (agrees_newScope hr₂.alike (hr₂.marked hc₁) false
      (get?_keyword .superKw false _)).bind fun s s' μ₃ m₃ m₃' hs hr₃ => ?_
    obtain ⟨rfl, hs⟩ := hs
    have hr₃ := hr₂.trans hr₃
    exact agrees_createClass (some parent) hr₃.alike (hr₃.marked hc₁) hn
      (bound_of_reaches hr₃ hbound) hs hms

theorem get?_parameters (hp : List.Forall₂ (w.Named marked) params params') (args : List Value)
    (name : String) (hn : w.Known name) :
    (Bindings.ofList ((params'.map Token.lexeme).zip args)).get? (w.word marked name) =
      (Bindings.ofList ((params.map Token.lexeme).zip args)).get? name := by
  have hfold {b b' : Bindings Value} (hb : b'.get? (w.word marked name) = b.get? name) :
      (((params'.map Token.lexeme).zip args).foldl (fun b e => b.insert e.1 e.2) b').get?
          (w.word marked name) =
        (((params.map Token.lexeme).zip args).foldl (fun b e => b.insert e.1 e.2) b).get? name := by
    induction hp generalizing args b b' with
    | nil => exact hb
    | cons hp _ ih =>
      cases args with
      | nil => exact hb
      | cons v args =>
        refine ih args ?_
        rw [Bindings.get?_insert, Bindings.get?_insert, hp.lexeme_eq, hb]
        exact if_congr ⟨w.word_inj hp.known hn, congrArg _⟩ rfl rfl
  exact hfold rfl

theorem agrees_yielded {inner : List Bool} {f f' : Closure} (hm : m.Alike w P μ m')
    (hf : f.Alike w P inner μ m.heap f') (completion : Completion) :
    Agrees w P μ m m' same (yielded f completion m) (yielded f' completion m') := by
  unfold yielded
  rw [hf.isInitializer]
  cases f.isInitializer with
  | true =>
    refine (agrees_heap hm).bind fun h h' μ₁ m₁ m₁' hh hr => ?_
    obtain ⟨rfl, hh⟩ := hh
    obtain ⟨marks, hmarks, -⟩ := (hf.grow hr.grows).decl
    have hthis := hh.binding? (marked_scope hmarks) (w.known_keyword .thisKw)
    rw [w.word_keyword] at hthis
    dsimp only [Keyword.spelling] at hthis
    rw [hf.scope, hthis]
    exact agrees_pure hr.alike _
  | false =>
    cases completion with
    | normal => exact agrees_pure hm _
    | returned v => exact agrees_pure hm v

end Run

open Run

variable {w : Wording} {P : Pairing}

mutual

theorem agrees_evaluate : (n : Nat) → {marks : List Bool} → {e e' : Expr} →
    e.Alike w P marks e' → {μ : Array Bool} → {m m' : Machine} → m.Alike w P μ m' →
    Marked μ (m.heap.chain m.current) marks →
    Agrees w P μ m m' same (evaluate n e m) (evaluate n e' m')
  | 0, _, _, _, _, _, _, _, hm, _ => agrees_exhausted hm
  | n + 1, _, _, _, he, _, _, _, hm, hc => by
    cases he with
    | literal => exact agrees_pure hm _
    | group he => exact agrees_evaluate n he hm hc
    | unary ho he =>
      exact (agrees_evaluate n he hm hc).then fun v _ _ _ hr => agree_unary ho v _ _ _ hr.alike
    | binary hl ho hr =>
      refine (agrees_evaluate n hl hm hc).then fun a _ _ _ h₁ => ?_
      refine (agrees_evaluate n hr h₁.alike (h₁.marked hc)).then fun b _ _ _ h₂ => ?_
      exact agree_binary ho a b _ _ _ h₂.alike
    | logical hl ho hr =>
      refine (agrees_evaluate n hl hm hc).then fun a _ _ _ h₁ => ?_
      rw [decides, decides, w.kind_eq ho]
      exact .ite (agrees_pure h₁.alike a) (agrees_evaluate n hr h₁.alike (h₁.marked hc))
    | name ho => exact agrees_read hm hc ho
    | assign ho he =>
      refine (agrees_evaluate n he hm hc).then fun v _ _ _ h₁ => ?_
      refine (agrees_assign h₁.alike (h₁.marked hc) ho v).then fun _ _ _ _ h₂ => ?_
      exact agrees_pure h₂.alike v
    | call hf hp ha =>
      refine (agrees_evaluate n hf hm hc).then fun f _ _ _ h₁ => ?_
      refine (agrees_evaluateAll n ha h₁.alike (h₁.marked hc)).then fun vs _ _ _ h₂ => ?_
      exact agrees_apply n f hp vs h₂.alike
    | get ho hn =>
      refine (agrees_evaluate n ho hm hc).then fun v _ _ _ h₁ => ?_
      cases v with
      | object id => exact agrees_property h₁.alike hn
      | _ => exact agrees_fail h₁.alike (w.near_of_same hn)
    | set ho hn he =>
      refine (agrees_evaluate n ho hm hc).then fun v _ _ _ h₁ => ?_
      cases v with
      | object id =>
        refine (agrees_evaluate n he h₁.alike (h₁.marked hc)).then fun v _ _ _ h₂ => ?_
        rw [w.lexeme_eq hn]
        exact .ok rfl (reaches_heap h₂.alike (.of_scopes rfl) (h₂.alike.heap.setField id _ v))
      | _ => exact agrees_fail h₁.alike (w.near_of_same hn)
    | receiver ho => exact agrees_read hm hc ho
    | inherited hp ht hn => exact agrees_inherited hm hc hp ht hn

theorem agrees_evaluateAll : (n : Nat) → {marks : List Bool} → {es es' : List Expr} →
    Expr.AlikeAll w P marks es es' → {μ : Array Bool} → {m m' : Machine} → m.Alike w P μ m' →
    Marked μ (m.heap.chain m.current) marks →
    Agrees w P μ m m' same (evaluateAll n es m) (evaluateAll n es' m')
  | 0, _, _, _, _, _, _, _, hm, _ => agrees_exhausted hm
  | n + 1, _, _, _, hes, _, _, _, hm, hc => by
    cases hes with
    | nil => exact agrees_pure hm _
    | cons he hes =>
      refine (agrees_evaluate n he hm hc).then fun v _ _ _ h₁ => ?_
      refine (agrees_evaluateAll n hes h₁.alike (h₁.marked hc)).then fun vs _ _ _ h₂ => ?_
      exact agrees_pure h₂.alike _

theorem agrees_apply : (n : Nat) → (f : Value) → {paren paren' : Token} → w.Same paren paren' →
    (args : List Value) → {μ : Array Bool} → {m m' : Machine} → m.Alike w P μ m' →
    Agrees w P μ m m' same (apply n f paren args m) (apply n f paren' args m')
  | 0, _, _, _, _, _, _, _, _, hm => agrees_exhausted hm
  | n + 1, f, paren, paren', hp, args, μ, m, m', hm => by
    have hfault := w.near_of_same hp
    cases f with
    | native id =>
      refine (agrees_get hm).bind fun a a' μ₁ m₁ m₁' ha hr => ?_
      obtain ⟨rfl, ha⟩ := ha
      rw [ha.natives]
      cases hnative : a.natives[id.index]? with
      | none => exact agrees_fail hr.alike hfault
      | some native =>
        refine (agree_checkArity hp native.arity args.length _ _ _ hr.alike).then
          fun _ μ₂ m₂ m₂' hr₂ => (agrees_heap hr₂.alike).bind fun h h' μ₃ m₃ m₃' hh hr₃ => ?_
        rw [ha.fixed native (Array.mem_of_getElem? hnative) h' h hh.2.view args]
        cases native.body h args with
        | ok v => exact agrees_pure hr₃.alike v
        | error reason => exact agrees_fail hr₃.alike hfault
    | function id =>
      refine (agrees_heap hm).bind fun h h' μ₁ m₁ m₁' hh hr => ?_
      obtain ⟨rfl, hh⟩ := hh
      have hf := hh.functions id.index
      generalize m₁.heap.functions[id.index]? = f, h'.functions[id.index]? = f' at hf ⊢
      cases hf with
      | none => exact agrees_fail hr.alike hfault
      | @some f f' hf =>
        have harity : f'.arity = f.arity := hf.arity_eq
        dsimp only
        rw [harity]
        exact (agree_checkArity hp f.arity args.length _ _ _ hr.alike).then
          fun _ μ₂ m₂ m₂' hr₂ => agrees_invoke n args hr₂.alike (hf.grow hr₂.grows)
    | cls id =>
      refine (agrees_heap hm).bind fun h h' μ₁ m₁ m₁' hh hr => ?_
      obtain ⟨rfl, hh⟩ := hh
      have hmethod := hh.method? id initializerName
      have harity := map_eq_of_rel hmethod fun _ _ hf => hf.arity_eq
      dsimp only
      rw [harity]
      refine (agree_checkArity hp _ args.length _ _ _ hr.alike).then fun _ μ₂ m₂ m₂' hr₂ =>
        (agrees_newObject hr₂.alike id).then fun o μ₃ m₃ m₃' hr₃ => ?_
      have hr₃ := hr₂.trans hr₃
      generalize m₁.heap.method? id initializerName = f,
        h'.method? id initializerName = f' at hmethod ⊢
      cases hmethod with
      | none => exact agrees_pure hr₃.alike _
      | some hf =>
        refine (agrees_bindMethod hr₃.alike (hf.grow hr₃.grows) _).bind
          fun f f' μ₄ m₄ m₄' hf hr₄ => ?_
        exact (agrees_invoke n args hr₄.alike hf).then fun _ _ _ _ hr₅ => agrees_pure hr₅.alike _
    | _ => exact agrees_fail hm hfault

theorem agrees_invoke : (n : Nat) → {f f' : Closure} → (args : List Value) → {μ : Array Bool} →
    {m m' : Machine} → m.Alike w P μ m' → f.Alike w P [] μ m.heap f' →
    Agrees w P μ m m' same (invoke n f args m) (invoke n f' args m')
  | 0, _, _, _, _, _, _, hm, _ => agrees_exhausted hm
  | n + 1, f, f', args, μ, m, m', hm, hf => by
    obtain ⟨marks, hmarks, hd⟩ := hf.decl
    obtain ⟨⟨name, params, body⟩, scope, isInitializer⟩ := f
    obtain ⟨⟨name', params', body'⟩, scope', isInitializer'⟩ := f'
    obtain rfl : scope' = scope := hf.scope
    cases hd with
    | mk _ hp hb =>
      refine (agrees_newScope hm hmarks _ (get?_parameters hp args)).bind
        fun s s' μ₁ m₁ m₁' hs hr => ?_
      obtain ⟨rfl, hs⟩ := hs
      refine (agrees_within hr.alike
        (agrees_executeAll n hb (alike_move hr.alike s') hs)).then fun c μ₂ m₂ m₂' hr₂ => ?_
      exact agrees_yielded hr₂.alike (hf.grow (hr.trans hr₂).grows) c

theorem agrees_execute : (n : Nat) → {marks : List Bool} → {s s' : Stmt} →
    s.Alike w P marks s' → {μ : Array Bool} → {m m' : Machine} → m.Alike w P μ m' →
    Marked μ (m.heap.chain m.current) marks →
    Agrees w P μ m m' same (execute n s m) (execute n s' m')
  | 0, _, _, _, _, _, _, _, hm, _ => agrees_exhausted hm
  | n + 1, marks, _, _, hs, _, _, _, hm, hc => by
    cases hs with
    | expr he =>
      exact (agrees_evaluate n he hm hc).then fun _ _ _ _ hr => agrees_pure hr.alike _
    | print he =>
      exact (agrees_evaluate n he hm hc).then fun v _ _ _ h₁ =>
        (agrees_print h₁.alike v).then fun _ _ _ _ h₂ => agrees_pure h₂.alike _
    | var hn hi =>
      cases hi with
      | none =>
        exact (agrees_define hm hc hn _).bind fun _ _ _ _ _ _ hr => agrees_pure hr.alike _
      | some he =>
        refine (agrees_evaluate n he hm hc).then fun v _ _ _ h₁ => ?_
        exact (agrees_define h₁.alike (h₁.marked hc) hn v).bind fun _ _ _ _ _ _ h₂ =>
          agrees_pure h₂.alike _
    | @block marked _ _ _ hb =>
      refine (agrees_current hm).bind fun s s' μ₁ m₁ m₁' hs hr => ?_
      obtain ⟨rfl, rfl⟩ := hs
      refine (agrees_newScope hr.alike (hr.marked hc) marked fun _ _ => rfl).bind
        fun s s' μ₂ m₂ m₂' hs hr₂ => ?_
      obtain ⟨rfl, hs⟩ := hs
      exact agrees_within hr₂.alike (agrees_executeAll n hb (alike_move hr₂.alike s') hs)
    | ifThen hcond ht =>
      exact (agrees_evaluate n hcond hm hc).then fun v _ _ _ h₁ =>
        .ite (agrees_execute n ht h₁.alike (h₁.marked hc)) (agrees_pure h₁.alike _)
    | ifElse hcond ht he =>
      exact (agrees_evaluate n hcond hm hc).then fun v _ _ _ h₁ =>
        .ite (agrees_execute n ht h₁.alike (h₁.marked hc))
          (agrees_execute n he h₁.alike (h₁.marked hc))
    | loop hcond hb => exact agrees_iterate n hcond hb hm hc
    | @function _ decl decl' hn hf =>
      refine (agrees_current hm).bind fun s s' μ₁ m₁ m₁' hs hr => ?_
      obtain ⟨rfl, rfl⟩ := hs
      have hclosure : Closure.Alike w P [] μ₁ m₁.heap ⟨decl, m₁.current, false⟩
          ⟨decl', m₁.current, false⟩ := ⟨rfl, rfl, marks, hr.marked hc, hf⟩
      refine (agrees_newFunction hr.alike hclosure).then fun v μ₂ m₂ m₂' hr₂ => ?_
      exact (agrees_define hr₂.alike ((hr.trans hr₂).marked hc) hn.named v).bind
        fun _ _ _ _ _ _ hr₃ => agrees_pure hr₃.alike _
    | ret _ hv =>
      cases hv with
      | none => exact agrees_pure hm _
      | some he =>
        exact (agrees_evaluate n he hm hc).then fun v _ _ _ hr => agrees_pure hr.alike _
    | base hn hms =>
      exact (agrees_declareClass none hm hc hn hms).then fun _ _ _ _ hr => agrees_pure hr.alike _
    | derived hn ho hms =>
      refine (agrees_evaluate n (.name ho) hm hc).then fun v _ _ _ h₁ => ?_
      cases v with
      | cls parent =>
        exact (agrees_declareClass (some parent) h₁.alike (h₁.marked hc) hn hms).then
          fun _ _ _ _ h₂ => agrees_pure h₂.alike _
      | _ =>
        obtain ⟨_, _, hn⟩ := ho
        exact agrees_fail h₁.alike hn.near

theorem agrees_executeAll : (n : Nat) → {marks : List Bool} → {ss ss' : List Stmt} →
    Stmt.AlikeAll w P marks ss ss' → {μ : Array Bool} → {m m' : Machine} → m.Alike w P μ m' →
    Marked μ (m.heap.chain m.current) marks →
    Agrees w P μ m m' same (executeAll n ss m) (executeAll n ss' m')
  | 0, _, _, _, _, _, _, _, hm, _ => agrees_exhausted hm
  | n + 1, _, _, _, hss, _, _, _, hm, hc => by
    cases hss with
    | nil => exact agrees_pure hm _
    | cons hs hss =>
      refine (agrees_execute n hs hm hc).then fun completion _ _ _ h₁ => ?_
      cases completion with
      | normal => exact agrees_executeAll n hss h₁.alike (h₁.marked hc)
      | returned v => exact agrees_pure h₁.alike _

theorem agrees_iterate : (n : Nat) → {marks : List Bool} → {c c' : Expr} → {body body' : Stmt} →
    c.Alike w P marks c' → body.Alike w P marks body' → {μ : Array Bool} → {m m' : Machine} →
    m.Alike w P μ m' → Marked μ (m.heap.chain m.current) marks →
    Agrees w P μ m m' same (iterate n c body m) (iterate n c' body' m')
  | 0, _, _, _, _, _, _, _, _, _, _, hm, _ => agrees_exhausted hm
  | n + 1, _, _, _, _, _, hcond, hb, _, _, _, hm, hc => by
    refine (agrees_evaluate n hcond hm hc).then fun v _ _ _ h₁ => .ite ?_ (agrees_pure h₁.alike _)
    refine (agrees_execute n hb h₁.alike (h₁.marked hc)).then fun completion _ _ _ h₂ => ?_
    cases completion with
    | normal => exact agrees_iterate n hcond hb h₂.alike (h₂.marked (h₁.marked hc))
    | returned v => exact agrees_pure h₂.alike _

end

theorem agrees_interpret (fuel : Nat) {ss ss' : List Stmt} (hss : Stmt.AlikeAll w P [] ss ss')
    {μ : Array Bool} {m m' : Machine} (hm : m.Alike w P μ m')
    (hc : Marked μ (m.heap.chain m.current) []) :
    Agrees w P μ m m' same (interpret fuel ss m) (interpret fuel ss' m') := by
  induction ss generalizing ss' μ m m' with
  | nil =>
    cases hss
    exact agrees_pure hm ()
  | cons s ss ih =>
    cases hss with
    | cons hs hss =>
      exact (agrees_execute fuel hs hm hc).then fun _ μ₁ m₁ m₁' hr =>
        ih hss hr.alike (hr.marked hc)

end Treewalk
