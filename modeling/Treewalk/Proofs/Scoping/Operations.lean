import Treewalk.Proofs.Running.Steps
import Treewalk.Proofs.Scoping.Invariant

namespace Treewalk

open Scopes Run

variable {made : ScopeId → Opener → Prop} {seen : Visit → Prop} {m m' : Machine}
  {P Q : ScopeId → Prop} {scopes : List StaticScope} {os : List Opener}

theorem Bindings.mem_of_get?_foldl {es : List (String × α)} {b : Bindings α}
    (h : (es.foldl (fun b (name, a) => b.insert name a) b).get? name = some a) :
    (name, a) ∈ es ∨ b.get? name = some a := by
  induction es generalizing b with
  | nil => exact .inr h
  | cons e es ih =>
    obtain h | h := ih h
    · exact .inl (List.mem_cons_of_mem e h)
    · rw [Bindings.get?_insert] at h
      split at h
      · next hn =>
        cases h
        exact .inl (hn ▸ List.mem_cons_self)
      · exact .inr h

theorem Bindings.mem_of_get?_ofList {es : List (String × α)} (h : (ofList es).get? name = some a) :
    (name, a) ∈ es :=
  (mem_of_get?_foldl h).resolve_right nofun

theorem Bindings.isSome_get?_foldl (es : List (String × α)) (b : Bindings α) :
    ((es.foldl (fun b (name, a) => b.insert name a) b).get? name).isSome ↔
      name ∈ es.map Prod.fst ∨ (b.get? name).isSome := by
  induction es generalizing b with
  | nil => simp
  | cons e es ih =>
    rw [List.foldl_cons, ih, Bindings.get?_insert, List.map_cons, List.mem_cons]
    by_cases hn : e.1 = name
    · simp [hn]
    · simp [hn, Ne.symm hn]

theorem Bindings.isSome_get?_ofList (es : List (String × α)) :
    ((ofList es).get? name).isSome ↔ name ∈ es.map Prod.fst := by
  exact (isSome_get?_foldl es .empty).trans (or_iff_left nofun)

theorem Token.IsName.ne_super {t : Token} (h : t.IsName) : t.lexeme ≠ "super" := h.ne_spelling .superKw

theorem Token.IsName.ne_this {t : Token} (h : t.IsName) : t.lexeme ≠ "this" := h.ne_spelling .thisKw

namespace Run

def ofExcept (r : Except Halt α) : Run α := fun m =>
  match r with
  | .ok a => .ok a m
  | .error e => .error e m

def Steady (x : Run α) : Prop := ∃ r, x = ofExcept r

theorem steady_pure (a : α) : Steady (pure a : Run α) := ⟨.ok a, rfl⟩

theorem steady_fail (fault : RuntimeFault) (token : Token) : Steady (fail fault token : Run α) :=
  ⟨.error (.fault (.runtime fault token)), rfl⟩

theorem steady_unary (op : Token) (v : Value) : Steady (unary op v) := by
  unfold unary
  split
  · exact steady_pure _
  · exact steady_fail _ _
  · exact steady_pure _
  · exact steady_fail _ _

theorem steady_arithmetic (op : Token) (f : Float → Float → Value) (a b : Value) :
    Steady (arithmetic op f a b) := by
  unfold arithmetic
  split
  · exact steady_pure _
  · exact steady_fail _ _

theorem steady_add (op : Token) (a b : Value) : Steady (add op a b) := by
  unfold add
  split
  · exact steady_pure _
  · exact steady_pure _
  · exact steady_fail _ _

theorem steady_binary (op : Token) (a b : Value) : Steady (binary op a b) := by
  unfold binary
  split
  · exact steady_add op a b
  · exact steady_pure _
  · exact steady_pure _
  · exact steady_arithmetic op _ a b
  · exact steady_arithmetic op _ a b
  · exact steady_arithmetic op _ a b
  · exact steady_arithmetic op _ a b
  · exact steady_arithmetic op _ a b
  · exact steady_arithmetic op _ a b
  · exact steady_arithmetic op _ a b
  · exact steady_fail _ _

end Run

theorem Run.Steady.kept {x : Run α} (hx : x.Steady) (hs : Sound made seen m) :
    Kept made seen P m (fun _ _ => True) (x m) := by
  obtain ⟨r, rfl⟩ := hx
  cases r with
  | ok a => exact Kept.pure hs trivial
  | error e => exact Evolves.refl anywhere hs

theorem Evolves.of_scopes (hs : Sound made seen m) (he : m.heap.Extends P m'.heap)
    (hc : m'.current = m.current) (hg : m'.globals = m.globals) (hd : m'.distances = m.distances)
    (hf : m'.heap.functions = m.heap.functions) (hk : m'.heap.classes = m.heap.classes)
    (hsuper : ∀ s v, s ≠ m.globals → m'.heap.binding? s "super" = some v →
      m.heap.binding? s "super" = some v ∨ ∃ c, v = .cls c) : Evolves made seen P m m' :=
  ⟨he, hc, hg, hd, hs.step he hg hd (fun _ h => .inl (hf ▸ h)) (fun _ h => .inl (hk ▸ h)) hsuper⟩

theorem Evolves.of_heap (hs : Sound made seen m) (hsc : m'.heap.scopes = m.heap.scopes)
    (hc : m'.current = m.current) (hg : m'.globals = m.globals) (hd : m'.distances = m.distances)
    (hf : m'.heap.functions = m.heap.functions) (hk : m'.heap.classes = m.heap.classes) :
    Evolves made seen P m m' :=
  .of_scopes hs (.of_scopes hsc) hc hg hd hf hk fun s v _ hb => .inl (by
    simpa only [Heap.binding?, hsc] using hb)

theorem kept_write (hs : Sound made seen m) (text : String) :
    Kept made seen P m (fun _ _ => True) (write text m) := by
  unfold write
  cases m.sink.offer text with
  | mk refused sink =>
    have he (P : ScopeId → Prop) : Evolves made seen P m { m with sink } :=
      .of_heap hs rfl rfl rfl rfl rfl rfl
    cases refused with
    | none => exact ⟨he P, trivial⟩
    | some reason => exact he anywhere

theorem kept_writeAll (texts : List String) {m : Machine} (hs : Sound made seen m) :
    Kept made seen P m (fun _ _ => True) (writeAll texts m) := by
  induction texts generalizing m with
  | nil => exact Kept.pure hs trivial
  | cons text texts ih => exact Kept.bind (kept_write hs text) fun _ _ _ he _ => ih he.sound

theorem kept_print (hs : Sound made seen m) (v : Value) :
    Kept made seen P m (fun _ _ => True) (Run.print v m) :=
  Kept.bind (Kept.heap hs) fun _ _ _ he _ => kept_writeAll _ he.sound

theorem supers_define {name : Token} (hn : name.IsName) (t : ScopeId) (v : Value) :
    ∀ s w, s ≠ m.globals → (m.heap.define t name.lexeme v).binding? s "super" = some w →
      m.heap.binding? s "super" = some w ∨ ∃ c, w = .cls c := by
  intro s w _ hb
  rw [Heap.binding?_define_ne_name hn.ne_super] at hb
  exact .inl hb

theorem kept_define {name : Token} (hs : Sound made seen m) (hn : name.IsName)
    (hc : m.current.index < m.heap.scopes.size) (v : Value) :
    Kept made seen (· = m.current) m
      (fun _ m' => ∀ other, (m'.heap.binding? m.current other).isSome ↔
        (m.heap.binding? m.current other).isSome ∨ name.lexeme = other)
      (Run.define name.lexeme v m) := by
  refine ⟨.of_scopes hs (Heap.extends_define hc) rfl rfl rfl rfl rfl
    (supers_define hn m.current v), fun other => ?_⟩
  refine (Heap.isSome_binding?_define hc).trans ?_
  rw [eq_self, true_and]

theorem isSome_of_ownerAt? {h : Heap} {s t : ScopeId} {d : Nat} {name : String}
    (ho : h.ownerAt? s d name = some t) : (h.binding? t name).isSome := by
  rw [Heap.ownerAt?, Option.filter_eq_some_iff] at ho
  exact ho.2

theorem isSome_of_owner? {h : Heap} {s t : ScopeId} {name : String}
    (ho : h.owner? s name = some t) : (h.binding? t name).isSome := by
  simpa using List.find?_some ho

theorem Machine.isSome_of_owner? {m : Machine} {ref : Ref} {t : ScopeId} (ho : m.owner? ref = some t) :
    (m.heap.binding? t ref.token.lexeme).isSome := by
  unfold Machine.owner? at ho
  split at ho
  · exact isSome_of_ownerAt? ho
  · exact Treewalk.isSome_of_owner? ho

theorem kept_read (hs : Sound made seen m) (ref : Ref) :
    Kept made seen P m (fun _ _ => True) (Run.read ref m) := by
  unfold Run.read
  split
  · exact Kept.pure hs trivial
  · exact Evolves.refl anywhere hs

theorem kept_checkArity (hs : Sound made seen m) (paren : Token) (expected got : Nat) :
    Kept made seen P m (fun _ m' => m' = m ∧ expected = got) (checkArity paren expected got m) := by
  unfold checkArity
  by_cases h : expected = got
  · rw [if_pos h]
    exact Kept.pure hs ⟨rfl, h⟩
  · rw [if_neg h]
    exact Kept.fail hs

theorem kept_yielded (hs : Sound made seen m) (f : Closure) (c : Completion) :
    Kept made seen P m (fun _ _ => True) (yielded f c m) := by
  unfold yielded
  cases f.isInitializer with
  | true => exact Kept.bind (Kept.heap hs) fun _ _ _ he _ => Kept.pure he.sound trivial
  | false => cases c <;> exact Kept.pure hs trivial

theorem kept_assign {ref : Ref} (hs : Sound made seen m) (hn : ref.token.IsName) (v : Value) :
    Kept made seen P m (fun _ _ => True) (Run.assign ref v m) := by
  unfold Run.assign
  split
  · next t ho =>
    exact ⟨.of_scopes hs (Heap.extends_change (Machine.isSome_of_owner? ho)) rfl rfl rfl rfl rfl
      (supers_define hn t v), trivial⟩
  · exact Evolves.refl anywhere hs

theorem kept_newFunction {f : Closure} (hs : Sound made seen m)
    (hf : FunctionSound made seen m f) :
    Kept made seen P m (fun _ m' => m'.heap.scopes = m.heap.scopes) (newFunction f m) := by
  have he : m.heap.Extends P (m.heap.addFunction f).2 := .of_scopes rfl
  refine ⟨⟨he, rfl, rfl, rfl, hs.step he rfl rfl (fun g hg => ?_) (fun c hc => .inl hc)
    fun s v _ hb => .inl hb⟩, rfl⟩
  obtain hg | rfl := Array.mem_push.mp hg
  · exact .inl hg
  · exact .inr (hf.mono he rfl rfl)

theorem kept_newObject (hs : Sound made seen m) (cls : ClassId) :
    Kept made seen P m (fun _ m' => m'.heap.scopes = m.heap.scopes ∧
      m'.heap.classes = m.heap.classes) (newObject cls m) :=
  ⟨.of_heap hs rfl rfl rfl rfl rfl rfl, rfl, rfl⟩

theorem kept_setField (hs : Sound made seen m) (o : ObjectId) (name : String) (v : Value) :
    Kept made seen P m (fun _ _ => True) (setField o name v m) :=
  ⟨.of_heap hs rfl rfl rfl rfl rfl rfl, trivial⟩

theorem nextScope_ne_globals (hs : Sound made seen m) : m.heap.nextScope ≠ m.globals := by
  have hlt : m.globals.index < m.heap.scopes.size :=
    Heap.chain_ne_nil_iff.mp (hs.globals ▸ List.cons_ne_nil _ _)
  intro h
  rw [← h] at hlt
  exact Nat.lt_irrefl _ hlt

theorem Lies.addChild (hs : Sound made seen m) {parent : ScopeId} {b : Bindings Value}
    {scope : StaticScope} (hl : Lies made m.heap m.globals (m.heap.chain parent) scopes os)
    (hb : ∀ name, scope.get? name = some true → (b.get? name).isSome)
    (hm : made m.heap.nextScope o) :
    Lies made (m.heap.addChild parent b).2 m.globals
      ((m.heap.addChild parent b).2.chain m.heap.nextScope) (scope :: scopes) (o :: os) := by
  have hc : (m.heap.addChild parent b).2.chain m.heap.nextScope =
      m.heap.nextScope :: m.heap.chain parent := Heap.chain_addChild m.heap parent b
  rw [hc]
  refine .inside (nextScope_ne_globals hs) (fun name hn => ?_) hm
    (hl.mono (Heap.extends_addChild nowhere m.heap parent b))
  have hi : m.heap.nextScope.index = m.heap.scopes.size := rfl
  rw [Heap.binding?_addChild, if_pos hi]
  exact hb name hn

theorem supers_addChild {parent : ScopeId} {b : Bindings Value}
    (hb : ∀ v, b.get? "super" = some v → ∃ c, v = .cls c) :
    ∀ s w, s ≠ m.globals → (m.heap.addChild parent b).2.binding? s "super" = some w →
      m.heap.binding? s "super" = some w ∨ ∃ c, w = .cls c := by
  intro s w _ h
  rw [Heap.binding?_addChild] at h
  split at h
  · exact .inr (hb w h)
  · exact .inl h

theorem kept_newScope (hs : Sound made seen m) (parent : ScopeId) {b : Bindings Value}
    (hb : ∀ v, b.get? "super" = some v → ∃ c, v = .cls c) :
    Kept made seen P m (fun s m' => s = m.heap.nextScope ∧ m'.heap = (m.heap.addChild parent b).2)
      (newScope parent b m) :=
  ⟨.of_scopes hs (Heap.extends_addChild P m.heap parent b) rfl rfl rfl rfl rfl
    (supers_addChild hb), rfl, rfl⟩

theorem binding?_inside (m : Machine) (parent : ScopeId) (b : Bindings Value) (name : String) :
    (m.inside parent b).heap.binding? (m.inside parent b).current name = b.get? name := by
  simp [Machine.inside, Heap.addChild, Heap.addScope, Heap.binding?]

theorem Stands.inside (hs : Sound made seen m) {parent : ScopeId} {b : Bindings Value}
    {scope : StaticScope} (hl : Lies made m.heap m.globals (m.heap.chain parent) scopes os)
    (hr : Ready scopes) (hb : ∀ name, (b.get? name).isSome ↔ scope.get? name = some true)
    (hm : made m.heap.nextScope o) : Stands made (m.inside parent b) (scope :: scopes) (o :: os) := by
  refine ⟨hl.addChild hs (fun name => (hb name).mpr) hm, ?_, hr⟩
  rintro _ ⟨⟩ name hname
  rwa [binding?_inside, hb] at hname

theorem get?_receiver (receiver : Value) (name : String) :
    ((Bindings.empty : Bindings Value).insert "this" receiver).get? name =
      if "this" = name then some receiver else none := by
  simp

theorem kept_bindMethod {f : Closure} (hs : Sound made seen m) (hf : MethodSound made seen m f)
    (hm : ∀ methods, f.decl ∈ methods → made m.heap.nextScope (.receiver methods))
    (receiver : Value) :
    Kept made seen P m (fun g m' => FunctionSound made seen m' g ∧ g.decl = f.decl)
      (bindMethod f receiver m) := by
  obtain ⟨ctx, scopes, os, methods, hmem, hl, hr, hn, hf⟩ := hf
  have hthis : ∀ name, thisScope.get? name = some true →
      (((Bindings.empty : Bindings Value).insert "this" receiver).get? name).isSome := by
    intro name h
    rw [get?_thisScope] at h
    rw [get?_receiver]
    split at h
    · next hn => simp [hn]
    · cases h
  refine ⟨.of_scopes hs (Heap.extends_addChild P m.heap f.scope _) rfl rfl rfl rfl rfl
    (supers_addChild fun v hv => ?_),
    ⟨ctx, thisScope :: scopes, .receiver methods :: os, hl.addChild hs hthis (hm methods hmem),
      hr.push fun name => ?_, hn, hf⟩, rfl⟩
  · rw [get?_receiver] at hv
    cases hv
  · rw [get?_thisScope]
    split <;> simp

theorem Sound.at {s : ScopeId} (hs : Sound made seen m) :
    Sound made seen { m with current := s } :=
  ⟨hs.globals, hs.functions, hs.methods, hs.supers⟩

theorem Sound.inside (hs : Sound made seen m) (parent : ScopeId) {b : Bindings Value}
    (hb : ∀ v, b.get? "super" = some v → ∃ c, v = .cls c) :
    Sound made seen (m.inside parent b) :=
  (kept_newScope (P := nowhere) hs parent hb).1.sound.at

theorem kept_construct {f : Closure} (hs : Sound made seen m) (hf : MethodSound made seen m f)
    (hm : ∀ methods, f.decl ∈ methods → made m.heap.nextScope (.receiver methods))
    (cls : ClassId) :
    Kept made seen P m (fun g m' => FunctionSound made seen m' g ∧ g.decl = f.decl)
      ((do bindMethod f (.object (← newObject cls)) : Run Closure) m) := by
  refine Kept.bind (kept_newObject hs cls) fun o m₁ heq he _ => ?_
  refine kept_bindMethod he.sound (hf.mono he.heap he.globals he.distances) ?_ _
  cases heq
  exact hm

theorem mem_of_method? {h : Heap} {c : ClassId} {name : String} {f : Closure}
    (hf : h.method? c name = some f) : ∃ cls ∈ h.classes, cls.methods.get? name = some f := by
  rw [Heap.method?] at hf
  obtain ⟨c', -, hf⟩ := List.exists_of_findSome?_eq_some hf
  unfold Heap.ownMethod? at hf
  split at hf
  · next cls hc => exact ⟨cls, Array.mem_of_getElem? hc, hf⟩
  · cases hf

theorem Sound.method {c : ClassId} {name : String} {f : Closure} (hs : Sound made seen m)
    (hf : m.heap.method? c name = some f) : MethodSound made seen m f := by
  obtain ⟨cls, hc, hget⟩ := mem_of_method? hf
  exact hs.methods cls hc name f hget

theorem kept_found (hs : Sound made seen m) {f : Closure} (hf : MethodSound made seen m f)
    (hm : ∀ methods, f.decl ∈ methods → made m.heap.nextScope (.receiver methods))
    (receiver : Value) :
    Kept made seen P m (fun _ _ => True) ((do newFunction (← bindMethod f receiver)) m) := by
  refine Kept.bind (kept_bindMethod hs hf hm receiver) fun g m₁ _ he hg => ?_
  exact (kept_newFunction he.sound hg.1).mono (fun _ h => h) fun _ _ _ => trivial

theorem kept_property (hs : Sound made seen m) {o : ObjectId} {name : Token}
    (hm : ∀ (obj : Object) f methods, m.heap.objects[o.index]? = some obj →
      obj.fields.get? name.lexeme = none → m.heap.method? obj.cls name.lexeme = some f →
      f.decl ∈ methods → made m.heap.nextScope (.receiver methods)) :
    Kept made seen P m (fun _ _ => True) (property o name m) := by
  simp only [property, Bind.bind, EStateM.bind, heap]
  cases ho : m.heap.objects[o.index]? with
  | none => exact Kept.fail hs
  | some obj =>
    cases hfield : obj.fields.get? name.lexeme with
    | some v => simpa only [hfield] using Kept.pure hs trivial
    | none =>
      cases hf : m.heap.method? obj.cls name.lexeme with
      | none => simpa only [hfield, hf] using Kept.fail hs
      | some f =>
        simp only [hfield, hf]
        exact kept_found hs (hs.method hf)
          (fun methods hmem => hm obj f methods ho hfield hf hmem) _

theorem inherited_eq {ref : Ref} {name : Token} {d : Nat} {parent : ClassId} {receiver : Value}
    (hd : m.distances[ref.id]? = some (d + 1))
    (hsuper : m.heap.lookupAt? m.current (d + 1) "super" = some (.cls parent))
    (hthis : m.heap.lookupAt? m.current d "this" = some receiver) :
    inherited ref name m = (m.heap.method? parent name.lexeme).elim
      (fail (.undefinedProperty name.lexeme) name m)
      fun found => (do newFunction (← bindMethod found receiver) : Run Value) m := by
  have hget : (get : Run Machine) m = .ok m m := rfl
  simp only [inherited, Bind.bind, EStateM.bind, hget, hd, hsuper, hthis]
  cases m.heap.method? parent name.lexeme <;> rfl

theorem kept_inherited (hs : Sound made seen m) {ref : Ref} {name : Token} {d : Nat}
    {parent : ClassId} {receiver : Value} (hd : m.distances[ref.id]? = some (d + 1))
    (hsuper : m.heap.lookupAt? m.current (d + 1) "super" = some (.cls parent))
    (hthis : m.heap.lookupAt? m.current d "this" = some receiver)
    (hm : ∀ f methods, m.heap.method? parent name.lexeme = some f → f.decl ∈ methods →
      made m.heap.nextScope (.receiver methods)) :
    Kept made seen P m (fun _ _ => True) (inherited ref name m) := by
  rw [inherited_eq hd hsuper hthis]
  cases hf : m.heap.method? parent name.lexeme with
  | none => exact Kept.fail hs
  | some f => exact kept_found hs (hs.method hf) (fun methods hmem => hm f methods hf hmem) _

theorem Lies.define {h : Heap} (hl : Lies made h g ids scopes os)
    (hb : ∀ s ∈ ids.head?, (h.binding? s name).isSome) :
    Lies made h g ids (define name scopes) os := by
  cases hl with
  | globals => exact .globals
  | inside hne hbound hm hl =>
    refine .inside hne (fun other hget => ?_) hm hl
    rw [Bindings.get?_insert] at hget
    split at hget
    · next hn => exact hn ▸ hb _ rfl
    · exact hbound other hget

theorem Stands.lies_define (hs : Stands made m scopes os) {h' : Heap}
    (he : m.heap.Extends P h') (hb : (h'.binding? m.current name).isSome) :
    Lies made h' m.globals (h'.chain m.current) (define name scopes) os := by
  refine (hs.lies.chain_mono he).define fun s hs => ?_
  unfold Heap.chain at hs
  split at hs
  · cases hs
    exact hb
  · cases hs

theorem Stands.define (hs : Stands made m scopes os) (he : Evolves made seen P m m')
    (hb : ∀ other, (m'.heap.binding? m.current other).isSome ↔
      (m.heap.binding? m.current other).isSome ∨ name = other) :
    Stands made m' (define name scopes) os := by
  refine ⟨?_, ?_, ?_⟩
  · rw [he.current, he.globals]
    exact hs.lies_define he.heap ((hb name).mpr (.inr rfl))
  · cases scopes with
    | nil => nofun
    | cons scope outer =>
      rintro _ ⟨⟩ other ho
      rw [he.current, hb] at ho
      rw [Bindings.get?_insert]
      split
      · rfl
      · next hn => exact hs.exact scope rfl other (ho.resolve_right hn)
  · cases scopes with
    | nil => exact hs.outer
    | cons scope outer => exact hs.outer

theorem Stands.declare (hs : Stands made m scopes os) (hf : Fresh scopes name) :
    Stands made m (declare name scopes) os := by
  have hlies := hs.lies
  cases scopes with
  | nil => exact hs
  | cons scope outer =>
    have hget : scope.get? name = none := hf scope rfl
    have hd : Scopes.declare name (scope :: outer) = scope.insert name false :: outer := by
      simp [Scopes.declare, Bindings.contains, hget]
    rw [hd]
    refine ⟨?_, ?_, hs.outer⟩
    · generalize m.heap.chain m.current = ids at hlies
      cases hlies with
      | inside hne hb hm hl =>
        refine .inside hne (fun other ho => ?_) hm hl
        rw [Bindings.get?_insert] at ho
        split at ho
        · cases ho
        · exact hb other ho
    · rintro _ ⟨⟩ other ho
      have htrue := hs.exact scope rfl other ho
      rw [Bindings.get?_insert, if_neg, htrue]
      rintro rfl
      rw [hget] at htrue
      cases htrue

theorem kept_function {decl : FunctionDecl Stmt} (hs : Sound made seen m)
    (hst : Stands made m scopes os) (hr : Ready scopes) (hname : decl.name.IsName)
    (hn : Nested ctx.cls (define decl.name.lexeme scopes))
    (hb : Stmt.BoundFunction m.distances ctx (define decl.name.lexeme scopes) decl)
    (hp : Stmt.ProperFunction decl)
    (hv : Seen seen (.function decl) (define decl.name.lexeme scopes) os) :
    Kept made seen (· = m.current) m
      (fun _ m' => ∀ other, (m'.heap.binding? m.current other).isSome ↔
        (m.heap.binding? m.current other).isSome ∨ decl.name.lexeme = other)
      (execute (n + 1) (.function decl) m) := by
  have hc : m.current.index < m.heap.scopes.size := Heap.chain_ne_nil_iff.mp hst.lies.ne_nil
  let f : Closure := ⟨decl, m.current, false⟩
  let h₁ := (m.heap.addFunction f).2
  let m' : Machine :=
    { m with heap := h₁.define m.current decl.name.lexeme (.function (m.heap.addFunction f).1) }
  have hb' : ∀ other, (m'.heap.binding? m.current other).isSome ↔
      (m.heap.binding? m.current other).isSome ∨ decl.name.lexeme = other := by
    intro other
    refine (Heap.isSome_binding?_define (h := h₁) hc).trans ?_
    rw [eq_self, true_and]
    exact Iff.rfl
  have he₁ : m.heap.Extends (· = m.current) h₁ := .of_scopes rfl
  have he : m.heap.Extends (· = m.current) m'.heap := he₁.trans (Heap.extends_define hc)
  have hf : FunctionSound made seen m' f :=
    ⟨ctx, _, os, hst.lies_define he ((hb' _).mpr (.inr rfl)), hr.define _, hn, hb, hp, hv⟩
  refine ⟨⟨he, rfl, rfl, rfl, hs.step he rfl rfl (fun g hg => ?_) (fun c hc => .inl hc)
    (supers_define (m := { m with heap := h₁ }) hname m.current _)⟩, hb'⟩
  obtain hg | rfl := Array.mem_push.mp hg
  · exact .inl hg
  · exact .inr hf

theorem kept_newClass {c : Class} (hs : Sound made seen m)
    (hc : ∀ name f, c.methods.get? name = some f → MethodSound made seen m f) :
    Kept made seen P m (fun _ m' => m'.heap.scopes = m.heap.scopes) (newClass c m) := by
  have he : m.heap.Extends P (m.heap.addClass c).2 := .of_scopes rfl
  refine ⟨⟨he, rfl, rfl, rfl, hs.step he rfl rfl (fun f hf => .inl hf) (fun d hd => ?_)
    fun s v _ hb => .inl hb⟩, rfl⟩
  obtain hd | rfl := Array.mem_push.mp hd
  · exact .inl hd
  · exact .inr fun name f hget => (hc name f hget).mono he rfl rfl

theorem kept_reassign {name : Token} (hs : Sound made seen m) (hn : name.IsName) (v : Value) :
    Kept made seen P m (fun _ _ => True) (reassign name v m) := by
  unfold reassign
  split
  · next t ho =>
    exact ⟨.of_scopes hs (Heap.extends_change (isSome_of_owner? ho)) rfl rfl rfl rfl rfl
      (supers_define hn t v), trivial⟩
  · exact Evolves.refl anywhere hs

theorem Evolves.bound_iff (he : Evolves made seen nowhere m m') (hs : s.index < m.heap.scopes.size)
    (name : String) : (m'.heap.binding? s name).isSome ↔ (m.heap.binding? s name).isSome :=
  ⟨he.heap.unbound s name hs id, he.heap.bound s name⟩

section Methods

variable {D : Distances} {cls : ClassContext} {methods : List (FunctionDecl Stmt)}
  {decl : FunctionDecl Stmt}

theorem Stmt.BoundMethods.mem (h : Stmt.BoundMethods D cls scopes methods) (hd : decl ∈ methods) :
    ∃ ctx : Context, ctx.cls = cls ∧ Stmt.BoundFunction D ctx scopes decl := by
  induction methods with
  | nil => cases hd
  | cons m ms ih =>
    obtain rfl | hd := List.mem_cons.mp hd
    · exact ⟨_, rfl, h.1⟩
    · exact ih h.2 hd

theorem Stmt.ProperMethods.mem (h : Stmt.ProperMethods methods) (hd : decl ∈ methods) :
    Stmt.ProperFunction decl := by
  induction methods with
  | nil => cases hd
  | cons m ms ih =>
    obtain rfl | hd := List.mem_cons.mp hd
    · exact h.1
    · exact ih h.2 hd

theorem Seen.method (hseen : ∀ v w, Resolves v w → seen v → seen w)
    (h : Seen seen (.methods methods) scopes os) (hd : decl ∈ methods) :
    Seen seen (.function decl) scopes os := by
  induction methods with
  | nil => cases hd
  | cons m ms ih =>
    obtain ⟨⟨ctx, _, r, _⟩, hv, rfl, rfl, rfl⟩ := h
    obtain rfl | hd := List.mem_cons.mp hd
    · exact ⟨_, hseen _ _ .method hv, rfl, rfl, rfl⟩
    · exact ih ⟨_, hseen _ _ .otherMethods hv, rfl, rfl, Stmt.scopes_resolveFunction _ m r⟩ hd

structure MethodsSound (made : ScopeId → Opener → Prop) (seen : Visit → Prop) (D : Distances)
    (scopes : List StaticScope) (os : List Opener) (methods : List (FunctionDecl Stmt)) : Prop where
  bound : ∃ cls, Nested cls (thisScope :: scopes) ∧
    Stmt.BoundMethods D cls (thisScope :: scopes) methods
  proper : Stmt.ProperMethods methods
  seen : Seen seen (.methods methods) (thisScope :: scopes) (.receiver methods :: os)

theorem MethodsSound.method (hseen : ∀ v w, Resolves v w → seen v → seen w)
    (h : MethodsSound made seen m.distances scopes os methods) (hr : Ready scopes) {s : ScopeId}
    (hl : Lies made m.heap m.globals (m.heap.chain s) scopes os) (hd : decl ∈ methods)
    (isInitializer : Bool) : MethodSound made seen m ⟨decl, s, isInitializer⟩ := by
  obtain ⟨cls, hn, hb⟩ := h.bound
  obtain ⟨ctx, rfl, hdecl⟩ := hb.mem hd
  exact ⟨ctx, scopes, os, methods, hd, hl, hr, hn, hdecl, h.proper.mem hd, h.seen.method hseen hd⟩

theorem kept_createClass (hseen : ∀ v w, Resolves v w → seen v → seen w) (hs : Sound made seen m)
    {name : Token} (hname : name.IsName) {s : ScopeId} (superclass : Option ClassId)
    (hm : MethodsSound made seen m.distances scopes os methods) (hr : Ready scopes)
    (hl : Lies made m.heap m.globals (m.heap.chain s) scopes os) :
    Kept made seen P m (fun _ _ => True) (createClass name superclass methods s m) := by
  refine Kept.bind (Kept.heap hs) ?_
  rintro _ _ - - ⟨rfl, rfl⟩
  refine Kept.bind (kept_newClass hs fun key f hget => ?_) fun id m₁ _ he _ =>
    kept_reassign he.sound hname _
  obtain ⟨decl, hd, heq⟩ := List.mem_map.mp (Bindings.mem_of_get?_ofList hget)
  cases heq
  exact hm.method hseen hr hl hd _

theorem kept_declareClass (hseen : ∀ v w, Resolves v w → seen v → seen w) (hs : Sound made seen m)
    (hst : Stands made m scopes os) (hr : Ready scopes) {name : Token} (hname : name.IsName)
    (superclass : Option ClassId)
    (hm : match superclass with
      | none => MethodsSound made seen m.distances (define name.lexeme scopes) os methods
      | some _ => MethodsSound made seen m.distances
          (superScope :: define name.lexeme scopes) (.superclass methods :: os) methods ∧
        made m.heap.nextScope (.superclass methods)) :
    Kept made seen (· = m.current) m
      (fun _ m' => ∀ other, (m'.heap.binding? m.current other).isSome ↔
        (m.heap.binding? m.current other).isSome ∨ name.lexeme = other)
      (declareClass name superclass methods m) := by
  have hc : m.current.index < m.heap.scopes.size := Heap.chain_ne_nil_iff.mp hst.lies.ne_nil
  refine Kept.bind (kept_define hs hname hc .nil) fun _ m₁ heq he hdom => ?_
  have hst₁ := hst.define he hdom
  have hc₁ : m.current.index < m₁.heap.scopes.size := Nat.lt_of_lt_of_le hc he.heap.size
  have hnext : m₁.heap.nextScope = m.heap.nextScope := by
    cases heq
    simp [Heap.nextScope, Heap.define]
  rw [← he.distances, ← hnext] at hm
  -- from here on nothing that is there comes to bind more
  suffices hrest : Kept made seen nowhere m₁ (fun _ _ => True) _ from
    hrest.evolves.mono (fun _ h => h.elim) fun _ m' h other =>
      (h.1.bound_iff hc₁ other).trans (hdom other)
  cases superclass with
  | none => exact kept_createClass hseen he.sound hname none hm (hr.define _) hst₁.lies
  | some parent =>
    have hsuper : ∀ v, ((Bindings.empty : Bindings Value).insert "super" (.cls parent)).get?
        "super" = some v → ∃ c, v = .cls c := by
      rintro _ ⟨⟩
      exact ⟨parent, rfl⟩
    refine Kept.bind (Kept.current he.sound) ?_
    rintro _ m₁ - - ⟨rfl, rfl⟩
    refine Kept.bind (kept_newScope he.sound m₁.current hsuper) fun s m₂ _ he₂ hnew => ?_
    have hl : Lies made m₂.heap m₂.globals (m₂.heap.chain s)
        (superScope :: Scopes.define name.lexeme scopes) (.superclass methods :: os) := by
      rw [hnew.1, hnew.2, he₂.globals]
      refine hst₁.lies.addChild he.sound (fun other hget => ?_) hm.2
      rw [get?_superScope] at hget
      split at hget
      · next h => simp [h]
      · cases hget
    refine kept_createClass hseen he₂.sound hname (some parent) (he₂.distances ▸ hm.1)
      ((hr.define _).push fun other => ?_) hl
    rw [get?_superScope]
    split <;> simp

end Methods

theorem kept_inside {x : Run α} {parent : ScopeId} {b : Bindings Value}
    (hx : Kept made seen (· = m.heap.nextScope) (m.inside parent b) (fun _ _ => True)
      (x (m.inside parent b))) :
    Kept made seen P m (fun _ _ => True)
      ((do within (← newScope parent b) x) m) := by
  have heq : (do within (← newScope parent b) x : Run α) m =
      within (m.heap.addChild parent b).1 x { m with heap := (m.heap.addChild parent b).2 } := rfl
  rw [heq, within]
  rw [Machine.inside] at hx
  dsimp only
  generalize x _ = r at hx ⊢
  cases r with
  | ok a m' =>
    obtain ⟨he, -⟩ := hx
    exact ⟨⟨he.heap.of_addChild, rfl, he.globals, he.distances, he.sound.at⟩, trivial⟩
  | error e m' =>
    have he : Evolves made seen anywhere (m.inside parent b) m' := hx
    exact ⟨(Heap.extends_addChild anywhere m.heap parent b).trans he.heap, rfl, he.globals,
      he.distances, he.sound.at⟩

end Treewalk
