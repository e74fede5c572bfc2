import Mathlib
import Treewalk.Proofs.Scoping.Layers
import Treewalk.Proofs.Scoping.Order

namespace Treewalk

open Scopes Run

section Activation

variable (points : Point → Prop)

/-- A method was bound to a receiver at a point. -/
def Obtained (f : Closure) (receiver : Value) : Prop :=
  ∃ q h g, points q ∧ Binds q h g receiver ∧ f = (h.bindMethod g receiver).1

/-- The machine is in a call of a function: the frame of the call is among the open scopes, with no
receiver nearer than the one that the function was made around. -/
def Activation (m : Machine) (f : Closure) : Prop :=
  ∃ n args m₀ k, points ⟨n + 1, .invoke f args, m₀⟩ ∧
    (m.heap.chain m.current)[k]? = some m₀.heap.nextScope ∧
    (m.heap.chain m.current)[k + 1]? = some f.scope ∧
    ∀ i ≤ k, ∀ t, (m.heap.chain m.current)[i]? = some t → m.heap.binding? t "this" = none

end Activation

variable {points : Point → Prop} {seen : Visit → Prop} {g : Heap} {h h' : Heap} {p q : Point}
  {m : Machine} {scopes : List StaticScope} {os : List Opener} {o : Opener} {s t : ScopeId}
  {parent : ScopeId} {b : Bindings Value} {i k : Nat}

theorem Lies.made_at {made : ScopeId → Opener → Prop} (hl : Lies made h g₀ ids scopes os)
    (ho : os[i]? = some o) : ∃ t, ids[i]? = some t ∧ made t o ∧ i + 1 < ids.length := by
  induction hl generalizing i with
  | globals => cases ho
  | @inside s scope o' ids scopes os _ _ hm hl ih =>
    cases i with
    | zero =>
      cases ho
      refine ⟨s, rfl, hm, ?_⟩
      have := List.length_pos_iff.mpr hl.ne_nil
      simp only [List.length_cons]
      omega
    | succ i =>
      obtain ⟨t, ht, hm, hlt⟩ := ih ho
      exact ⟨t, ht, hm, Nat.succ_lt_succ hlt⟩

theorem Opens.adds_plain (hf : Fine points seen q) (h : Opens q s o) (ho : o.Plain)
    (hn : name = "this" ∨ name = "super") :
    ∃ h parent b, Adds q h parent b ∧ s = h.nextScope ∧ b.get? name = none := by
  cases h with
  | block => exact ⟨_, _, _, .block, rfl, rfl⟩
  | frame => exact ⟨_, _, _, .frame, rfl, hf.placed.1.frame _ hn⟩
  | _ => exact ho.elim

theorem Opens.binds (h : Opens q s (.receiver methods)) :
    ∃ h f v, Binds q h f v ∧ s = h.nextScope ∧ f.decl ∈ methods := by
  cases h with
  | method ho hobj hfield hf hd => exact ⟨_, _, _, .property ho hobj hfield hf, rfl, hd⟩
  | inherited hdist hsuper hthis hf hd => exact ⟨_, _, _, .inherited hdist hsuper hthis hf, rfl, hd⟩
  | initializer hf ha hd => exact ⟨_, _, _, .construct hf ha, rfl, hd⟩

namespace Ordered

theorem scope (ho : Ordered points seen g) (hp : points p) (hq : points q) (ha : Adds q h parent b)
    (hs : p.machine.heap.Inner h.nextScope) :
    p.machine.heap.chain h.nextScope = h.nextScope :: h.chain parent ∧
      ∀ name, name = "this" ∨ name = "super" →
        p.machine.heap.binding? h.nextScope name = b.get? name := by
  have hk := ho.opened hp hq ha hs.chain_ne_nil
  have hchain : (h.addChild parent b).2.chain h.nextScope = h.nextScope :: h.chain parent :=
    Heap.chain_addChild h parent b
  have hsame := hk.chain h.nextScope (by rw [hchain]; exact List.cons_ne_nil _ _)
  refine ⟨hsame.trans hchain, fun name hn => ?_⟩
  rw [hk.reserved _ name hn (by rwa [Heap.Inner, ← hsame]), Heap.binding?_nextScope]

theorem plain (ho : Ordered points seen g) (hp : points p)
    (hst : Stands (Made points) p.machine scopes os) (hi : os[i]? = some o) (hpl : o.Plain)
    (ht : (p.machine.heap.chain p.machine.current)[i]? = some t)
    (hn : name = "this" ∨ name = "super") : p.machine.heap.binding? t name = none := by
  obtain ⟨t', ht', ⟨q, hq, hopen⟩, hlt⟩ := hst.lies.made_at hi
  obtain rfl : t' = t := Option.some.inj (ht'.symm.trans ht)
  have hinner := (ho.accounted p hp).inner ht hlt
  obtain ⟨h, parent, b, ha, rfl, hb⟩ := hopen.adds_plain (ho.fine q hq) hpl hn
  rw [(ho.scope hp hq ha hinner).2 name hn, hb]

theorem inner (ho : Ordered points seen g) (hp : points p) (hq : points q) (ha : Adds q h parent b)
    (hparent : h.chain parent ≠ []) (hs : p.machine.heap.chain h.nextScope ≠ []) :
    p.machine.heap.Inner h.nextScope :=
  (ho.opened hp hq ha hs).inner (Heap.inner_nextScope hparent)

theorem home (ho : Ordered points seen g) (hq : points q) (hb : Binds q h f v) :
    h.chain f.scope ≠ [] := by
  have hf := ho.fine q hq
  have found {m : Machine} {c : ClassId} {name : String} (hs : Sound (Made points) seen m)
      (hm : m.heap.method? c name = some f) : m.heap.chain f.scope ≠ [] := by
    obtain ⟨_, _, _, _, -, hl, -⟩ := hs.method hm
    exact hl.ne_nil
  cases hb with
  | @property n o m object m₁ name _ _ hobj _ _ hm =>
    have he := (hf.calls ho.closed ho.seenClosed .get).ends ho.closed ho.seenClosed
    exact found (he.of_ok hobj).1.sound hm
  | inherited _ _ _ hm => exact found hf.sound hm
  | construct hm _ => exact found hf.sound hm

theorem current_ne (ho : Ordered points seen g) (hreg : ∀ v, seen v → v.Regular)
    (hp : points ⟨n, .stmt stmt, m⟩) (hq : points q) (ha : Adds q h parent b)
    (hparent : h.chain parent ≠ []) (hn : name = "this" ∨ name = "super")
    (hb : (b.get? name).isSome) : m.current ≠ h.nextScope := by
  intro heq
  obtain ⟨-, -, ctx, scopes, os, hat, -, -, -, v, hv, hsub, rfl, rfl⟩ := ho.fine _ hp
  obtain ⟨context, subject, state, openers⟩ := v
  cases hsub
  obtain ⟨-, hlayered⟩ := hreg _ hv
  have hlies := hat.stands.lies
  have hinner : m.heap.Inner h.nextScope := ho.inner hp hq ha hparent (heq ▸ hlies.ne_nil)
  have hsome := (ho.scope hp hq ha hinner).2 name hn
  have hhead := Heap.head?_chain (hlies.ne_nil)
  cases openers with
  | nil =>
    have hlen := hlies.length
    rw [hlayered.length, heq] at hlen
    exact absurd hinner (by rw [Heap.Inner, hlen]; exact Nat.lt_irrefl 1)
  | cons o os =>
    have hnone := ho.plain hp hat.stands rfl hlayered.plain_head hhead hn
    rw [← heq] at hsome
    rw [hsome] at hnone
    rw [hnone] at hb
    cases hb

theorem bound (ho : Ordered points seen g) (hreg : ∀ v, seen v → v.Regular)
    (hp : points ⟨n, .invoke f args, m⟩) (hq : points q) (hb : Binds q h f₀ v)
    (hs : f.scope = h.nextScope) :
    f = (h.bindMethod f₀ v).1 := by
  obtain ⟨q', hq', hm⟩ := ho.sourced n f args m hp
  cases hm with
  | declared =>
    exact absurd hs (ho.current_ne hreg hq' hq (.receiver hb) (ho.home hq hb) (.inl rfl) rfl)
  | bound hb' =>
    obtain ⟨rfl, -⟩ := ho.unique hq' hq (.receiver hb') (.receiver hb) hs
    obtain ⟨rfl, rfl, rfl⟩ := hb'.unique hb
    rfl

theorem activation (ho : Ordered points seen g) (hreg : ∀ v, seen v → v.Regular) (hp : points p)
    (hst : Stands (Made points) p.machine scopes os) (hl : Layer cls scopes os k decl methods) :
    ∃ q h f v, points q ∧ Binds q h f v ∧ f.decl ∈ methods ∧
      Activation points p.machine (h.bindMethod f v).1 ∧
      (p.machine.heap.chain p.machine.current).drop (k + 2) = h.chain f.scope ∧
      p.machine.heap.lookupAt? p.machine.current (k + 1) "this" = some v := by
  have hacc := ho.accounted p hp
  obtain ⟨s, hs, ⟨q₀, hq₀, hframe⟩, hlt₀⟩ := hst.lies.made_at hl.frame
  obtain ⟨t, ht, ⟨q, hq, hopen⟩, hlt⟩ := hst.lies.made_at hl.receiver
  obtain ⟨h, f, v, hb, rfl, hmem⟩ := hopen.binds
  obtain ⟨hchain, hsame⟩ := ho.scope hp hq (.receiver hb) (hacc.inner ht hlt)
  have hdrop : (p.machine.heap.chain p.machine.current).drop (k + 2) = h.chain f.scope := by
    rw [← List.tail_drop, hacc.chains _ _ _ ht, hchain, List.tail_cons]
  cases hframe with
  | @frame n f' args m₀ =>
    obtain ⟨hchain₀, -⟩ := ho.scope hp hq₀ .frame (hacc.inner hs hlt₀)
    have hscope : f'.scope = h.nextScope := by
      have hd : (p.machine.heap.chain p.machine.current).drop (k + 1) = m₀.heap.chain f'.scope := by
        rw [← List.tail_drop, hacc.chains _ _ _ hs, hchain₀, List.tail_cons]
      have hhead : (m₀.heap.chain f'.scope)[0]? = some h.nextScope := by
        rw [← hd, List.getElem?_drop]
        exact ht
      rw [Heap.head?_chain (fun hn => by simp [hn] at hhead)] at hhead
      exact Option.some.inj hhead
    obtain rfl := ho.bound hreg hq₀ hq hb hscope
    refine ⟨q, h, f, v, hq, hb, hmem, ⟨n, args, m₀, k, hq₀, hs, ht, fun i hi t ht => ?_⟩, hdrop, ?_⟩
    · obtain ⟨o, hio⟩ : ∃ o, os[i]? = some o := by
        have hlen := (List.getElem?_eq_some_iff.mp hl.frame).1
        exact ⟨_, List.getElem?_eq_getElem (Nat.lt_of_le_of_lt hi hlen)⟩
      exact ho.plain hp hst hio (hl.plain i hi o hio) ht (.inl rfl)
    · rw [Heap.lookupAt?, ht]
      exact hsame "this" (.inl rfl)

theorem receiver_layer (ho : Ordered points seen g)
    (hreg : ∀ v, seen v → v.Regular ∧ v.outcome.faults = [])
    (hp : points ⟨n, .expr (.receiver ref), m⟩) : ∃ cls scopes os k decl methods,
      Stands (Made points) m scopes os ∧ Layer cls scopes os k decl methods ∧
      m.distances[ref.id]? = some (k + 1) ∧ ref.token.lexeme = "this" := by
  obtain ⟨-, -, cls, scopes, os, hat, ⟨hlexeme, hdist⟩, hseen⟩ := ho.fine _ hp
  obtain ⟨⟨kind, cls'⟩, r, -, rfl, hlayered, hfaults⟩ := hseen.layered (by simp) hreg
  have hcls : cls' ≠ .outside := by
    rintro rfl
    simp [Expr.resolve, Resolution.useThis, Resolution.report] at hfaults
  obtain ⟨k, decl, methods, hl⟩ := hlayered.layer hcls
  refine ⟨cls', _, _, k, decl, methods, hat.stands, hl, ?_, hlexeme⟩
  rw [hdist, hlexeme]
  exact hl.this

theorem inherited_layer (ho : Ordered points seen g)
    (hreg : ∀ v, seen v → v.Regular ∧ v.outcome.faults = [])
    (hp : points ⟨n, .expr (.inherited ref name), m⟩) : ∃ v k decl methods,
      seen v ∧ v.subject = .expr (.inherited ref name) ∧
      Stands (Made points) m v.state.scopes v.openers ∧
      Layer .derived v.state.scopes v.openers k decl methods ∧
      m.distances[ref.id]? = some (k + 2) := by
  obtain ⟨-, -, cls, scopes, os, hat, ⟨-, hlexeme, hdist⟩, hseen⟩ := ho.fine _ hp
  obtain ⟨⟨kind, cls'⟩, r, hv, rfl, hlayered, hfaults⟩ := hseen.layered (by simp) hreg
  obtain rfl : cls' = .derived := by
    cases cls' with
    | derived => rfl
    | outside | base =>
      simp [Expr.resolve, Resolution.useSuper, Resolution.faults_bind, Resolution.report] at hfaults
  obtain ⟨k, decl, methods, hl⟩ := hlayered.layer (by simp)
  refine ⟨_, k, decl, methods, hv, rfl, hat.stands, hl, ?_⟩
  rw [hdist, hlexeme]
  exact hl.super rfl

theorem object (ho : Ordered points seen g) (hq : points q) (hb : Binds q h f v) :
    ∃ o, v = .object o := by
  have hf := ho.fine q hq
  have hwithin := (Adds.receiver hb).within ho.closed ho.seenClosed hf
  exact hb.object hf (hwithin.1.accounted (ho.accounted q hq))

end Ordered

theorem Accounted.method (ha : Accounted points h) (hf : h.method? c name = some f) :
    f.decl.name.lexeme = name ∧ (f.isInitializer = true ↔ name = initializerName) := by
  obtain ⟨cls, hc, hget⟩ := mem_of_method? hf
  obtain ⟨i, hi⟩ := Array.getElem?_of_mem hc
  obtain ⟨q, h₀, -, hcreates, -⟩ := ha.classes i cls hi
  have closure {scope : ScopeId} {methods : List (FunctionDecl Stmt)}
      (hget : (closures scope methods).get? name = some f) :
      f.decl.name.lexeme = name ∧ (f.isInitializer = true ↔ name = initializerName) := by
    obtain ⟨decl, -, heq⟩ := List.mem_map.mp (Bindings.mem_of_get?_ofList hget)
    cases heq
    exact ⟨rfl, by simp⟩
  cases hcreates with
  | base => exact closure hget
  | derived => exact closure hget

theorem Binds.method (ha : Accounted points h) (hb : Binds q h f v) :
    f.isInitializer = true ↔ f.decl.name.lexeme = initializerName := by
  have named {c : ClassId} {name : String} (hf : h.method? c name = some f) :
      f.isInitializer = true ↔ f.decl.name.lexeme = initializerName := by
    obtain ⟨hname, hinit⟩ := ha.method hf
    rw [hinit, hname]
  cases hb with
  | property _ _ _ hf => exact named hf
  | inherited _ _ _ hf => exact named hf
  | construct hf => exact named hf

theorem invoke_ok (h : invoke (n + 1) f args m = .ok r m') (hi : f.isInitializer = true) :
    r = (m'.heap.binding? f.scope "this").getD .nil := by
  rw [invoke] at h
  obtain ⟨frame, m₁, -, h⟩ := bind_ok h
  obtain ⟨completion, m₂, -, h⟩ := bind_ok h
  simp only [yielded, hi, if_true] at h
  cases h
  rfl

namespace Ordered

theorem initializer (ho : Ordered points seen g) (hp : points ⟨n, .invoke f args, m⟩)
    (hi : f.isInitializer = true) (h : invoke n f args m = .ok r m') :
    ∃ o, r = .object o ∧ Obtained points f r := by
  cases n with
  | zero => cases h
  | succ n =>
    obtain ⟨q, hq, hm⟩ := ho.sourced _ f args m hp
    cases hm with
    | declared => cases hi
    | @bound _ h₀ f v hb =>
      obtain ⟨o, rfl⟩ := ho.object hq hb
      have hfine := ho.fine _ hp
      obtain ⟨_, _, _, hl, -⟩ := hfine.placed.1
      have hinner := ho.inner hp hq (.receiver hb) (ho.home hq hb) hl.ne_nil
      have hthis := (ho.scope hp hq (.receiver hb) hinner).2 "this" (.inl rfl)
      have hk := (hfine.leads ho.closed ho.seenClosed _ _ rfl).1.keeps
      rw [Point.after, after_of_ok h] at hk
      obtain rfl : r = .object o := by
        rw [invoke_ok h hi]
        show (m'.heap.binding? h₀.nextScope "this").getD .nil = _
        rw [hk.reserved _ _ (.inl rfl) hinner, hthis]
        rfl
      exact ⟨o, rfl, q, h₀, f, hq, hb, rfl⟩

end Ordered

theorem apply_cls_ok {c : ClassId} (h : apply (n + 1) (.cls c) paren args m = .ok r m') :
    r = .object (m.heap.addObject ⟨c, .empty⟩).1 ∧
      (m'.heap = (m.heap.addObject ⟨c, .empty⟩).2 ∨
        ∃ f, m.heap.method? c initializerName = some f ∧ f.arity = args.length) := by
  rw [apply] at h
  obtain ⟨_, _, hheap, h⟩ := bind_ok h
  cases hheap
  obtain ⟨_, m₁, ha, h⟩ := bind_ok h
  obtain ⟨harity, rfl⟩ := checkArity_ok ha
  obtain ⟨o, m₂, ho, h⟩ := bind_ok h
  cases ho
  cases hf : m₁.heap.method? c initializerName with
  | none =>
    rw [hf] at h
    cases h
    exact ⟨rfl, .inl rfl⟩
  | some f =>
    rw [hf] at h harity
    obtain ⟨_, m₃, -, h⟩ := bind_ok h
    obtain ⟨_, m₄, -, h⟩ := bind_ok h
    cases h
    exact ⟨rfl, .inr ⟨f, rfl, harity⟩⟩

namespace Ordered

theorem constructed (ho : Ordered points seen g) (hp : points ⟨n, .apply (.cls c) paren args, m⟩)
    (h : apply n (.cls c) paren args m = .ok r m') :
    r = .object (m.heap.addObject ⟨c, .empty⟩).1 ∧ (m.heap.addObject ⟨c, .empty⟩).2.Keeps m'.heap := by
  cases n with
  | zero => cases h
  | succ n =>
    obtain ⟨hr, heq | ⟨f, hf, ha⟩⟩ := apply_cls_ok h
    · exact ⟨hr, heq ▸ .refl _⟩
    · have hadds : Adds ⟨n + 1, .apply (.cls c) paren args, m⟩ _ _ _ :=
        .receiver (.construct hf ha)
      have hk := (hadds.within ho.closed ho.seenClosed (ho.fine _ hp)).2.keeps
      rw [Point.after, after_of_ok h] at hk
      exact ⟨hr, (Heap.Keeps.addChild _ _ _).trans hk⟩

theorem objects_within (ho : Ordered points seen g)
    (hp : points ⟨n, .apply (.cls c) paren args, m⟩)
    (hw : Within ⟨n, .apply (.cls c) paren args, m⟩ q) :
    ⟨n, .apply (.cls c) paren args, m⟩ = q ∨ m.heap.objects.size < q.machine.heap.objects.size := by
  obtain rfl | ⟨p, hc, hw⟩ := Relation.ReflTransGen.cases_head hw
  · exact .inl rfl
  · have hk := (Within.leads ho.closed ho.seenClosed
      ((ho.fine _ hp).calls ho.closed ho.seenClosed hc) hw).1.keeps.objects_size
    cases hc with
    | initializer _ _ hb =>
      cases hb
      refine .inr (Nat.lt_of_lt_of_le ?_ hk)
      simp

theorem distinct (ho : Ordered points seen g) (hp : points ⟨n, .apply (.cls c) paren args, m⟩)
    (hp' : points ⟨n', .apply (.cls c') paren' args', m₁⟩)
    (h : apply n (.cls c) paren args m = .ok r m')
    (h' : apply n' (.cls c') paren' args' m₁ = .ok r m₁') :
    (⟨n, .apply (.cls c) paren args, m⟩ : Point) = ⟨n', .apply (.cls c') paren' args', m₁⟩ := by
  obtain ⟨hr, hk⟩ := ho.constructed hp h
  obtain ⟨hr', hk'⟩ := ho.constructed hp' h'
  have hsize : m.heap.objects.size = m₁.heap.objects.size := by
    rw [hr] at hr'
    simpa [Heap.addObject] using hr'
  have hlt := hk.objects_size
  have hlt' := hk'.objects_size
  simp only [Heap.addObject, Array.size_push] at hlt hlt'
  cases ho.apart _ _ hp hp' with
  | inside hw =>
    obtain heq | hlt := ho.objects_within hp hw
    · exact heq
    · exact absurd hsize (Nat.ne_of_lt hlt)
  | around hw =>
    obtain heq | hlt := ho.objects_within hp' hw
    · exact heq.symm
    · exact absurd hsize.symm (Nat.ne_of_lt hlt)
  | before hb =>
    rw [Point.after, after_of_ok h] at hb
    have := hb.objects_size
    dsimp only at this
    omega
  | after hb =>
    rw [Point.after, after_of_ok h'] at hb
    have := hb.objects_size
    dsimp only at this
    omega

theorem comparable (ho : Ordered points seen g) (hp : points p) (hq : points q) :
    p.after.heap.Keeps q.machine.heap ∨ q.machine.heap.Keeps p.after.heap := by
  have hkp := ((ho.fine p hp).leads ho.closed ho.seenClosed _ p rfl).1.keeps
  have hkq := ((ho.fine q hq).leads ho.closed ho.seenClosed _ q rfl).1.keeps
  cases ho.apart p q hp hq with
  | inside hw =>
    exact .inr (hkq.trans (Within.leads ho.closed ho.seenClosed (ho.fine p hp) hw).2.keeps)
  | around hw =>
    exact .inr ((Within.leads ho.closed ho.seenClosed (ho.fine q hq) hw).1.keeps.trans hkp)
  | before hk => exact .inl hk
  | after hk => exact .inr ((hkq.trans hk).trans hkp)

end Ordered

theorem bound_ok {h : Heap} (hm : m.heap = h)
    (hr : (do newFunction (← bindMethod f v) : Run Value) m = .ok r m') :
    ∃ id : FunctionId, r = .function id ∧
      m'.heap.functions[id.index]? = some (h.bindMethod f v).1 := by
  subst hm
  cases hr
  exact ⟨_, rfl, Array.getElem?_push_size⟩

theorem Binds.yields (hb : Binds ⟨n, .expr e, m⟩ h f v) (hr : evaluate n e m = .ok r m') :
    ∃ id : FunctionId, r = .function id ∧
      m'.heap.functions[id.index]? = some (h.bindMethod f v).1 := by
  cases hb with
  | property ho hobj hfield hf =>
    rw [evaluate, bind_of_ok ho] at hr
    dsimp only at hr
    rw [property_eq, hobj, Option.elim_some, hfield, Option.elim_none, hf] at hr
    exact bound_ok rfl hr
  | inherited hd hsuper hthis hf =>
    rw [evaluate, inherited_eq hd hsuper hthis, hf] at hr
    exact bound_ok rfl hr

structure ReceiversKept (points : Point → Prop) : Prop where
  /-- What `this` is: the receiver that the method was bound to whose call the machine is in. -/
  this : ∀ n ref m, points ⟨n + 1, .expr (.receiver ref), m⟩ → ∃ f o, Activation points m f ∧
    Obtained points f (.object o) ∧ evaluate (n + 1) (.receiver ref) m = .ok (.object o) m
  /-- A method of a superclass is bound to what `this` is there. -/
  inherited : ∀ n ref name m h g v, points ⟨n, .expr (.inherited ref name), m⟩ →
    Binds ⟨n, .expr (.inherited ref name), m⟩ h g v →
    ∃ f, Activation points m f ∧ Obtained points f v
  /-- Every binding has a scope of its own, and in it one receiver. -/
  single : ∀ f f' v v', Obtained points f v → Obtained points f' v' → f.scope = f'.scope →
    f = f' ∧ v = v'
  /-- An access yields the method as it was bound there, and it is the same wherever it is called. -/
  access : ∀ n e m h g v r m', points ⟨n, .expr e, m⟩ → Binds ⟨n, .expr e, m⟩ h g v →
    evaluate n e m = .ok r m' → ∃ id : FunctionId, r = .function id ∧
      m'.heap.functions[id.index]? = some (h.bindMethod g v).1 ∧
      ∀ q, points q → ∀ f, q.machine.heap.functions[id.index]? = some f → f = (h.bindMethod g v).1
  /-- Methods are initializers by their name. -/
  named : ∀ f v, Obtained points f v → (f.isInitializer = true ↔ f.decl.name.lexeme = initializerName)
  /-- A call of an initializer that ends yields its receiver. -/
  initializer : ∀ n f args m r m', points ⟨n, .invoke f args, m⟩ → f.isInitializer = true →
    invoke n f args m = .ok r m' → ∃ o, r = .object o ∧ Obtained points f r
  /-- A call of a class that ends yields a new object of the class, on which the initializer ran. -/
  fresh : ∀ n c paren args m r m', points ⟨n, .apply (.cls c) paren args, m⟩ →
    apply n (.cls c) paren args m = .ok r m' → ∃ o obj, r = .object o ∧
      m.heap.objects[o.index]? = none ∧ m'.heap.objects[o.index]? = some obj ∧ obj.cls = c ∧
      ∀ h f v, Binds ⟨n, .apply (.cls c) paren args, m⟩ h f v → v = r
  /-- No two calls of classes yield the same object. -/
  distinct : ∀ n c paren args m r m' n' c' paren' args' m₁ m₁',
    points ⟨n, .apply (.cls c) paren args, m⟩ → points ⟨n', .apply (.cls c') paren' args', m₁⟩ →
    apply n (.cls c) paren args m = .ok r m' → apply n' (.cls c') paren' args' m₁ = .ok r m₁' →
    (⟨n, .apply (.cls c) paren args, m⟩ : Point) = ⟨n', .apply (.cls c') paren' args', m₁⟩

theorem receivers_kept {s : Session} (h : History s points seen) : ReceiversKept points := by
  have ho := h.ordered
  have hreg : ∀ v, seen v → v.Regular ∧ v.outcome.faults = [] := fun v hv => h.regular hv
  have hregular : ∀ v, seen v → v.Regular := fun v hv => (hreg v hv).1
  refine ⟨fun n ref m hp => ?_, fun n ref name m h g v hp hb => ?_, fun f f' v v' hf hf' hs => ?_,
    fun n e m h g v r m' hp hb hr => ?_, fun f v hf => ?_, fun n f args m r m' hp hi hr =>
    ho.initializer hp hi hr, fun n c paren args m r m' hp hr => ?_,
    fun n c paren args m r m' n' c' paren' args' m₁ m₁' hp hp' hr hr' => ho.distinct hp hp' hr hr'⟩
  · obtain ⟨cls, scopes, os, k, decl, methods, hst, hl, hd, hname⟩ := ho.receiver_layer hreg hp
    obtain ⟨q, h, f, v, hq, hb, -, hact, -, hthis⟩ := ho.activation hregular hp hst hl
    obtain ⟨o, rfl⟩ := ho.object hq hb
    refine ⟨_, o, hact, ⟨q, h, f, hq, hb, rfl⟩, ?_⟩
    dsimp only at hthis
    simp only [evaluate, Run.read, Machine.find?, hd, hname, hthis]
  · obtain ⟨w, k, decl, methods, -, -, hst, hl, hd⟩ := ho.inherited_layer hreg hp
    obtain ⟨q, h', f, v', hq, hb', -, hact, -, hthis⟩ := ho.activation hregular hp hst hl
    cases hb with
    | inherited hd' _ hthis' _ =>
      cases hd.symm.trans hd'
      cases hthis.symm.trans hthis'
      exact ⟨_, hact, q, h', f, hq, hb', rfl⟩
  · obtain ⟨q, h, g, hq, hb, rfl⟩ := hf
    obtain ⟨q', h', g', hq', hb', rfl⟩ := hf'
    obtain ⟨rfl, -⟩ := ho.unique hq hq' (.receiver hb) (.receiver hb') hs
    obtain ⟨rfl, rfl, rfl⟩ := hb.unique hb'
    exact ⟨rfl, rfl⟩
  · obtain ⟨id, rfl, hid⟩ := hb.yields hr
    refine ⟨id, rfl, hid, fun q hq f hf => ?_⟩
    have hcmp := ho.comparable hp hq
    rw [Point.after, after_of_ok hr] at hcmp
    obtain hk | hk := hcmp
    · exact Option.some.inj (hf.symm.trans (hk.functions _ _ hid))
    · exact Option.some.inj ((hk.functions _ _ hf).symm.trans hid)
  · obtain ⟨q, h, g, hq, hb, rfl⟩ := hf
    have hwithin := (Adds.receiver hb).within ho.closed ho.seenClosed (ho.fine q hq)
    have hnamed := hb.method (hwithin.1.accounted (ho.accounted q hq))
    exact hnamed
  · obtain ⟨rfl, hk⟩ := ho.constructed hp hr
    obtain ⟨obj, hobj, hcls⟩ := hk.objects m.heap.objects.size _ Array.getElem?_push_size
    refine ⟨_, obj, rfl, by simp [Heap.addObject], hobj, hcls, fun h f v hb => ?_⟩
    cases hb with
    | construct => rfl

theorem receivers_kept_method : ∃ (p : Point) (ref : Ref) (o : ObjectId),
    Executes (.new .unlimited 0) 20 "class A \x7b m() \x7b this; \x7d \x7d A().m();" p ∧
      p.code = .expr (.receiver ref) ∧
      evaluate p.fuel (.receiver ref) p.machine = .ok (.object o) p.machine := by
  let name : Token := ⟨.identifier, "A", 1⟩
  let decl : FunctionDecl Stmt :=
    ⟨⟨.identifier, "m", 1⟩, [], [.expr (.receiver ⟨0, ⟨.keyword .thisKw, "this", 1⟩⟩)]⟩
  let paren : Token := ⟨.punct .rightParen, ")", 1⟩
  let access : Expr := .get (.call (.name ⟨1, name⟩) paren []) decl.name
  let globals : Scope := ⟨⟨[("clock", .native ⟨0⟩), ("A", .cls ⟨0⟩)]⟩, []⟩
  let cls : Class := ⟨"A", [], ⟨[("m", ⟨decl, ⟨0⟩, false⟩)]⟩⟩
  let m (h : Heap) : Machine :=
    ⟨h, #[Machine.clock 0], ⟨0⟩, ⟨0⟩, (∅ : Distances).insert 0 1, .unlimited⟩
  have hparse : ((Session.new .unlimited 0).parse
      "class A \x7b m() \x7b this; \x7d \x7d A().m();").1 =
      [.classDecl name none [decl], .expr (.call access paren [])] := by
    cbv
  have hstart : ((Session.new .unlimited 0).prepared
      "class A \x7b m() \x7b this; \x7d \x7d A().m();").machine =
      m (Session.new .unlimited 0).machine.heap := by
    rw [Session.prepared, hparse]
    rfl
  have hclass : execute 20 (.classDecl name none [decl]) (m (Session.new .unlimited 0).machine.heap) =
      .ok .normal (m ⟨#[globals], #[], #[cls], #[]⟩) := rfl
  have haccess : evaluate 18 access (m ⟨#[globals], #[], #[cls], #[]⟩) = .ok (.function ⟨0⟩)
      (m ⟨#[globals, ⟨⟨[("this", .object ⟨0⟩)]⟩, [⟨0⟩]⟩], #[⟨decl, ⟨1⟩, false⟩], #[cls],
        #[⟨⟨0⟩, .empty⟩]⟩) := rfl
  have hcall : Executes (.new .unlimited 0) 20 "class A \x7b m() \x7b this; \x7d \x7d A().m();"
      ⟨20, .stmt (.expr (.call access paren [])), m ⟨#[globals], #[], #[cls], #[]⟩⟩ := by
    refine .start ⟨by decide +kernel, by decide +kernel⟩ ?_
    rw [hparse, hstart]
    exact .tail hclass .head
  have hbody := ((hcall.call .expr).call (.apply haccess rfl)).call (.function rfl rfl)
  have hp := ((hbody.call .body).call .first).call .expr
  obtain ⟨f, o, -, -, he⟩ :=
    (receivers_kept ((History.new .unlimited 0).unit 20 _)).this _ _ _ (.inr hp)
  exact ⟨_, _, o, hp, rfl, he⟩

end Treewalk
