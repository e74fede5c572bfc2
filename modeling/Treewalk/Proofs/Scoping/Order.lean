import Mathlib.Logic.Relation
import Treewalk.Proofs.Running.Origin
import Treewalk.Proofs.Scoping.History
import Treewalk.Proofs.Scoping.Keeping
import Treewalk.Proofs.Scoping.Unfolding

namespace Treewalk

open Scopes Run

/-- Why a scope binds a name: it was opened with the name, or a statement that is run in it declares
the name. -/
inductive Introduced (points : Point → Prop) (s : ScopeId) (name : String) : Prop
  | opened : points q → Adds q h parent b → h.nextScope = s → (b.get? name).isSome →
      Introduced points s name
  | declared : points q → q.Declares s name → Introduced points s name

/-- Every function, every class and every name of a scope comes from one of the points, and receivers
are objects. -/
structure Accounted (points : Point → Prop) (h : Heap) : Prop where
  chains : ∀ (s : ScopeId) (i : Nat) (t : ScopeId), (h.chain s)[i]? = some t →
    (h.chain s).drop i = h.chain t
  functions : ∀ f ∈ h.functions, ∃ q, points q ∧ Makes q f
  classes : ∀ (i : Nat) c, h.classes[i]? = some c →
    ∃ q h₀, points q ∧ Creates q h₀ c ∧ h₀.classes.size = i
  ancestors : ∀ c ∈ h.classes, ∀ parent ∈ c.ancestors.head?, c.ancestors = h.lineage parent
  receivers : ∀ s v, h.Inner s → h.binding? s "this" = some v → ∃ o, v = .object o
  names : ∀ s name, h.Inner s → (h.binding? s name).isSome → Introduced points s name

structure Leads (points : Point → Prop) (h h' : Heap) : Prop where
  keeps : h.Keeps h'
  accounted : Accounted points h → Accounted points h'

section Accounted

variable {points points' : Point → Prop} {seen : Visit → Prop} {h h' h₁ : Heap} {p q : Point}

theorem Introduced.mono (hi : Introduced points s name) (hp : ∀ p, points p → points' p) :
    Introduced points' s name := by
  cases hi with
  | opened hq ha hs hb => exact .opened (hp _ hq) ha hs hb
  | declared hq hd => exact .declared (hp _ hq) hd

theorem Accounted.mono (ha : Accounted points h) (hp : ∀ p, points p → points' p) :
    Accounted points' h where
  chains := ha.chains
  functions f hf := by
    obtain ⟨q, hq, hm⟩ := ha.functions f hf
    exact ⟨q, hp q hq, hm⟩
  classes i c hc := by
    obtain ⟨q, h₀, hq, hm⟩ := ha.classes i c hc
    exact ⟨q, h₀, hp q hq, hm⟩
  ancestors := ha.ancestors
  receivers := ha.receivers
  names s name hs hb := (ha.names s name hs hb).mono hp

theorem Accounted.inner (ha : Accounted points h) (hs : (h.chain s)[i]? = some t)
    (hi : i + 1 < (h.chain s).length) : h.Inner t := by
  rw [Heap.Inner, ← ha.chains s i t hs, List.length_drop]
  omega

namespace Leads

theorem refl (points : Point → Prop) (h : Heap) : Leads points h h := ⟨.refl h, id⟩

theorem trans (l : Leads points h h₁) (l₁ : Leads points h₁ h') : Leads points h h' :=
  ⟨l.keeps.trans l₁.keeps, fun ha => l₁.accounted (l.accounted ha)⟩

end Leads

theorem Creates.ancestors (hc : Creates p h c) {parent : ClassId}
    (hparent : parent ∈ c.ancestors.head?) : c.ancestors = h.lineage parent := by
  cases hc with
  | base => cases hparent
  | @derived _ _ _ superclass m₁ =>
    have head : ∀ c ∈ (m₁.heap.lineage superclass).head?, c = superclass := by
      unfold Heap.lineage
      split <;> simp
    obtain rfl := head parent hparent
    rfl

theorem Alters.leads (hp : points p) (ha : Alters p h h') : Leads points h h' := by
  cases ha with
  | @name name t _ v hthis hsuper hwhy =>
    refine ⟨.define hthis hsuper, fun ha =>
      ⟨fun s i t hs => ?_, ha.functions, ha.classes, ha.ancestors, ?_, ?_⟩⟩
    · simp only [Heap.chain_define] at hs ⊢
      exact ha.chains s i t hs
    · intro s v hs hb
      rw [Heap.Inner, Heap.chain_define] at hs
      rw [Heap.binding?_define_ne_name hthis] at hb
      exact ha.receivers s v hs hb
    · intro s other hs hb
      rw [Heap.Inner, Heap.chain_define] at hs
      obtain ⟨rfl, rfl⟩ | heq := Heap.binding?_define_cases h t s name other v
      · exact hwhy.elim (ha.names t name hs) (.declared hp)
      · rw [heq] at hb
        exact ha.names s other hs hb
  | function hm =>
    refine ⟨.addFunction h _, fun ha =>
      ⟨ha.chains, fun f hf => ?_, ha.classes, ha.ancestors, ha.receivers, ha.names⟩⟩
    obtain hf | rfl := Array.mem_push.mp hf
    · exact ha.functions f hf
    · exact ⟨p, hp, hm⟩
  | @cls _ c hm =>
    refine ⟨.addClass h c, fun ha =>
      ⟨ha.chains, ha.functions, fun i d hd => ?_, fun d hd parent hparent => ?_, ha.receivers,
        ha.names⟩⟩
    · rw [Heap.addClass, Array.getElem?_push] at hd
      split at hd
      · next hi =>
        cases hd
        exact ⟨p, h, hp, hm, hi.symm⟩
      · exact ha.classes i d hd
    · have heq : d.ancestors = h.lineage parent := by
        obtain hd | rfl := Array.mem_push.mp hd
        · exact ha.ancestors d hd parent hparent
        · exact hm.ancestors hparent
      rw [heq] at hparent ⊢
      exact (Heap.lineage_addClass c (List.ne_nil_of_mem (List.mem_of_mem_head? hparent))).symm
  | object =>
    exact ⟨.addObject h _, fun ha =>
      ⟨ha.chains, ha.functions, ha.classes, ha.ancestors, ha.receivers, ha.names⟩⟩
  | field =>
    exact ⟨.setField h _ _ _, fun ha =>
      ⟨ha.chains, ha.functions, ha.classes, ha.ancestors, ha.receivers, ha.names⟩⟩

theorem Accounted.addChild (ha : Accounted points h) (parent : ScopeId) {b : Bindings Value}
    (hb : ∀ v, b.get? "this" = some v → ∃ o, v = .object o)
    (hnames : ∀ name, (b.get? name).isSome → Introduced points h.nextScope name) :
    Accounted points (h.addChild parent b).2 where
  chains s i t hs := by
    have old {s : ScopeId} {i : Nat} (hs : (h.chain s)[i]? = some t) :
        (h.chain s).drop i = (h.addChild parent b).2.chain t := by
      have hd := ha.chains s i t hs
      rw [hd, (Heap.Keeps.addChild h parent b).chain t]
      rw [← hd]
      exact fun hn => by simp [← List.head?_drop, hn] at hs
    obtain hlt | heq | hgt := Nat.lt_trichotomy s.index h.scopes.size
    · rw [Heap.chain_of_lt_addChild parent b hlt] at hs ⊢
      exact old hs
    · obtain rfl : s = (h.addChild parent b).1 := by
        cases s
        exact congrArg ScopeId.mk heq
      rw [Heap.chain_addChild] at hs ⊢
      cases i with
      | zero =>
        cases hs
        exact (Heap.chain_addChild h parent b).symm
      | succ i => exact old hs
    -- there is no such scope yet
    · have hn : (h.addChild parent b).2.chain s = [] := by
        by_cases hn : (h.addChild parent b).2.chain s = []
        · exact hn
        · have hlt := Heap.chain_ne_nil_iff.mp hn
          rw [Heap.size_addChild] at hlt
          omega
      simp [hn] at hs
  functions := ha.functions
  classes := ha.classes
  ancestors := ha.ancestors
  receivers s v hs hget := by
    obtain ⟨rfl, heq⟩ | ⟨hs, heq⟩ := Heap.inner_addChild_cases hs
    · exact hb v (heq "this" ▸ hget)
    · exact ha.receivers s v hs (heq "this" ▸ hget)
  names s name hs hget := by
    obtain ⟨rfl, heq⟩ | ⟨hs, heq⟩ := Heap.inner_addChild_cases hs
    · exact hnames name (heq name ▸ hget)
    · exact ha.names s name hs (heq name ▸ hget)

variable {m : Machine}

theorem FunctionSound.params {made : ScopeId → Opener → Prop} {f : Closure}
    (hf : FunctionSound made seen m f) : ∀ t ∈ f.decl.params, t.IsName := by
  obtain ⟨_, _, _, -, -, -, hb, -⟩ := hf
  obtain ⟨⟨_, params, _⟩, _, _⟩ := f
  exact hb.1

theorem FunctionSound.frame {made : ScopeId → Opener → Prop} {f : Closure}
    (hf : FunctionSound made seen m f) (args : List Value) (hn : name = "this" ∨ name = "super") :
    (Bindings.ofList ((f.decl.params.map Token.lexeme).zip args)).get? name = none := by
  refine Option.not_isSome_iff_eq_none.mp fun hsome => ?_
  obtain ⟨v, hv⟩ := Option.isSome_iff_exists.mp hsome
  obtain ⟨t, ht, rfl⟩ := List.mem_map.mp (List.of_mem_zip (Bindings.mem_of_get?_ofList hv)).1
  exact hn.elim (hf.params t ht).ne_this (hf.params t ht).ne_super

theorem Stands.inner {made : ScopeId → Opener → Prop} (hst : Stands made m scopes os)
    (ha : Accounted points m.heap) (hd : d < scopes.length)
    (hs : (m.heap.chain m.current)[d]? = some s) : m.heap.Inner s :=
  ha.inner hs (by rw [hst.lies.length]; omega)

theorem Binds.object (hf : Fine points seen p) (ha : Accounted points h) (hb : Binds p h f v) :
    ∃ o, v = .object o := by
  cases hb with
  | property => exact ⟨_, rfl⟩
  | construct => exact ⟨_, rfl⟩
  | @inherited m ref d parent _ _ _ _ hd hsuper hthis hmethod =>
    obtain ⟨-, -, cls, scopes, os, hat, ⟨rfl, hlexeme, hdist⟩, -⟩ := hf
    obtain ⟨k, hk, -, hready⟩ := hat.nested
    rw [hlexeme, show distance scopes Keyword.superKw.spelling = some (k + 1) from hk, hd] at hdist
    cases hdist
    obtain ⟨s, o, hs, -, -, -, hbind⟩ := hat.stands.lies.entry hready
    rw [Heap.lookupAt?, hs] at hthis
    refine ha.receivers s v (hat.stands.inner ha ?_ hs) hthis
    obtain ⟨scope, hscope, -⟩ := Option.bind_eq_some_iff.mp hready
    exact (List.getElem?_eq_some_iff.mp hscope).1

theorem Adds.leads (hf : Fine points seen p) (ha : Adds p h parent b) :
    Leads points h (h.addChild parent b).2 := by
  refine ⟨.addChild h parent b, fun hacc => hacc.addChild parent (fun v hv => ?_)
    fun name hn => .opened hf.mem ha rfl hn⟩
  cases ha with
  | block => cases hv
  | @frame n f args m =>
    rw [hf.placed.1.frame args (.inl rfl)] at hv
    cases hv
  | superclass => cases hv
  | receiver hb =>
    cases hv
    exact hb.object hf hacc

theorem Event.leads (hf : Fine points seen p)
    (hcalls : ∀ q, Calls p q → Leads points q.machine.heap q.after.heap) {e : Event} (he : e.Of p) :
    Leads points e.before e.after := by
  cases e with
  | call q => exact hcalls q he
  | opening h parent b => exact Adds.leads hf he
  | change h h' => exact Alters.leads hf.mem he

namespace Linked

variable {es : List Event}

theorem leads (hl : Linked h es h') (he : ∀ e ∈ es, Leads points e.before e.after) :
    Leads points h h' := by
  induction hl with
  | nil => exact .refl points _
  | cons _ ih =>
    obtain ⟨hfirst, hrest⟩ := List.forall_mem_cons.mp he
    exact hfirst.trans (ih hrest)

theorem around (hl : Linked h es h') (he : ∀ e ∈ es, Leads points e.before e.after) {e : Event}
    (hm : e ∈ es) : Leads points h e.before ∧ Leads points e.after h' := by
  induction hl with
  | nil => cases hm
  | cons hl ih =>
    obtain ⟨hfirst, hrest⟩ := List.forall_mem_cons.mp he
    obtain rfl | hm := List.mem_cons.mp hm
    · exact ⟨.refl points _, hl.leads hrest⟩
    · obtain ⟨hb, ha⟩ := ih hrest hm
      exact ⟨hfirst.trans hb, ha⟩

theorem order (hl : Linked h es h') (he : ∀ e ∈ es, Leads points e.before e.after) {e e' : Event}
    (hm : e ∈ es) (hm' : e' ∈ es) :
    e = e' ∨ Leads points e.after e'.before ∨ Leads points e'.after e.before := by
  induction hl with
  | nil => cases hm
  | cons hl ih =>
    obtain ⟨-, hrest⟩ := List.forall_mem_cons.mp he
    obtain rfl | hr := List.mem_cons.mp hm
    · obtain rfl | hr' := List.mem_cons.mp hm'
      · exact .inl rfl
      · exact .inr (.inl (hl.around hrest hr').1)
    · obtain rfl | hr' := List.mem_cons.mp hm'
      · exact .inr (.inr (hl.around hrest hr).1)
      · exact ih hrest hr hr'

end Linked

def Within : Point → Point → Prop := Relation.ReflTransGen Calls

inductive Apart (p q : Point) : Prop
  | inside (h : Within p q)
  | around (h : Within q p)
  | before (h : p.after.heap.Keeps q.machine.heap)
  | after (h : q.after.heap.Keeps p.machine.heap)

section Run

variable (hpoints : ∀ p q, Calls p q → points p → points q)
  (hseen : ∀ v w, Resolves v w → seen v → seen w)

include hpoints hseen

theorem Fine.leads (n : Nat) (p : Point) (hn : p.fuel = n) (hf : Fine points seen p) :
    Leads points p.machine.heap p.after.heap ∧
      ∃ es, Timeline p es ∧ ∀ e ∈ es, Leads points e.before e.after := by
  obtain ⟨es, hline⟩ := hf.timeline
  have he : ∀ e ∈ es, Leads points e.before e.after := by
    induction n generalizing p es with
    | zero =>
      refine fun e hm => Event.leads hf (fun q hc => ?_) (hline.own e hm)
      have := hc.fuel
      omega
    | succ n ih =>
      refine fun e hm => Event.leads hf (fun q hc => ?_) (hline.own e hm)
      have hfuel := hc.fuel
      have hq := hf.calls hpoints hseen hc
      obtain ⟨es', hline'⟩ := hq.timeline
      exact hline'.linked.leads (ih q (by omega) hq es' hline')
  exact ⟨hline.linked.leads he, es, hline, he⟩

theorem Calls.leads (hf : Fine points seen p) (hc : Calls p q) :
    Leads points p.machine.heap q.machine.heap ∧ Leads points q.after.heap p.after.heap := by
  obtain ⟨-, es, hline, he⟩ := hf.leads hpoints hseen p.fuel p rfl
  exact hline.linked.around he (hline.calls q hc)

theorem Adds.within (hf : Fine points seen p) (ha : Adds p h parent b) :
    Leads points p.machine.heap h ∧ Leads points (h.addChild parent b).2 p.after.heap := by
  obtain ⟨-, es, hline, he⟩ := hf.leads hpoints hseen p.fuel p rfl
  exact hline.linked.around he (hline.opens h parent b ha)

theorem Adds.apart (hf : Fine points seen p) (ha : Adds p h parent b) (hc : Calls p q) :
    (h.addChild parent b).2.Keeps q.machine.heap ∨ q.after.heap.Keeps h := by
  obtain ⟨-, es, hline, he⟩ := hf.leads hpoints hseen p.fuel p rfl
  obtain heq | hl | hl := hline.linked.order he (hline.opens h parent b ha) (hline.calls q hc)
  · cases heq
  · exact .inl hl.keeps
  · exact .inr hl.keeps

theorem Calls.apart (hf : Fine points seen p) (hc : Calls p q) (hc' : Calls p q') :
    q = q' ∨ q.after.heap.Keeps q'.machine.heap ∨ q'.after.heap.Keeps q.machine.heap := by
  obtain ⟨-, es, hline, he⟩ := hf.leads hpoints hseen p.fuel p rfl
  obtain heq | hl | hl := hline.linked.order he (hline.calls q hc) (hline.calls q' hc')
  · cases heq
    exact .inl rfl
  · exact .inr (.inl hl.keeps)
  · exact .inr (.inr hl.keeps)

theorem Within.fine (hf : Fine points seen p) (hw : Within p q) : Fine points seen q := by
  induction hw with
  | refl => exact hf
  | tail _ hc ih => exact ih.calls hpoints hseen hc

theorem Within.leads (hf : Fine points seen p) (hw : Within p q) :
    Leads points p.machine.heap q.machine.heap ∧ Leads points q.after.heap p.after.heap := by
  induction hw with
  | refl => exact ⟨.refl points _, .refl points _⟩
  | tail hw hc ih =>
    obtain ⟨hb, ha⟩ := hc.leads hpoints hseen (Within.fine hpoints hseen hf hw)
    exact ⟨ih.1.trans hb, ha.trans ih.2⟩

theorem Within.apart (hf : Fine points seen p) (hw : Within p q) (hw' : Within p q') :
    Apart q q' := by
  induction hw using Relation.ReflTransGen.head_induction_on with
  | refl => exact .inside hw'
  | @head p c hc hw ih =>
    obtain rfl | ⟨c', hc', hw'⟩ := Relation.ReflTransGen.cases_head hw'
    · exact .around (.head hc hw)
    · have hfc := hf.calls hpoints hseen hc
      have hfc' := hf.calls hpoints hseen hc'
      obtain rfl | hk | hk := hc.apart hpoints hseen hf hc'
      · exact ih hfc hw'
      · exact .before (((Within.leads hpoints hseen hfc hw).2.keeps.trans hk).trans
          (Within.leads hpoints hseen hfc' hw').1.keeps)
      · exact .after (((Within.leads hpoints hseen hfc' hw').2.keeps.trans hk).trans
          (Within.leads hpoints hseen hfc hw).1.keeps)

end Run

end Accounted

section Imp

variable {points points' : Point → Prop} {seen seen' : Visit → Prop}
  (hpoints : ∀ p, points p → points' p) (hseen : ∀ v, seen v → seen' v)

include hpoints

theorem Made.imp (s : ScopeId) (o : Opener) (h : Made points s o) : Made points' s o := by
  obtain ⟨p, hp, ho⟩ := h
  exact ⟨p, hpoints p hp, ho⟩

theorem At.imp (h : At points m cls scopes os) : At points' m cls scopes os :=
  ⟨⟨h.stands.lies.imp (Made.imp hpoints), h.stands.exact, h.stands.outer⟩, h.nested, h.receiver⟩

include hseen

theorem FunctionSound.imp {f : Closure} (h : FunctionSound (Made points) seen m f) :
    FunctionSound (Made points') seen' m f := by
  obtain ⟨ctx, scopes, os, hl, hr, hn, hb, hp, hv⟩ := h
  exact ⟨ctx, scopes, os, hl.imp (Made.imp hpoints), hr, hn, hb, hp, hv.imp hseen⟩

theorem Fine.imp {p : Point} (h : Fine points seen p) : Fine points' seen' p := by
  obtain ⟨n, code, m⟩ := p
  refine ⟨hpoints _ h.mem, h.sound.settle (Made.imp hpoints) hseen fun _ _ _ _ => rfl, ?_⟩
  have hp := h.placed
  cases code with
  | expr e =>
    obtain ⟨cls, scopes, os, hat, hb, hv⟩ := hp
    refine ⟨cls, scopes, os, hat.imp hpoints, hb, ?_⟩
    obtain hv | ⟨ref, name, he, hne, hv⟩ := hv
    · exact .inl (hv.imp hseen)
    · exact .inr ⟨ref, name, he, hne, hv.imp hseen⟩
  | exprs es =>
    obtain ⟨cls, scopes, os, hat, hb, hv⟩ := hp
    exact ⟨cls, scopes, os, hat.imp hpoints, hb, hv.imp hseen⟩
  | apply => trivial
  | invoke f args => exact ⟨hp.1.imp hpoints hseen, hp.2⟩
  | stmt s =>
    obtain ⟨ctx, scopes, os, hat, hr, hb, hpr, hv⟩ := hp
    exact ⟨ctx, scopes, os, hat.imp hpoints, hr, hb, hpr, hv.imp hseen⟩
  | stmts ss =>
    obtain ⟨ctx, scopes, os, hat, hr, hb, hpr, hv⟩ := hp
    exact ⟨ctx, scopes, os, hat.imp hpoints, hr, hb, hpr, hv.imp hseen⟩
  | rounds c body =>
    obtain ⟨ctx, scopes, os, hat, hr, ⟨hbc, hvc⟩, hb, hpr, hd, hv⟩ := hp
    exact ⟨ctx, scopes, os, hat.imp hpoints, hr, ⟨hbc, hvc.imp hseen⟩, hb, hpr, hd, hv.imp hseen⟩

end Imp

theorem interpret_line (fuel : Nat) (ss : List Stmt) (m : Machine) :
    ∃ es, Linked m.heap es (Run.after m (interpret fuel ss)).heap ∧
      (∀ e ∈ es, ∃ p, e = .call p ∧ Starts fuel ss m p) ∧ ∀ p, Starts fuel ss m p → .call p ∈ es := by
  induction ss generalizing m with
  | nil => exact ⟨[], .nil, by simp, fun p hp => by cases hp⟩
  | cons s ss ih =>
    cases hx : execute fuel s m with
    | ok c m₁ =>
      obtain ⟨es, hl, hof, hall⟩ := ih m₁
      refine ⟨.call ⟨fuel, .stmt s, m⟩ :: es, ?_, ?_, ?_⟩
      · rw [interpret, after_bind, hx]
        refine .cons (e := .call ⟨fuel, .stmt s, m⟩) ?_
        rw [show (Event.call ⟨fuel, .stmt s, m⟩).after = m₁.heap from
          congrArg Machine.heap (after_of_ok hx)]
        exact hl
      · refine List.forall_mem_cons.mpr ⟨⟨_, rfl, .head⟩, fun e he => ?_⟩
        obtain ⟨p, rfl, hp⟩ := hof e he
        exact ⟨p, rfl, .tail hx hp⟩
      · rintro p (_ | ⟨hx', hp⟩)
        · exact List.mem_cons_self
        · rw [hx] at hx'
          cases hx'
          exact List.mem_cons_of_mem _ (hall p hp)
    | error halt m₁ =>
      refine ⟨[.call ⟨fuel, .stmt s, m⟩], ?_, ?_, ?_⟩
      · rw [interpret, after_bind, hx]
        refine .cons (e := .call ⟨fuel, .stmt s, m⟩) ?_
        rw [show (Event.call ⟨fuel, .stmt s, m⟩).after = m₁.heap from
          congrArg Machine.heap (after_of_error hx)]
        exact .nil
      · simpa using .head
      · rintro p (_ | ⟨hx', -⟩)
        · exact List.mem_cons_self
        · rw [hx] at hx'
          cases hx'

section Unit

variable {points : Point → Prop} {seen : Visit → Prop} {m : Machine} {ss : List Stmt}
  {p q r r' : Point}
  (hpoints : ∀ p q, Calls p q → points p → points q) (hseen : ∀ v w, Resolves v w → seen v → seen w)
  (hroot : ∀ r, Starts fuel ss m r → Fine points seen r)

include hpoints hseen hroot

theorem interpret_leads : ∃ es, Linked m.heap es (Run.after m (interpret fuel ss)).heap ∧
    (∀ e ∈ es, Leads points e.before e.after) ∧ ∀ r, Starts fuel ss m r → .call r ∈ es := by
  obtain ⟨es, hline, hof, hall⟩ := interpret_line fuel ss m
  refine ⟨es, hline, fun e hm => ?_, hall⟩
  obtain ⟨r, rfl, hr⟩ := hof e hm
  exact ((hroot r hr).leads hpoints hseen r.fuel r rfl).1

theorem Starts.between (hr : Starts fuel ss m r) (hw : Within r p) :
    Leads points m.heap p.machine.heap ∧
      Leads points p.after.heap (Run.after m (interpret fuel ss)).heap := by
  obtain ⟨es, hline, he, hall⟩ := interpret_leads hpoints hseen hroot
  obtain ⟨hb, ha⟩ := hline.around he (hall r hr)
  obtain ⟨hb', ha'⟩ := Within.leads hpoints hseen (hroot r hr) hw
  exact ⟨hb.trans hb', ha'.trans ha⟩

theorem Starts.apart (hr : Starts fuel ss m r) (hw : Within r p) (hr' : Starts fuel ss m r')
    (hw' : Within r' q) : Apart p q := by
  obtain ⟨es, hline, he, hall⟩ := interpret_leads hpoints hseen hroot
  have hp := Within.leads hpoints hseen (hroot r hr) hw
  have hq := Within.leads hpoints hseen (hroot r' hr') hw'
  obtain heq | hl | hl := hline.order he (hall r hr) (hall r' hr')
  · cases heq
    exact Within.apart hpoints hseen (hroot r hr) hw hw'
  · exact .before ((hp.2.trans hl).trans hq.1).keeps
  · exact .after ((hq.2.trans hl).trans hp.1).keeps

end Unit

/-- All that happened in a session, up to a heap. -/
structure Ordered (points : Point → Prop) (seen : Visit → Prop) (h : Heap) : Prop where
  fine : ∀ p, points p → Fine points seen p
  closed : ∀ p q, Calls p q → points p → points q
  seenClosed : ∀ v w, Resolves v w → seen v → seen w
  accounted : ∀ p, points p → Accounted points p.machine.heap
  apart : ∀ p q, points p → points q → Apart p q
  sourced : ∀ n f args m, points ⟨n, .invoke f args, m⟩ → ∃ q, points q ∧ Makes q f
  ends : ∀ p, points p → p.after.heap.Keeps h
  heap : Accounted points h

section History

variable {points : Point → Prop} {seen : Visit → Prop} {s : Session}

theorem Starts.code (h : Starts fuel ss m p) : ∃ s, p.code = .stmt s := by
  induction h with
  | head => exact ⟨_, rfl⟩
  | tail _ _ ih => exact ih

theorem Executes.root (h : Executes s fuel source p) :
    ∃ r, Starts fuel (s.parse source).1 (s.prepared source).machine r ∧ Within r p := by
  induction h with
  | start _ hr => exact ⟨_, hr, .refl⟩
  | call _ hc ih =>
    obtain ⟨r, hr, hw⟩ := ih
    exact ⟨r, hr, hw.tail hc⟩

theorem Calls.sourced (ha : Accounted points p.machine.heap) (hp : points p)
    (hc : Calls p ⟨n, .invoke f args, m⟩) : ∃ q, points q ∧ Makes q f := by
  cases hc with
  | function hf => exact ha.functions f (Array.mem_of_getElem? hf)
  | initializer hf ha' hb =>
    cases hb
    exact ⟨_, hp, .bound (.construct hf ha')⟩

theorem Accounted.addNative {m : Machine} (ha : Accounted points m.heap)
    (hg : m.heap.chain m.globals = [m.globals]) (native : Native) :
    m.heap.Keeps (m.addNative native).heap ∧ Accounted points (m.addNative native).heap := by
  have hout : ¬ m.heap.Inner m.globals := by
    rw [Heap.Inner, hg]
    exact Nat.lt_irrefl 1
  have hinner {s : ScopeId} {name : String} (hs : (m.addNative native).heap.Inner s) :
      m.heap.Inner s ∧ (m.addNative native).heap.binding? s name = m.heap.binding? s name := by
    simp only [Machine.addNative, Heap.Inner, Heap.chain_define] at hs ⊢
    refine ⟨hs, Heap.binding?_define_of_ne _ _ _ _ ?_⟩
    rintro rfl
    exact hout hs
  refine ⟨.define_outermost hout, fun s i t hs => ?_, ha.functions, ha.classes, ha.ancestors,
    fun s v hs hb => ?_, fun s name hs hb => ?_⟩
  · simp only [Machine.addNative, Heap.chain_define] at hs ⊢
    exact ha.chains s i t hs
  · obtain ⟨hs, heq⟩ := hinner hs
    exact ha.receivers s v hs (heq ▸ hb)
  · obtain ⟨hs, heq⟩ := hinner hs
    exact ha.names s name hs (heq ▸ hb)

theorem Ordered.native (h : Ordered points seen s.machine.heap)
    (hg : s.machine.heap.chain s.machine.globals = [s.machine.globals]) (native : Native) :
    Ordered points seen (s.addNative native).machine.heap := by
  obtain ⟨hk, ha⟩ := h.heap.addNative hg native
  exact { h with ends := fun p hp => (h.ends p hp).trans hk, heap := ha }

theorem chain_empty (s : ScopeId) : Heap.empty.chain s = [] := by
  simp [Heap.chain, Heap.empty]

theorem accounted_empty (points : Point → Prop) : Accounted points .empty where
  chains s i t hs := by simp [chain_empty] at hs
  functions f hf := absurd hf (Array.not_mem_empty f)
  classes i c hc := by simp [Heap.empty] at hc
  ancestors c hc := absurd hc (Array.not_mem_empty c)
  receivers s v hs _ := absurd (chain_empty s) hs.chain_ne_nil
  names s name hs _ := absurd (chain_empty s) hs.chain_ne_nil

theorem ordered_new (sink : Sink) (now : Float) :
    Ordered (fun _ => False) (fun _ => False) (Session.new sink now).machine.heap := by
  have hglobal : Accounted (fun _ => False) (Heap.empty.addScope ⟨.empty, []⟩).2 :=
    (accounted_empty _).addChild ⟨0⟩ (fun v hv => by cases hv) fun name hb => by cases hb
  have ha : Accounted (fun _ => False) (Session.new sink now).machine.heap :=
    (hglobal.addNative (m := ⟨_, #[], ⟨0⟩, ⟨0⟩, ∅, sink⟩) rfl (Machine.clock now)).2
  exact ⟨fun _ h => h.elim, fun _ _ _ h => h, fun _ _ _ h => h, fun _ h => h.elim,
    fun _ _ h => h.elim, fun _ _ _ _ h => h.elim, fun _ h => h.elim, ha⟩

theorem Ordered.accepted (h : Ordered points seen s.machine.heap) (hs : s.Settled points seen)
    (ha : s.Accepts source) (fuel : Nat) :
    Ordered (fun p => points p ∨ Executes s fuel source p) (fun v => seen v ∨ Visits s source v)
      (s.runWith fuel source).2.machine.heap := by
  obtain ⟨hnext, hnew⟩ := hs.accepted ha fuel
  have hpoints := hnext.pointsClosed
  have hseen := hnext.seenClosed
  have hfine : ∀ p, points p ∨ Executes s fuel source p →
      Fine (fun p => points p ∨ Executes s fuel source p) (fun v => seen v ∨ Visits s source v) p :=
    fun p hp => hp.elim (fun hp => (h.fine p hp).imp (fun _ => .inl) fun _ => .inl) (hnew p)
  have hstart : Accounted (fun p => points p ∨ Executes s fuel source p)
      (s.prepared source).machine.heap := h.heap.mono fun _ => .inl
  have hroot : ∀ r, Starts fuel (s.parse source).1 (s.prepared source).machine r →
      Fine (fun p => points p ∨ Executes s fuel source p) (fun v => seen v ∨ Visits s source v) r :=
    fun r hr => hnew r (.start ha hr)
  have hend : (s.runWith fuel source).2.machine =
      Run.after (s.prepared source).machine (Treewalk.interpret fuel (s.parse source).1) := by
    rw [Session.runWith_accepted ha]
  have hbetween : ∀ p, Executes s fuel source p →
      Leads (fun p => points p ∨ Executes s fuel source p) (s.prepared source).machine.heap
        p.machine.heap ∧
      Leads (fun p => points p ∨ Executes s fuel source p) p.after.heap
        (s.runWith fuel source).2.machine.heap := by
    intro p hp
    obtain ⟨r, hr, hw⟩ := hp.root
    rw [hend]
    exact hr.between hpoints hseen hroot hw
  have hwhole : Leads (fun p => points p ∨ Executes s fuel source p) (s.prepared source).machine.heap
      (s.runWith fuel source).2.machine.heap := by
    obtain ⟨es, hline, he, -⟩ := interpret_leads hpoints hseen hroot
    rw [hend]
    exact hline.leads he
  refine ⟨hfine, hpoints, hseen, ?_, ?_, ?_, ?_, hwhole.accounted hstart⟩
  · rintro p (hp | hp)
    · exact (h.accounted p hp).mono fun _ => .inl
    · exact (hbetween p hp).1.accounted hstart
  -- earlier units have ended before this one began
  · rintro p q (hp | hp) (hq | hq)
    · exact h.apart p q hp hq
    · exact .before ((h.ends p hp).trans (hbetween q hq).1.keeps)
    · exact .after ((h.ends q hq).trans (hbetween p hp).1.keeps)
    · obtain ⟨r, hr, hw⟩ := hp.root
      obtain ⟨r', hr', hw'⟩ := hq.root
      exact hr.apart hpoints hseen hroot hw hr' hw'
  · rintro n f args m (hp | hp)
    · obtain ⟨q, hq, hm⟩ := h.sourced n f args m hp
      exact ⟨q, .inl hq, hm⟩
    · cases hp with
      | start _ hr =>
        obtain ⟨_, hcode⟩ := hr.code
        cases hcode
      | call hp hc => exact hc.sourced ((hbetween _ hp).1.accounted hstart) (.inr hp)
  · rintro p (hp | hp)
    · exact (h.ends p hp).trans hwhole.keeps
    · exact (hbetween p hp).2.keeps

theorem Ordered.rejected (h : Ordered points seen g) (hn : ¬ s.Accepts source) (fuel : Nat) :
    Ordered (fun p => points p ∨ Executes s fuel source p) (fun v => seen v ∨ Visits s source v)
      g := by
  rwa [or_executes_of_rejected hn, or_visits_of_rejected hn]

theorem History.ordered (h : History s points seen) : Ordered points seen s.machine.heap := by
  induction h with
  | new sink now => exact ordered_new sink now
  | native native h ih => exact ih.native h.settled.sound.globals native
  | @unit s points seen fuel source h ih =>
    obtain ⟨hn, hrun⟩ | ⟨hn, -, hrun⟩ | ⟨ha, -⟩ := s.runWith_cases fuel source
    · rw [hrun]
      exact ih.rejected hn fuel
    · rw [hrun]
      exact ih.rejected hn fuel
    · exact ih.accepted h.settled ha fuel

end History

namespace Ordered

variable {points : Point → Prop} {seen : Visit → Prop} {g h h' : Heap} {p q q' : Point}
  {parent parent' : ScopeId} {b b' : Bindings Value}

theorem opening (ho : Ordered points seen g) (hp : points p) (hq : points q)
    (ha : Adds q h parent b) :
    (h.addChild parent b).2.Keeps p.machine.heap ∨ p.machine.heap.Keeps h := by
  have hfp := ho.fine p hp
  have hfq := ho.fine q hq
  obtain ⟨hb, he⟩ := ha.within ho.closed ho.seenClosed hfq
  cases ho.apart q p hq hp with
  | inside hw =>
    obtain rfl | ⟨c, hc, hw⟩ := Relation.ReflTransGen.cases_head hw
    · exact .inr hb.keeps
    · obtain ⟨hb', he'⟩ := Within.leads ho.closed ho.seenClosed
        (hfq.calls ho.closed ho.seenClosed hc) hw
      obtain hk | hk := ha.apart ho.closed ho.seenClosed hfq hc
      · exact .inl (hk.trans hb'.keeps)
      · exact .inr (((hfp.leads ho.closed ho.seenClosed _ p rfl).1.keeps.trans he'.keeps).trans hk)
  | around hw => exact .inr ((Within.leads ho.closed ho.seenClosed hfp hw).1.keeps.trans hb.keeps)
  | before hk => exact .inl (he.keeps.trans hk)
  | after hk =>
    exact .inr (((hfp.leads ho.closed ho.seenClosed _ p rfl).1.keeps.trans hk).trans hb.keeps)

theorem opened (ho : Ordered points seen g) (hp : points p) (hq : points q)
    (ha : Adds q h parent b) (hs : p.machine.heap.chain h.nextScope ≠ []) :
    (h.addChild parent b).2.Keeps p.machine.heap := by
  obtain hk | hk := ho.opening hp hq ha
  · exact hk
  · have hlt := Heap.chain_ne_nil_iff.mp hs
    exact absurd (Nat.lt_of_lt_of_le hlt hk.size) (Nat.lt_irrefl _)

theorem openings_within (ho : Ordered points seen g) (hq : points q) (hq' : points q')
    (ha : Adds q h parent b) (ha' : Adds q' h' parent' b') (hw : Within q q') :
    q = q' ∨ (h.addChild parent b).2.Keeps h' ∨ (h'.addChild parent' b').2.Keeps h := by
  obtain rfl | ⟨c, hc, hw⟩ := Relation.ReflTransGen.cases_head hw
  · exact .inl rfl
  · have hfq := ho.fine q hq
    obtain ⟨hb, he⟩ := Within.leads ho.closed ho.seenClosed
      (hfq.calls ho.closed ho.seenClosed hc) hw
    obtain ⟨hb', he'⟩ := ha'.within ho.closed ho.seenClosed (ho.fine q' hq')
    obtain hk | hk := ha.apart ho.closed ho.seenClosed hfq hc
    · exact .inr (.inl ((hk.trans hb.keeps).trans hb'.keeps))
    · exact .inr (.inr ((he'.keeps.trans he.keeps).trans hk))

theorem openings (ho : Ordered points seen g) (hq : points q) (hq' : points q')
    (ha : Adds q h parent b) (ha' : Adds q' h' parent' b') :
    q = q' ∨ (h.addChild parent b).2.Keeps h' ∨ (h'.addChild parent' b').2.Keeps h := by
  obtain ⟨hb, he⟩ := ha.within ho.closed ho.seenClosed (ho.fine q hq)
  obtain ⟨hb', he'⟩ := ha'.within ho.closed ho.seenClosed (ho.fine q' hq')
  cases ho.apart q q' hq hq' with
  | inside hw => exact ho.openings_within hq hq' ha ha' hw
  | around hw => exact (ho.openings_within hq' hq ha' ha hw).imp Eq.symm Or.symm
  | before hk => exact .inr (.inl ((he.keeps.trans hk).trans hb'.keeps))
  | after hk => exact .inr (.inr ((he'.keeps.trans hk).trans hb.keeps))

theorem unique (ho : Ordered points seen g) (hq : points q) (hq' : points q')
    (ha : Adds q h parent b) (ha' : Adds q' h' parent' b') (hs : h.nextScope = h'.nextScope) :
    q = q' ∧ h = h' ∧ parent = parent' ∧ b = b' := by
  have hsize : h.scopes.size = h'.scopes.size := congrArg ScopeId.index hs
  obtain rfl | hk | hk := ho.openings hq hq' ha ha'
  · obtain ⟨rfl, rfl, rfl⟩ := ha.unique ha'
    exact ⟨rfl, rfl, rfl, rfl⟩
  · have := hk.size
    rw [Heap.size_addChild] at this
    omega
  · have := hk.size
    rw [Heap.size_addChild] at this
    omega

end Ordered

end Treewalk
