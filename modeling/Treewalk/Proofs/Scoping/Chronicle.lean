import Treewalk.Proofs.Scoping.Receivers
import Treewalk.Proofs.Scoping.Searching

/-!
The heap of a session, change by change. Nothing that was made is lost, every link leads to what was
made before, and every scope but the global one was opened by one run.
-/

namespace Treewalk

open Scopes Run

namespace Heap

/-- From `h` to `h'` nothing is lost: links, names, classes and fields stay. -/
structure Retains (h h' : Heap) : Prop where
  keeps : h.Keeps h'
  bound : ∀ s name, (h.binding? s name).isSome → (h'.binding? s name).isSome
  fields : ∀ (i : Nat) o o', h.objects[i]? = some o → h'.objects[i]? = some o' →
    ∀ name, (o.fields.get? name).isSome → (o'.fields.get? name).isSome

variable {h h' h₁ h₂ : Heap} {s : ScopeId} {c : ClassId} {name : String} {v : Value}

namespace Retains

theorem refl (h : Heap) : h.Retains h where
  keeps := .refl h
  bound _ _ hb := hb
  fields i o o' ho ho' name hf := by
    cases ho.symm.trans ho'
    exact hf

theorem trans (g : h.Retains h₁) (g₁ : h₁.Retains h₂) : h.Retains h₂ where
  keeps := g.keeps.trans g₁.keeps
  bound s name hb := g₁.bound s name (g.bound s name hb)
  fields i o o₂ ho ho₂ name hf := by
    obtain ⟨o₁, ho₁, -⟩ := g.keeps.objects i o ho
    exact g₁.fields i o₁ o₂ ho₁ ho₂ name (g.fields i o o₁ ho ho₁ name hf)

theorem of_objects (hk : h.Keeps h') (ho : h'.objects = h.objects)
    (hb : ∀ s name, (h.binding? s name).isSome → (h'.binding? s name).isSome) : h.Retains h' where
  keeps := hk
  bound := hb
  fields i o o' hi hi' := by
    rw [ho] at hi'
    cases hi.symm.trans hi'
    exact fun _ hf => hf

theorem define (hk : h.Keeps (h.define s name v)) : h.Retains (h.define s name v) := by
  refine of_objects hk rfl fun t other hb => ?_
  by_cases hs : s.index < h.scopes.size
  · exact (isSome_binding?_define hs).mpr (.inl hb)
  · obtain ⟨rfl, -⟩ | heq := binding?_define_cases h s t name other v
    · exact absurd (lt_size_of_binding? hb) hs
    · rwa [heq]

theorem addChild (h : Heap) (parent : ScopeId) (b : Bindings Value) :
    h.Retains (h.addChild parent b).2 := by
  refine of_objects (.addChild h parent b) rfl fun s name hb => ?_
  rwa [binding?_of_lt_addChild parent b (lt_size_of_binding? hb)]

theorem addObject (h : Heap) (o : Object) : h.Retains (h.addObject o).2 where
  keeps := .addObject h o
  bound _ _ hb := hb
  fields i o₁ o₂ ho₁ ho₂ name hf := by
    have hi : i < h.objects.size := (Array.getElem?_eq_some_iff.mp ho₁).1
    rw [Heap.addObject, Array.getElem?_push, if_neg (Nat.ne_of_lt hi)] at ho₂
    cases ho₁.symm.trans ho₂
    exact hf

theorem setField (h : Heap) (o : ObjectId) (name : String) (v : Value) :
    h.Retains (h.setField o name v) where
  keeps := .setField h o name v
  bound _ _ hb := hb
  fields i o₁ o₂ ho₁ ho₂ other hf := by
    rw [Heap.setField, Array.getElem?_modify, ho₁] at ho₂
    split at ho₂
    · cases ho₂
      rw [Bindings.get?_insert]
      split
      · rfl
      · exact hf
    · cases ho₂
      exact hf

end Retains

theorem around?_addChild (parent : ScopeId) (b : Bindings Value) (hparent : h.chain parent ≠ []) :
    (h.addChild parent b).2.around? h.nextScope = some parent := by
  show ((h.addChild parent b).2.chain (h.addChild parent b).1)[1]? = some parent
  rw [chain_addChild]
  exact head?_chain hparent

end Heap

namespace Event

/-- A change of the heap that the run of a point makes itself. -/
def By (p : Point) : Event → Prop
  | call _ => False
  | opening h parent bindings => Adds p h parent bindings
  | change h h' => Alters p h h'

inductive Installs : Event → Prop
  | define : h.chain globals = [globals] →
      Installs (.change h (h.define globals name (.native native)))

/-- A change of the heap of a session. -/
inductive Done (points : Point → Prop) (e : Event) : Prop
  | run (hp : points p) (h : e.By p)
  | native (h : e.Installs)

def scope? : Event → Option ScopeId
  | opening h _ _ => some h.nextScope
  | call _ | change _ _ => none

end Event

variable {points points' : Point → Prop} {seen : Visit → Prop} {g h h' h₁ h₂ g₁ g₂ : Heap}
  {p q : Point} {parent t : ScopeId} {b : Bindings Value} {e : Event} {es ds part : List Event}

theorem Alters.grows (ha : Alters p h h') : h.Retains h' := by
  have hl : Leads (fun _ => True) h h' := ha.leads trivial
  have hk := hl.keeps
  cases ha with
  | name => exact .define hk
  | function => exact .of_objects hk rfl fun _ _ hb => hb
  | cls => exact .of_objects hk rfl fun _ _ hb => hb
  | object => exact .addObject h _
  | field => exact .setField h _ _ _

theorem Creates.ancestorsFrom {c : Class} (hc : Creates p h c) :
    ∃ superclass, c.ancestors = h.ancestorsFrom superclass := by
  cases hc with
  | base => exact ⟨none, rfl⟩
  | derived => exact ⟨some _, rfl⟩

theorem Alters.founded (ha : Alters p h h') (hf : h.Founded) : h'.Founded := by
  cases ha with
  | name => exact hf.define _ _ _
  | function => exact hf.congr (fun _ => rfl) fun _ => rfl
  | cls hc =>
    obtain ⟨superclass, hanc⟩ := hc.ancestorsFrom
    exact hf.addClass hanc
  | object => exact hf.congr (fun _ => rfl) fun _ => rfl
  | field => exact hf.congr (fun _ => rfl) fun _ => rfl

theorem Alters.size (ha : Alters p h h') : h'.scopes.size = h.scopes.size := by
  cases ha with
  | name => exact Array.size_modify
  | _ => rfl

namespace Event.Done

theorem mono (hd : e.Done points) (hp : ∀ p, points p → points' p) : e.Done points' := by
  cases hd with
  | run h he => exact .run (hp _ h) he
  | native h => exact .native h

theorem grows (hd : e.Done points) : e.before.Retains e.after := by
  cases hd with
  | run _ he =>
    cases e with
    | call => exact he.elim
    | opening h parent b => exact .addChild h parent b
    | change => exact he.grows
  | native hi =>
    cases hi with
    | define hg =>
      refine .define (.define_outermost fun hin => ?_)
      rw [Event.before, Heap.Inner, hg] at hin
      exact Nat.lt_irrefl 1 hin

theorem founded (hd : e.Done points) (hf : e.before.Founded) : e.after.Founded := by
  cases hd with
  | run _ he =>
    cases e with
    | call => exact he.elim
    | opening h parent b => exact hf.addChild parent b
    | change => exact he.founded hf
  | native hi =>
    cases hi with
    | define => exact hf.define _ _ _

theorem size (hd : e.Done points) :
    e.scope? = none ∧ e.after.scopes.size = e.before.scopes.size ∨
      e.scope? = some e.before.nextScope ∧ e.after.scopes.size = e.before.scopes.size + 1 := by
  cases hd with
  | run _ he =>
    cases e with
    | call => exact he.elim
    | opening h parent b => exact .inr ⟨rfl, Heap.size_addChild h parent b⟩
    | change => exact .inl ⟨rfl, he.size⟩
  | native hi =>
    cases hi with
    | define => exact .inl ⟨rfl, Array.size_modify⟩

end Event.Done

namespace Linked

theorem grows (hl : Linked h es h') (hd : ∀ e ∈ es, e.Done points) : h.Retains h' := by
  induction hl with
  | nil => exact .refl _
  | cons _ ih =>
    obtain ⟨hfirst, hrest⟩ := List.forall_mem_cons.mp hd
    exact hfirst.grows.trans (ih hrest)

theorem founded (hl : Linked h es h') (hd : ∀ e ∈ es, e.Done points) (hf : h.Founded) :
    h'.Founded := by
  induction hl with
  | nil => exact hf
  | cons _ ih =>
    obtain ⟨hfirst, hrest⟩ := List.forall_mem_cons.mp hd
    exact ih hrest (hfirst.founded hf)

theorem scopes (hl : Linked h es h') (hd : ∀ e ∈ es, e.Done points) :
    h.scopes.size ≤ h'.scopes.size ∧ es.filterMap Event.scope? =
      (List.range' h.scopes.size (h'.scopes.size - h.scopes.size)).map ScopeId.mk := by
  induction hl with
  | nil => simp
  | @cons es h' e _ ih =>
    obtain ⟨hfirst, hrest⟩ := List.forall_mem_cons.mp hd
    obtain ⟨hle, hopened⟩ := ih hrest
    obtain ⟨hnone, hsize⟩ | ⟨hsome, hsize⟩ := hfirst.size
    · rw [hsize] at hle hopened
      rw [List.filterMap_cons_none hnone]
      exact ⟨hle, hopened⟩
    · rw [hsize] at hle hopened
      refine ⟨Nat.le_of_succ_le hle, ?_⟩
      have hleft : h'.scopes.size - e.before.scopes.size =
          h'.scopes.size - (e.before.scopes.size + 1) + 1 := by omega
      rw [List.filterMap_cons_some hsome, hopened, hleft, List.range'_succ, List.map_cons]
      rfl

end Linked

def Excerpt (h : Heap) (es : List Event) (h' h₁ : Heap) (part : List Event) (h₂ : Heap) : Prop :=
  ∃ before after, es = before ++ part ++ after ∧
    Linked h before h₁ ∧ Linked h₁ part h₂ ∧ Linked h₂ after h'

namespace Excerpt

theorem whole (hl : Linked h es h') : Excerpt h es h' h es h' :=
  ⟨[], [], by simp, .nil, hl, .nil⟩

theorem linked (hs : Excerpt h es h' h₁ part h₂) : Linked h₁ part h₂ := by
  obtain ⟨_, _, -, -, hl, -⟩ := hs
  exact hl

theorem trans (hs : Excerpt h es h' h₁ part h₂) (hs₁ : Excerpt h₁ part h₂ g₁ ds g₂) :
    Excerpt h es h' g₁ ds g₂ := by
  obtain ⟨before, after, rfl, hb, -, ha⟩ := hs
  obtain ⟨before₁, after₁, rfl, hb₁, hl, ha₁⟩ := hs₁
  exact ⟨before ++ before₁, after₁ ++ after, by simp, hb.append hb₁, hl, ha₁.append ha⟩

theorem append (hs : Excerpt h es h' h₁ part h₂) (hl : Linked h' ds g) :
    Excerpt h (es ++ ds) g h₁ part h₂ := by
  obtain ⟨before, after, rfl, hb, hm, ha⟩ := hs
  exact ⟨before, after ++ ds, by simp, hb, hm, ha.append hl⟩

theorem prepend (hl : Linked g ds h) (hs : Excerpt h es h' h₁ part h₂) :
    Excerpt g (ds ++ es) h' h₁ part h₂ := by
  obtain ⟨before, after, rfl, hb, hm, ha⟩ := hs
  exact ⟨ds ++ before, after, by simp, hl.append hb, hm, ha⟩

end Excerpt

theorem Linked.refine {D : Event → List Event → Prop} (hl : Linked h es h')
    (hD : ∀ e ∈ es, ∃ part, Linked e.before part e.after ∧ D e part) :
    ∃ ds, Linked h ds h' ∧ (∀ d ∈ ds, ∃ e ∈ es, ∃ part, D e part ∧ d ∈ part) ∧
      ∀ e ∈ es, ∃ part, D e part ∧ Excerpt h ds h' e.before part e.after := by
  induction hl with
  | nil => exact ⟨[], .nil, by simp, by simp⟩
  | @cons _ h' e hl ih =>
    obtain ⟨⟨part, hpart, hd⟩, hrest⟩ := List.forall_mem_cons.mp hD
    obtain ⟨ds, hds, hfrom, hparts⟩ := ih hrest
    refine ⟨part ++ ds, hpart.append hds, fun d hm => ?_, List.forall_mem_cons.mpr ⟨?_, ?_⟩⟩
    · obtain hm | hm := List.mem_append.mp hm
      · exact ⟨e, List.mem_cons_self, part, hd, hm⟩
      · obtain ⟨e', he', h⟩ := hfrom d hm
        exact ⟨e', List.mem_cons_of_mem e he', h⟩
    · exact ⟨part, hd, (Excerpt.whole hpart).append hds⟩
    · intro e' he'
      obtain ⟨part', hd', hs⟩ := hparts e' he'
      exact ⟨part', hd', hs.prepend hpart⟩

/-- The changes of a run, one by one. Every run inside it makes a stretch of them, with the scope that
it opens itself. -/
structure Detail (p : Point) (es : List Event) : Prop where
  linked : Linked p.machine.heap es p.after.heap
  done : ∀ e ∈ es, ∃ q, Within p q ∧ e.By q
  runs : ∀ q, Within p q → ∃ part,
    Excerpt p.machine.heap es p.after.heap q.machine.heap part q.after.heap ∧
      ∀ h parent b, Adds q h parent b → .opening h parent b ∈ part

def Event.Expands (e : Event) (part : List Event) : Prop :=
  match e with
  | call q => Detail q part
  | opening _ _ _ | change _ _ => part = [e]

theorem Timeline.detail (ht : Timeline p es)
    (hcalls : ∀ q, Calls p q → ∃ part, Detail q part) : ∃ part, Detail p part := by
  -- a call stands for the events of its own detail, and the others for themselves
  have hD : ∀ e ∈ es, ∃ part, Linked e.before part e.after ∧ e.Expands part := by
    intro e he
    cases e with
    | call q =>
      obtain ⟨part, hd⟩ := hcalls q (ht.own _ he)
      exact ⟨part, hd.linked, hd⟩
    | opening h parent b => exact ⟨[.opening h parent b], .cons .nil, rfl⟩
    | change h h' => exact ⟨[.change h h'], .cons (e := .change h h') .nil, rfl⟩
  obtain ⟨ds, hl, hfrom, hparts⟩ := ht.linked.refine hD
  have hwhole : ∀ h parent b, Adds p h parent b → .opening h parent b ∈ ds := by
    intro h parent b ha
    obtain ⟨part, rfl, before, after, rfl, -⟩ := hparts _ (ht.opens h parent b ha)
    simp
  refine ⟨ds, hl, fun d hd => ?_, fun q hw => ?_⟩
  · obtain ⟨e, he, part, hp, hd⟩ := hfrom d hd
    cases e with
    | call q =>
      obtain ⟨r, hw, hr⟩ := hp.done d hd
      exact ⟨r, .head (ht.own _ he) hw, hr⟩
    | opening h parent b =>
      obtain rfl := hp
      obtain rfl := List.mem_singleton.mp hd
      exact ⟨p, .refl, ht.own _ he⟩
    | change h h' =>
      obtain rfl := hp
      obtain rfl := List.mem_singleton.mp hd
      exact ⟨p, .refl, ht.own _ he⟩
  · obtain rfl | ⟨c, hc, hw⟩ := Relation.ReflTransGen.cases_head hw
    · exact ⟨ds, .whole hl, hwhole⟩
    · obtain ⟨part, hd, hs⟩ := hparts _ (ht.calls c hc)
      obtain ⟨part', hs', hopens⟩ := hd.runs q hw
      exact ⟨part', hs.trans hs', hopens⟩

theorem Fine.detail (hpoints : ∀ p q, Calls p q → points p → points q)
    (hseen : ∀ v w, Resolves v w → seen v → seen w) (n : Nat) (p : Point) (hn : p.fuel = n)
    (hf : Fine points seen p) : ∃ es, Detail p es := by
  obtain ⟨es, ht⟩ := hf.timeline
  induction n generalizing p es with
  | zero =>
    -- nothing is called without fuel
    refine ht.detail fun q hc => ?_
    have := hc.fuel
    omega
  | succ n ih =>
    refine ht.detail fun q hc => ?_
    have hfuel := hc.fuel
    have hq := hf.calls hpoints hseen hc
    obtain ⟨es', ht'⟩ := hq.timeline
    exact ih q (by omega) hq es' ht'

def Heap.initial : Heap := (Heap.empty.addScope ⟨.empty, []⟩).2

/-- All changes of the heap of a session, one by one, and every run as a stretch of them. -/
structure Chronicle (points : Point → Prop) (es : List Event) (h : Heap) : Prop where
  linked : Linked .initial es h
  done : ∀ e ∈ es, e.Done points
  runs : ∀ p, points p → ∃ part, Excerpt .initial es h p.machine.heap part p.after.heap ∧
    ∀ g parent b, Adds p g parent b → .opening g parent b ∈ part

namespace Chronicle

theorem extend (hc : Chronicle points es h) (hp : ∀ p, points p → points' p)
    (hl : Linked h ds h') (hd : ∀ d ∈ ds, d.Done points')
    (hruns : ∀ p, points' p → points p ∨ ∃ part,
      Excerpt h ds h' p.machine.heap part p.after.heap ∧
        ∀ g parent b, Adds p g parent b → .opening g parent b ∈ part) :
    Chronicle points' (es ++ ds) h' where
  linked := hc.linked.append hl
  done e he := (List.mem_append.mp he).elim (fun he => (hc.done e he).mono hp) (hd e)
  runs p hpt := by
    obtain hold | ⟨part, hs, hopens⟩ := hruns p hpt
    · obtain ⟨part, hs, hopens⟩ := hc.runs p hold
      exact ⟨part, hs.append hl, hopens⟩
    · exact ⟨part, hs.prepend hc.linked, hopens⟩

theorem install (hc : Chronicle points es h) {globals : ScopeId} (hg : h.chain globals = [globals])
    (name : String) (native : NativeId) : Chronicle points
      (es ++ [.change h (h.define globals name (.native native))])
      (h.define globals name (.native native)) := by
  refine hc.extend (fun _ => id) (.cons (e := .change h _) .nil) (fun d hd => ?_) fun p => .inl
  rw [List.mem_singleton.mp hd]
  exact .native (.define hg)

end Chronicle

section History

variable {s : Session} {fuel : Nat} {source : String}

theorem Within.executes (hw : Within p q) (hp : Executes s fuel source p) :
    Executes s fuel source q := by
  induction hw with
  | refl => exact hp
  | tail _ hc ih => exact ih.call hc

theorem Session.Accepts.changes (ha : s.Accepts source)
    (ho : Ordered points seen g) (hp : ∀ p, Executes s fuel source p → points p) :
    ∃ ds, Linked s.machine.heap ds (s.runWith fuel source).2.machine.heap ∧
      (∀ d ∈ ds, ∃ p, Executes s fuel source p ∧ d.By p) ∧
      ∀ p, Executes s fuel source p → ∃ part,
        Excerpt s.machine.heap ds (s.runWith fuel source).2.machine.heap p.machine.heap part
            p.after.heap ∧
          ∀ h parent b, Adds p h parent b → .opening h parent b ∈ part := by
  obtain ⟨es, hline, hof, hall⟩ :=
    interpret_line fuel (s.parse source).1 (s.prepared source).machine
  obtain ⟨ds, hl, hfrom, hparts⟩ := hline.refine
    (D := fun e part => ∃ p, e = .call p ∧ Executes s fuel source p ∧ Detail p part) <| by
      intro e he
      obtain ⟨p, rfl, hstart⟩ := hof e he
      have hexec : Executes s fuel source p := .start ha hstart
      obtain ⟨part, hd⟩ :=
        (ho.fine p (hp p hexec)).detail ho.closed ho.seenClosed p.fuel p rfl
      exact ⟨part, hd.linked, p, rfl, hexec, hd⟩
  rw [Session.runWith_accepted ha]
  refine ⟨ds, hl, fun d hd => ?_, fun p hexec => ?_⟩
  · obtain ⟨_, -, part, ⟨p, rfl, hexec, hdetail⟩, hd⟩ := hfrom d hd
    obtain ⟨q, hw, hby⟩ := hdetail.done d hd
    exact ⟨q, hw.executes hexec, hby⟩
  · obtain ⟨r, hr, hw⟩ := hexec.root
    obtain ⟨part, ⟨r', heq, -, hdetail⟩, hs⟩ := hparts _ (hall r hr)
    cases heq
    obtain ⟨part', hs', hopens⟩ := hdetail.runs p hw
    exact ⟨part', hs.trans hs', hopens⟩

theorem History.chronicle (h : History s points seen) :
    ∃ es, Chronicle points es s.machine.heap := by
  induction h with
  | new sink now =>
    have hc : Chronicle (fun _ => False) [] .initial := ⟨.nil, by simp, fun _ hp => hp.elim⟩
    have hglobals : Heap.initial.chain ⟨0⟩ = [⟨0⟩] := rfl
    exact ⟨_, hc.install hglobals (Machine.clock now).name ⟨0⟩⟩
  | native native h ih =>
    obtain ⟨es, hc⟩ := ih
    exact ⟨_, hc.install h.settled.sound.globals native.name _⟩
  | @unit s points seen fuel source h ih =>
    obtain ⟨es, hc⟩ := ih
    have rejected (hn : ¬ s.Accepts source) :
        Chronicle (fun p => points p ∨ Executes s fuel source p) es s.machine.heap := by
      rwa [or_executes_of_rejected hn]
    obtain ⟨hn, hrun⟩ | ⟨hn, -, hrun⟩ | ⟨ha, -⟩ := s.runWith_cases fuel source
    · rw [hrun]
      exact ⟨es, rejected hn⟩
    · rw [hrun]
      exact ⟨es, rejected hn⟩
    · obtain ⟨ds, hl, hd, hruns⟩ := ha.changes (h.unit fuel source).ordered fun p => .inr
      refine ⟨es ++ ds, hc.extend (fun p => .inl) hl (fun d hm => ?_) fun p hp =>
        hp.imp id (hruns p)⟩
      obtain ⟨p, hp, hby⟩ := hd d hm
      exact .run (.inr hp) hby

theorem Ordered.chain_parent_ne_nil (ho : Ordered points seen g) (hp : points p)
    (ha : Adds p h parent b) :
    h.chain parent ≠ [] := by
  have hf := ho.fine p hp
  cases ha with
  | block =>
    obtain ⟨ctx, scopes, os, hat, -⟩ := hf.placed
    exact hat.stands.lies.ne_nil
  | frame =>
    obtain ⟨⟨ctx, scopes, os, hl, -⟩, -⟩ := hf.placed
    exact hl.ne_nil
  | @superclass n e m _ m₁ name methods he =>
    obtain ⟨ctx, scopes, os, hat, -⟩ := hf.placed
    obtain ⟨hl, -⟩ := (hf.calls ho.closed ho.seenClosed .superclass).leads ho.closed ho.seenClosed
      n ⟨n, .expr e, m⟩ rfl
    have hafter : Point.after ⟨n, .expr e, m⟩ = m₁ := after_of_ok he
    have hcurrent : m₁.current = m.current := by
      rw [← hafter]
      exact ((evaluates_evaluate n e).frame m).current
    have hchain := hl.keeps.chain m.current hat.stands.lies.ne_nil
    rw [hafter] at hchain
    rw [Heap.chain_define, hcurrent, hchain]
    exact hat.stands.lies.ne_nil
  | receiver hb => exact ho.home hp hb

end History

/-- A scope that the run of a point opens: it is new, it lies in one that was there, the run opens no
other one itself, and no other run opens it. -/
structure NewScope (points : Point → Prop) (es : List Event) (p : Point) (h : Heap) (parent : ScopeId)
    (b : Bindings Value) : Prop where
  new : h.chain h.nextScope = []
  inside : h.chain parent ≠ []
  around : (h.addChild parent b).2.around? h.nextScope = some parent
  only : ∀ e ∈ es, e.By p → e.scope?.isSome → e = .opening h parent b
  opener : ∀ q g t c, points q → Adds q g t c → g.nextScope = h.nextScope → q = p

theorem Ordered.newScope (ho : Ordered points seen g) (es : List Event) (hp : points p)
    (ha : Adds p h t b) : NewScope points es p h t b where
  new := h.chain_nextScope
  inside := ho.chain_parent_ne_nil hp ha
  around := Heap.around?_addChild t b (ho.chain_parent_ne_nil hp ha)
  only e _ hby hs := by
    cases e with
    | opening h' t' b' =>
      obtain ⟨rfl, rfl, rfl⟩ := ha.unique hby
      rfl
    | call => cases hs
    | change => cases hs
  opener q g' t' c hq ha' hs := (ho.unique hq hp ha' ha hs).1

theorem Heap.Founded.initial : Heap.initial.Founded := Heap.Founded.empty.perform .new

/-- Between any two moments of a session the heap only grows, and at any moment its links lead to what
was made before, so that the searches along them end. Each run that needs a scope opens one new scope,
and these are all scopes but the global one. -/
theorem heap_grows {s : Session} (h : History s points seen) :
    ∃ es, Chronicle points es s.machine.heap ∧
      (∀ h₁ part h₂, Excerpt .initial es s.machine.heap h₁ part h₂ →
        h₁.Retains h₂ ∧ h₂.Founded ∧ h₂.Recurses ∧ h₂.Ends) ∧
      es.filterMap Event.scope? =
        (List.range' 1 (s.machine.heap.scopes.size - 1)).map ScopeId.mk ∧
      ∀ p g t b, points p → Adds p g t b → NewScope points es p g t b := by
  have ho := h.ordered
  obtain ⟨es, hc⟩ := h.chronicle
  refine ⟨es, hc, ?_, (hc.linked.scopes hc.done).2, fun p g t b hp ha => ho.newScope es hp ha⟩
  rintro h₁ part h₂ ⟨before, after, rfl, hbefore, hpart, -⟩
  obtain ⟨⟨hbefore', hpart'⟩, -⟩ :
      ((∀ e ∈ before, e.Done points) ∧ ∀ e ∈ part, e.Done points) ∧ _ := by
    simpa only [List.forall_mem_append] using hc.done
  have hf : h₂.Founded := hpart.founded hpart' (hbefore.founded hbefore' .initial)
  exact ⟨hpart.grows hpart', hf, hf.recurses, hf.ends⟩

theorem heap_grows_block : ∃ es,
    Chronicle (fun p => False ∨ Executes (.new .unlimited 0) 20 "\x7b var a; \x7d" p) es
      ((Session.new .unlimited 0).runWith 20 "\x7b var a; \x7d").2.machine.heap ∧
      es.filterMap Event.scope? = [⟨1⟩] := by
  obtain ⟨es, hc, -, hs, -⟩ := heap_grows ((History.new .unlimited 0).unit 20 "\x7b var a; \x7d")
  refine ⟨es, hc, hs.trans ?_⟩
  cbv

end Treewalk
