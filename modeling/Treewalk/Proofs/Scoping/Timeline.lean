import Treewalk.Proofs.Running.Steps
import Treewalk.Proofs.Scoping.Execution

namespace Treewalk

open Run

def Point.after : Point → Machine
  | ⟨n, .expr e, m⟩ => Run.after m (evaluate n e)
  | ⟨n, .exprs es, m⟩ => Run.after m (evaluateAll n es)
  | ⟨n, .apply f paren args, m⟩ => Run.after m (Treewalk.apply n f paren args)
  | ⟨n, .invoke f args, m⟩ => Run.after m (invoke n f args)
  | ⟨n, .stmt s, m⟩ => Run.after m (execute n s)
  | ⟨n, .stmts ss, m⟩ => Run.after m (executeAll n ss)
  | ⟨n, .rounds c body, m⟩ => Run.after m (iterate n c body)

/-- The run of a point binds a method to a receiver: to the object of a property, to a new object,
or to the running receiver. The heap is the one right before. -/
inductive Binds : Point → Heap → Closure → Value → Prop
  | property {obj : Object} : evaluate n o m = .ok (.object object) m₁ →
      m₁.heap.objects[object.index]? = some obj → obj.fields.get? name.lexeme = none →
      m₁.heap.method? obj.cls name.lexeme = some f →
      Binds ⟨n + 1, .expr (.get o name), m⟩ m₁.heap f (.object object)
  | inherited : m.distances[ref.id]? = some (d + 1) →
      m.heap.lookupAt? m.current (d + 1) "super" = some (.cls parent) →
      m.heap.lookupAt? m.current d "this" = some receiver →
      m.heap.method? parent name.lexeme = some f →
      Binds ⟨n + 1, .expr (.inherited ref name), m⟩ m.heap f receiver
  | construct : m.heap.method? cls initializerName = some f → f.arity = args.length →
      Binds ⟨n + 1, .apply (.cls cls) paren args, m⟩ (m.heap.addObject ⟨cls, .empty⟩).2 f
        (.object (m.heap.addObject ⟨cls, .empty⟩).1)

inductive Adds : Point → Heap → ScopeId → Bindings Value → Prop
  | block : Adds ⟨n + 1, .stmt (.block body), m⟩ m.heap m.current .empty
  | frame : Adds ⟨n + 1, .invoke f args, m⟩ m.heap f.scope
      (.ofList ((f.decl.params.map Token.lexeme).zip args))
  | superclass : evaluate n e m = .ok (.cls parent) m₁ →
      Adds ⟨n + 1, .stmt (.classDecl name (some e) methods), m⟩
        (m₁.heap.define m₁.current name.lexeme .nil) m₁.current
        (Bindings.empty.insert "super" (.cls parent))
  | receiver : Binds p h f v → Adds p h f.scope (Bindings.empty.insert "this" v)

/-- The run of a point makes a closure, by a declaration or by binding a method. -/
inductive Makes : Point → Closure → Prop
  | declared : Makes ⟨n + 1, .stmt (.function decl), m⟩ ⟨decl, m.current, false⟩
  | bound : Binds p h f v → Makes p (h.bindMethod f v).1

def closures (scope : ScopeId) (methods : List (FunctionDecl Stmt)) : Bindings Closure :=
  .ofList (methods.map fun decl =>
    (decl.name.lexeme, (⟨decl, scope, decl.name.lexeme = initializerName⟩ : Closure)))

/-- The run of a point makes a class. Its methods are made in the scope of the superclass, if there
is one. -/
inductive Creates : Point → Heap → Class → Prop
  | base : Creates ⟨n + 1, .stmt (.classDecl name none methods), m⟩
      (m.heap.define m.current name.lexeme .nil) ⟨name.lexeme, [], closures m.current methods⟩
  | derived : evaluate n e m = .ok (.cls parent) m₁ →
      Creates ⟨n + 1, .stmt (.classDecl name (some e) methods), m⟩
        ((m₁.heap.define m₁.current name.lexeme .nil).addChild m₁.current
          (Bindings.empty.insert "super" (.cls parent))).2
        ⟨name.lexeme, m₁.heap.lineage parent,
          closures (m₁.heap.define m₁.current name.lexeme .nil).nextScope methods⟩

def Point.Declares (p : Point) (s : ScopeId) (name : String) : Prop :=
  s = p.machine.current ∧ ∃ stmt, p.code = .stmt stmt ∧ ∃ t ∈ stmt.declared?, t.lexeme = name

/-- Another change that the run of a point makes itself. A name is given a value where it is bound
already, or where it is declared. -/
inductive Alters (p : Point) : Heap → Heap → Prop
  | name : name ≠ "this" → name ≠ "super" → (h.binding? s name).isSome ∨ p.Declares s name →
      Alters p h (h.define s name v)
  | function : Makes p f → Alters p h (h.addFunction f).2
  | cls : Creates p h c → Alters p h (h.addClass c).2
  | object : Alters p h (h.addObject o).2
  | field : Alters p h (h.setField o name v)

theorem Binds.unique (hb : Binds p h f v) (hb' : Binds p h' f' v') : h' = h ∧ f' = f ∧ v' = v := by
  cases hb with
  | property ho hobj _ hf =>
    cases hb' with
    | property ho' hobj' _ hf' =>
      cases ho.symm.trans ho'
      cases hobj.symm.trans hobj'
      exact ⟨rfl, Option.some.inj (hf'.symm.trans hf), rfl⟩
  | inherited hd hsuper hthis hf =>
    cases hb' with
    | inherited hd' hsuper' hthis' hf' =>
      cases hd.symm.trans hd'
      cases hsuper.symm.trans hsuper'
      exact ⟨rfl, Option.some.inj (hf'.symm.trans hf), Option.some.inj (hthis'.symm.trans hthis)⟩
  | construct hf _ =>
    cases hb' with
    | construct hf' _ => exact ⟨rfl, Option.some.inj (hf'.symm.trans hf), rfl⟩

theorem Adds.unique (ha : Adds p h parent b) (ha' : Adds p h' parent' b') :
    h' = h ∧ parent' = parent ∧ b' = b := by
  cases ha with
  | block =>
    cases ha' with
    | block => exact ⟨rfl, rfl, rfl⟩
    | receiver hb => cases hb
  | frame =>
    cases ha' with
    | frame => exact ⟨rfl, rfl, rfl⟩
    | receiver hb => cases hb
  | superclass he =>
    cases ha' with
    | superclass he' =>
      cases he.symm.trans he'
      exact ⟨rfl, rfl, rfl⟩
    | receiver hb => cases hb
  | receiver hb =>
    cases ha' with
    | receiver hb' =>
      obtain ⟨rfl, rfl, rfl⟩ := hb.unique hb'
      exact ⟨rfl, rfl, rfl⟩
    | _ => cases hb

inductive Event
  | call (q : Point)
  | opening (h : Heap) (parent : ScopeId) (bindings : Bindings Value)
  | change (h h' : Heap)

namespace Event

def before : Event → Heap
  | call q => q.machine.heap
  | opening h _ _ | change h _ => h

def after : Event → Heap
  | call q => q.after.heap
  | opening h parent bindings => (h.addChild parent bindings).2
  | change _ h' => h'

def Of (p : Point) : Event → Prop
  | call q => Calls p q
  | opening h parent bindings => Adds p h parent bindings
  | change h h' => Alters p h h'

def Opened (p : Point) (e : Event) : Prop :=
  ∃ h parent bindings, e = opening h parent bindings ∧ Adds p h parent bindings

def Needed (p : Point) (e : Event) : Prop := (∃ q, e = call q ∧ Calls p q) ∨ e.Opened p

end Event

/-- Events one after another, each on the heap that the one before it leaves. -/
inductive Linked : Heap → List Event → Heap → Prop
  | nil : Linked h [] h
  | cons {e : Event} : Linked e.after es h → Linked e.before (e :: es) h

theorem Linked.append (h : Linked h₀ es h₁) (h' : Linked h₁ es' h₂) :
    Linked h₀ (es ++ es') h₂ := by
  induction h with
  | nil => exact h'
  | cons _ ih => exact .cons (ih h')

def Unfolds (p : Point) (m : Machine) (x : Run α) (wanted : Event → Prop) : Prop :=
  ∃ es, Linked m.heap es (Run.after m x).heap ∧ (∀ e ∈ es, e.Of p) ∧ ∀ e, wanted e → e ∈ es

namespace Unfolds

variable {p : Point} {m m₁ : Machine} {x : Run α} {f : α → Run β} {C E : Event → Prop}

theorem mono (h : Unfolds p m x C) (hC : ∀ e, E e → C e) : Unfolds p m x E := by
  obtain ⟨es, hl, hof, hw⟩ := h
  exact ⟨es, hl, hof, fun e he => hw e (hC e he)⟩

theorem bind (D : α → Machine → Event → Prop) (hx : Unfolds p m x C)
    (hf : ∀ a m₁, x m = .ok a m₁ → Unfolds p m₁ (f a) (D a m₁))
    (hE : ∀ e, E e → C e ∨ ∃ a m₁, x m = .ok a m₁ ∧ D a m₁ e) : Unfolds p m (x >>= f) E := by
  obtain ⟨es, hl, hof, hw⟩ := hx
  cases h : x m with
  | ok a m₁ =>
    obtain ⟨es', hl', hof', hw'⟩ := hf a m₁ h
    rw [after_of_ok h] at hl
    refine ⟨es ++ es', ?_, fun e he => ?_, fun e he => ?_⟩
    · rw [after_bind, h]
      exact hl.append hl'
    · exact (List.mem_append.mp he).elim (hof e) (hof' e)
    · rw [List.mem_append]
      refine (hE e he).imp (hw e) ?_
      rintro ⟨b, m₂, hb, hD⟩
      rw [h] at hb
      cases hb
      exact hw' e hD
  | error halt m₁ =>
    rw [after_of_error h] at hl
    refine ⟨es, ?_, hof, fun e he => ?_⟩
    · rw [after_bind, h]
      exact hl
    · obtain hC | ⟨a, m₂, ha, -⟩ := hE e he
      · exact hw e hC
      · rw [h] at ha
        cases ha

theorem after (h : Unfolds p m₁ (f a) E) (hx : x m = .ok a m₁) (h₀ : Unfolds p m x fun _ => False) :
    Unfolds p m (x >>= f) E := by
  refine h₀.bind (fun _ _ => E) (fun b m₂ hb => ?_) fun e he => .inr ⟨a, m₁, hx, he⟩
  cases hx.symm.trans hb
  exact h

theorem idle (h : (Run.after m x).heap = m.heap) (hE : ∀ e, ¬ E e) : Unfolds p m x E :=
  ⟨[], h ▸ .nil, by simp, fun e he => absurd he (hE e)⟩

theorem one (e : Event) (hb : e.before = m.heap) (ha : e.after = (Run.after m x).heap)
    (hof : e.Of p) (hE : ∀ e', E e' → e' = e) : Unfolds p m x E := by
  refine ⟨[e], ?_, by simpa using hof, fun e' he => List.mem_singleton.mpr (hE e' he)⟩
  rw [← hb, ← ha]
  exact .cons .nil

theorem congr (y : Run α) (hxy : x m = y m) (h : Unfolds p m y E) : Unfolds p m x E := by
  have ha : Run.after m x = Run.after m y := by
    unfold Run.after
    rw [hxy]
  rw [Unfolds, ha]
  exact h

theorem within {scope : ScopeId} (h : Unfolds p { m with current := scope } x E) :
    Unfolds p m (Run.within scope x) E := by
  obtain ⟨es, hl, hof, hw⟩ := h
  refine ⟨es, ?_, hof, hw⟩
  rw [after_within]
  exact hl

theorem call {q : Point} (hc : Calls p q) (hm : q.machine = m)
    (ha : (Run.after m x).heap = q.after.heap) (hE : ∀ e, E e → e = .call q) : Unfolds p m x E :=
  .one (.call q) (congrArg Machine.heap hm) ha.symm hc hE

theorem change {a : α} {h : Heap} (hx : x m = .ok a { m with heap := h }) (hp : Alters p m.heap h)
    (hE : ∀ e, ¬ E e) : Unfolds p m x E :=
  .one (.change m.heap h) rfl (by rw [after_of_ok hx]; rfl) hp fun e he => absurd he (hE e)

theorem inside {q : Point} {parent : ScopeId} {b : Bindings Value} (ha : Adds p m.heap parent b)
    (hc : Calls p q) (hm : q.machine = m.inside parent b)
    (hq : (Run.after (m.inside parent b) x).heap = q.after.heap)
    (hE : ∀ e, E e → e = .opening m.heap parent b ∨ e = .call q) :
    Unfolds p m (do Run.within (← newScope parent b) x) E := by
  have hopen : Unfolds p m (newScope parent b) (· = .opening m.heap parent b) :=
    .one (.opening m.heap parent b) rfl rfl ha fun _ h => h
  refine hopen.bind (fun _ _ e => e = .call q) (fun s m₁ hs => ?_) fun e he =>
    (hE e he).imp id fun h => ⟨_, _, rfl, h⟩
  cases hs
  exact .within (.call hc hm hq fun _ h => h)

theorem bound {g : Closure} {v : Value} (hb : Binds p m.heap g v)
    (hE : ∀ e, E e → e.Opened p) :
    Unfolds p m (do newFunction (← bindMethod g v)) E := by
  have hopen : Unfolds p m (bindMethod g v)
      (· = .opening m.heap g.scope (Bindings.empty.insert "this" v)) :=
    .one (.opening m.heap g.scope _) rfl rfl (.receiver hb) fun _ h => h
  refine hopen.bind (fun _ _ _ => False) (fun f m₁ hf => ?_) fun e he => .inl ?_
  · cases hf
    exact .change rfl (.function (.bound hb)) fun _ => id
  · obtain ⟨h, parent, b, rfl, ha⟩ := hE e he
    obtain ⟨rfl, rfl, rfl⟩ := (Adds.receiver hb).unique ha
    rfl

end Unfolds

/-- The run of a point, event by event. -/
structure Timeline (p : Point) (es : List Event) : Prop where
  linked : Linked p.machine.heap es p.after.heap
  own : ∀ e ∈ es, e.Of p
  calls : ∀ q, Calls p q → .call q ∈ es
  opens : ∀ h parent b, Adds p h parent b → .opening h parent b ∈ es

end Treewalk
