import Treewalk.Proofs.Scoping.Correspondence
import Treewalk.Proofs.Scoping.Order

namespace Treewalk

open Run

namespace Run

theorem Frame.refl (m : Machine) : Frame m m := ⟨rfl, rfl, rfl, rfl⟩

theorem Frame.trans (h : Frame m m₁) (h₁ : Frame m₁ m₂) : Frame m m₂ :=
  ⟨h₁.natives.trans h.natives, h₁.globals.trans h.globals, h₁.current.trans h.current,
    h₁.distances.trans h.distances⟩

end Run

theorem Point.frame (p : Point) : Frame p.machine p.after := by
  obtain ⟨n, code, m⟩ := p
  cases code with
  | expr e => exact (evaluates_evaluate n e).frame m
  | exprs es => exact (evaluates_evaluateAll n es).frame m
  | apply f paren args => exact (evaluates_apply n f paren args).frame m
  | invoke f args => exact (evaluates_invoke n f args).frame m
  | stmt s => exact (evaluates_execute n s).frame m
  | stmts ss => exact (evaluates_executeAll n ss).frame m
  | rounds c body => exact (evaluates_iterate n c body).frame m

theorem Starts.frame (h : Starts fuel ss m p) : Frame m p.machine := by
  induction h with
  | head => exact .refl _
  | @tail s m c m₁ ss p hs _ ih =>
    have hstep := Point.frame ⟨fuel, .stmt s, m⟩
    rw [Point.after, after_of_ok hs] at hstep
    exact hstep.trans ih

/-- What the statement of a point gives to the name that it declares, on the machine after it. -/
inductive Gives : Point → Machine → Value → Prop
  | nil : Gives ⟨n + 1, .stmt (.var name none), m⟩ m' .nil
  | value : evaluate n e m = .ok v m₁ → Gives ⟨n + 1, .stmt (.var name (some e)), m⟩ m' v
  | function {f : FunctionId} : m'.heap.functions[f.index]? = some ⟨decl, m.current, false⟩ →
      Gives ⟨n + 1, .stmt (.function decl), m⟩ m' (.function f)
  | cls {id : ClassId} : Creates ⟨n + 1, .stmt (.classDecl name superclass methods), m⟩ h c →
      m'.heap.classes[id.index]? = some c →
      Gives ⟨n + 1, .stmt (.classDecl name superclass methods), m⟩ m' (.cls id)

theorem reassign_of_bound {name : Token} {m : Machine} (v : Value)
    (hb : (m.heap.binding? m.current name.lexeme).isSome) :
    reassign name v m = .ok () { m with heap := m.heap.define m.current name.lexeme v } := by
  obtain ⟨rest, hc⟩ : ∃ rest, m.heap.chain m.current = m.current :: rest := by
    rw [Heap.chain, Array.getElem?_eq_getElem (Heap.lt_size_of_binding? hb)]
    exact ⟨_, rfl⟩
  have ho : m.heap.owner? m.current name.lexeme = some m.current := by
    rw [Heap.owner?, hc]
    exact List.find?_cons_of_pos hb
  rw [reassign, ho]

theorem binding?_define {h : Heap} {s : ScopeId} {name : String} {v : Value}
    (hs : s.index < h.scopes.size) : (h.define s name v).binding? s name = some v := by
  rw [Heap.binding?_define_self _ _ _ _ _ hs, if_pos rfl]

theorem newClass_ok {name : Token} {c : Class} {m m' : Machine}
    (hb : (m.heap.binding? m.current name.lexeme).isSome)
    (h : (do reassign name (.cls (← newClass c)) : Run Unit) m = .ok () m') :
    ∃ id : ClassId, m'.heap.classes[id.index]? = some c ∧
      m'.heap.binding? m.current name.lexeme = some (.cls id) := by
  have hr := reassign_of_bound (.cls (m.heap.addClass c).1)
    (m := { m with heap := (m.heap.addClass c).2 }) hb
  cases hr.symm.trans h
  exact ⟨(m.heap.addClass c).1, by simp [Heap.addClass, Heap.define],
    binding?_define (Heap.lt_size_of_binding? hb)⟩

theorem declareBase_ok {name : Token} {m m' : Machine} (hlt : m.current.index < m.heap.scopes.size)
    (h : declareClass name none methods m = .ok () m') :
    ∃ id : ClassId,
      m'.heap.classes[id.index]? = some ⟨name.lexeme, [], closures m.current methods⟩ ∧
      m'.heap.binding? m.current name.lexeme = some (.cls id) :=
  newClass_ok (m := { m with heap := m.heap.define m.current name.lexeme .nil })
    (by rw [binding?_define hlt]; rfl) h

theorem declareDerived_ok {name : Token} {m m' : Machine}
    (hlt : m.current.index < m.heap.scopes.size)
    (h : declareClass name (some parent) methods m = .ok () m') :
    ∃ id : ClassId,
      m'.heap.classes[id.index]? = some ⟨name.lexeme, m.heap.lineage parent,
        closures (m.heap.define m.current name.lexeme .nil).nextScope methods⟩ ∧
      m'.heap.binding? m.current name.lexeme = some (.cls id) := by
  let h₁ := ((m.heap.define m.current name.lexeme .nil).addChild m.current
    (Bindings.empty.insert "super" (.cls parent))).2
  have hb : (h₁.binding? m.current name.lexeme).isSome := by
    rw [Heap.binding?_of_lt_addChild _ _ (by simpa [Heap.define] using hlt), binding?_define hlt]
    rfl
  exact newClass_ok (m := { m with heap := h₁ }) hb h

theorem gives_of_declared {s : Stmt} {name : Token} (h : execute n s m = .ok c m')
    (hname : name ∈ s.declared?) (hlt : m.current.index < m.heap.scopes.size)
    (hgrows : ∀ q, Calls ⟨n, .stmt s, m⟩ q →
      q.machine.heap.scopes.size ≤ q.after.heap.scopes.size) :
    ∃ v, Gives ⟨n, .stmt s, m⟩ m' v ∧ m'.heap.binding? m.current name.lexeme = some v := by
  obtain _ | n := n
  · cases h
  -- the value of an initializer or a superclass comes first
  have hvalue {e : Expr} {v : Value} {m₁ : Machine}
      (hcall : Calls ⟨n + 1, .stmt s, m⟩ ⟨n, .expr e, m⟩) (he : evaluate n e m = .ok v m₁) :
      m₁.current = m.current ∧ m.current.index < m₁.heap.scopes.size := by
    have hafter : Point.after ⟨n, .expr e, m⟩ = m₁ := after_of_ok he
    exact ⟨hafter ▸ (Point.frame _).current, Nat.lt_of_lt_of_le hlt (hafter ▸ hgrows _ hcall)⟩
  cases s with
  | var token init =>
    cases hname
    cases init with
    | none =>
      cases h
      exact ⟨.nil, .nil, binding?_define hlt⟩
    | some e =>
      obtain ⟨v, m₁, he, h⟩ := bind_ok h
      cases h
      obtain ⟨hc, hlt⟩ := hvalue .var he
      exact ⟨v, .value he, hc ▸ binding?_define (hc ▸ hlt)⟩
  | function decl =>
    cases hname
    cases h
    exact ⟨_, .function (by simp [Heap.define]), binding?_define hlt⟩
  | classDecl _ superclass methods =>
    cases hname
    cases superclass with
    | none =>
      obtain ⟨_, m₁, hd, h⟩ := bind_ok h
      cases h
      obtain ⟨id, hclass, hb⟩ := declareBase_ok hlt hd
      exact ⟨.cls id, .cls .base hclass, hb⟩
    | some e =>
      obtain ⟨v, m₁, he, h⟩ := bind_ok h
      obtain ⟨hc, hlt⟩ := hvalue .superclass he
      cases v with
      | cls parent =>
        obtain ⟨_, m₂, hd, h⟩ := bind_ok h
        cases h
        rw [← hc] at hlt ⊢
        obtain ⟨id, hclass, hb⟩ := declareDerived_ok hlt hd
        exact ⟨.cls id, .cls (.derived he) hclass, hb⟩
      | _ => cases h
  | expr | print | block | ifThen | ifElse | loop | ret => cases hname

theorem History.starts_home {s : Session} (h : History s points seen)
    (hs : Starts fuel (s.parse source).1 (s.prepared source).machine p) :
    p.machine.current = p.machine.globals ∧ p.machine.globals = s.machine.globals := by
  have hframe := hs.frame
  have hhome : (s.prepared source).machine.current = (s.prepared source).machine.globals :=
    h.settled.home
  exact ⟨by rw [hframe.current, hframe.globals, hhome], hframe.globals⟩

theorem History.declares_global {s : Session} (h : History s points seen)
    (hp : Executes s fuel source ⟨n, .stmt stmt, m⟩) (hhome : m.current = m.globals)
    (hok : execute n stmt m = .ok c m') {name : Token} (hname : name ∈ stmt.declared?) :
    ∃ v, Gives ⟨n, .stmt stmt, m⟩ m' v ∧ m'.heap.binding? m'.globals name.lexeme = some v ∧
      ∀ ref : Ref, ref.token.lexeme = name.lexeme → m'.distances[ref.id]? = none →
        m'.find? ref = some v := by
  have hnext := (h.unit fuel source).settled
  have hfine := h.fine hp
  have hglobals : m.heap.chain m.globals = [m.globals] := hfine.sound.globals
  have hlt : m.current.index < m.heap.scopes.size :=
    Heap.chain_ne_nil_iff.mp (by simp [hhome, hglobals])
  obtain ⟨v, hgives, hb⟩ := gives_of_declared hok hname hlt fun q hq =>
    ((hfine.calls hnext.pointsClosed hnext.seenClosed hq).leads hnext.pointsClosed
      hnext.seenClosed _ q rfl).1.keeps.size
  obtain ⟨he, -⟩ : Evolves _ _ _ m m' ∧ _ := Kept.of_ok (h.ends hp) hok
  rw [hhome, ← he.globals] at hb
  refine ⟨v, hgives, hb, fun ref href hnone => ?_⟩
  rw [Machine.find?, hnone, href]
  exact (Heap.lookup?_globals he.sound _).trans hb

/-- However a run ends, the machine is in the scope that it was in, and its globals and distances
are what they were. So each statement of the global level is executed among the globals of the
session, and what it declares is a global. -/
theorem current_restored :
    (∀ p : Point, Frame p.machine p.after) ∧
    ∀ {s : Session} {points : Point → Prop} {seen : Visit → Prop}, History s points seen →
      ∀ fuel source p, s.Accepts source →
        Starts fuel (s.parse source).1 (s.prepared source).machine p →
        p.machine.current = p.machine.globals ∧ p.machine.globals = s.machine.globals ∧
        ∀ stmt, p.code = .stmt stmt → ∀ c m', execute p.fuel stmt p.machine = .ok c m' →
          ∀ name ∈ stmt.declared?, ∃ v, Gives p m' v ∧
            m'.heap.binding? m'.globals name.lexeme = some v ∧
            ∀ ref : Ref, ref.token.lexeme = name.lexeme → m'.distances[ref.id]? = none →
              m'.find? ref = some v := by
  refine ⟨Point.frame, fun h fuel source p ha hs => ?_⟩
  obtain ⟨hhome, hglobals⟩ := h.starts_home hs
  refine ⟨hhome, hglobals, fun stmt hcode c m' hok name hname => ?_⟩
  obtain ⟨n, code, m⟩ := p
  cases hcode
  exact h.declares_global (.start ha hs) hhome hok hname

theorem current_restored_failing : ∃ s : Session,
    s = ((Session.new .unlimited 0).runWith 20 "fun f() \x7b \x7b nil(); \x7d \x7d f();").2 ∧
    ((Session.new .unlimited 0).runWith 20 "fun f() \x7b \x7b nil(); \x7d \x7d f();").1.isFailed ∧
    s.Accepts "var a = true;" ∧ ∃ p m' v,
      Starts 9 (s.parse "var a = true;").1 (s.prepared "var a = true;").machine p ∧
      p.machine.current = s.machine.globals ∧
      p.code = .stmt (.var ⟨.identifier, "a", 1⟩ (some (.literal (.bool true)))) ∧ Gives p m' v ∧
      m'.heap.binding? m'.globals "a" = some v := by
  let s := ((Session.new .unlimited 0).runWith 20 "fun f() \x7b \x7b nil(); \x7d \x7d f();").2
  let stmt : Stmt := .var ⟨.identifier, "a", 1⟩ (some (.literal (.bool true)))
  let m := (s.prepared "var a = true;").machine
  have hfailed : ((Session.new .unlimited 0).runWith 20
      "fun f() \x7b \x7b nil(); \x7d \x7d f();").1.isFailed := by decide +kernel
  have ha : s.Accepts "var a = true;" := ⟨by decide +kernel, by decide +kernel⟩
  have hparse : (s.parse "var a = true;").1 = [stmt] := by cbv
  have hs : Starts 9 (s.parse "var a = true;").1 m ⟨9, .stmt stmt, m⟩ := hparse ▸ .head
  have hok : execute 9 stmt m =
      .ok .normal { m with heap := m.heap.define m.current "a" (.bool true) } := rfl
  obtain ⟨hhome, hglobals, hdeclares⟩ := current_restored.2 (.unit 20 _ (.new .unlimited 0)) 9
    "var a = true;" _ ha hs
  obtain ⟨v, hgives, hb, -⟩ := hdeclares stmt rfl _ _ hok ⟨.identifier, "a", 1⟩ rfl
  exact ⟨s, rfl, hfailed, ha, _, _, v, hs, hhome.trans hglobals, rfl, hgives, hb⟩

end Treewalk
