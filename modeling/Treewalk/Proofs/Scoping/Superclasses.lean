import Treewalk.Proofs.Scoping.Links
import Treewalk.Proofs.Scoping.Receivers

namespace Treewalk

open Scopes Run

namespace Heap

/-- A method is the first of its name along the superclasses of a class. -/
inductive Finds (h : Heap) (name : String) : ClassId → Closure → Prop
  | own : h.ownMethod? c name = some f → Finds h name c f
  | up : h.ownMethod? c name = none → h.superclass? c = some parent → Finds h name parent f →
      Finds h name c f

end Heap

variable {points : Point → Prop} {seen : Visit → Prop} {g h : Heap} {p q : Point} {m : Machine}
  {c : ClassId} {name : String} {f : Closure}

theorem Accounted.method?_eq (ha : Accounted points h) : h.method? c name =
    (h.ownMethod? c name).or ((h.superclass? c).bind (h.method? · name)) := by
  rw [Heap.method?, Heap.lineage, Heap.superclass?]
  cases hc : h.classes[c.index]? with
  | none => simp [Heap.ownMethod?, hc]
  | some cls =>
    dsimp only
    rw [List.findSome?_cons]
    cases h.ownMethod? c name with
    | some f => rfl
    | none =>
      rw [Option.none_or]
      dsimp only
      cases hanc : cls.ancestors.head? with
      | none => simp [List.head?_eq_none_iff.mp hanc]
      | some parent =>
        rw [ha.ancestors cls (Array.mem_of_getElem? hc) parent hanc]
        rfl

theorem Accounted.lineage_lt (ha : Accounted points h) (hc : h.superclass? c = some parent) :
    (h.lineage parent).length < (h.lineage c).length := by
  unfold Heap.superclass? at hc
  split at hc
  · next cls hcls =>
    rw [← ha.ancestors cls (Array.mem_of_getElem? hcls) parent hc, Heap.lineage, hcls]
    exact Nat.lt_succ_self _
  · cases hc

theorem Accounted.method?_iff (ha : Accounted points h) :
    h.method? c name = some f ↔ h.Finds name c f := by
  constructor
  · intro hf
    induction hn : (h.lineage c).length using Nat.strongRecOn generalizing c with
    | ind n ih =>
      rw [ha.method?_eq, Option.or_eq_some_iff] at hf
      obtain hown | ⟨hown, hf⟩ := hf
      · exact .own hown
      · obtain ⟨parent, hparent, hf⟩ := Option.bind_eq_some_iff.mp hf
        exact .up hown hparent (ih _ (hn ▸ ha.lineage_lt hparent) hf rfl)
  · intro hf
    induction hf with
    | own hown => rw [ha.method?_eq, hown, Option.some_or]
    | up hown hparent _ ih => rw [ha.method?_eq, hown, hparent, Option.none_or, Option.bind_some, ih]

def Owns (q : Point) (h : Heap) (f : Closure) : Prop :=
  ∃ (i : Nat) (cls : Class) (h₀ : Heap), h.classes[i]? = some cls ∧
    cls.methods.get? f.decl.name.lexeme = some f ∧ Creates q h₀ cls ∧ h₀.classes.size = i

theorem Accounted.owns (ha : Accounted points h) (hf : h.method? c name = some f) :
    ∃ q, points q ∧ Owns q h f := by
  obtain ⟨cls, hc, hget⟩ := mem_of_method? hf
  obtain ⟨i, hi⟩ := Array.getElem?_of_mem hc
  obtain ⟨q, h₀, hq, hcreates, hsize⟩ := ha.classes i cls hi
  exact ⟨q, hq, i, cls, h₀, hi, (ha.method hf).1 ▸ hget, hcreates, hsize⟩

theorem Binds.owns (ha : Accounted points h) (hb : Binds p h f v) : ∃ q, points q ∧ Owns q h f := by
  have found {c : ClassId} {name : String} (hf : h.method? c name = some f) :
      ∃ q, points q ∧ Owns q h f := ha.owns hf
  cases hb with
  | property _ _ _ hf => exact found hf
  | inherited _ _ _ hf => exact found hf
  | construct hf => exact found hf

theorem Creates.scope {cls : Class} (hc : Creates q h cls) (hf : cls.methods.get? name = some f) :
    (∃ n stmt m, q = ⟨n, .stmt stmt, m⟩ ∧ f.scope = m.current) ∨
    ∃ h₀ parent b, Adds q h₀ parent b ∧ (b.get? "super").isSome ∧ f.scope = h₀.nextScope := by
  have made {scope : ScopeId} {methods : List (FunctionDecl Stmt)}
      (hf : (closures scope methods).get? name = some f) : f.scope = scope := by
    obtain ⟨decl, -, heq⟩ := List.mem_map.mp (Bindings.mem_of_get?_ofList hf)
    cases heq
    rfl
  cases hc with
  | base => exact .inl ⟨_, _, _, rfl, made hf⟩
  | derived he => exact .inr ⟨_, _, _, .superclass he, rfl, made hf⟩

/-- An execution of the declaration of a class with these methods, whose superclass was `parent`
then, made the class that has a method. -/
def Declared (points : Point → Prop) (methods : List (FunctionDecl Stmt)) (h : Heap) (f : Closure)
    (parent : ClassId) : Prop :=
  ∃ n name e m m', points ⟨n + 1, .stmt (.classDecl name (some e) methods), m⟩ ∧
    evaluate n e m = .ok (.cls parent) m' ∧
    Owns ⟨n + 1, .stmt (.classDecl name (some e) methods), m⟩ h f

variable {scopes : List StaticScope} {os : List Opener}

theorem Ordered.declared (ho : Ordered points seen g) (hreg : ∀ v, seen v → v.Regular)
    (hp : points p) (hst : Stands (Made points) p.machine scopes os)
    (hl : Layer .derived scopes os k decl methods) (hq : points q) (hb : Binds q h f v)
    (hdrop : (p.machine.heap.chain p.machine.current).drop (k + 2) = h.chain f.scope) :
    ∃ parent, Declared points methods h f parent ∧
      p.machine.heap.lookupAt? p.machine.current (k + 2) "super" = some (.cls parent) := by
  obtain ⟨t, ht, ⟨q₀, hq₀, hopen⟩, hlt⟩ := hst.lies.made_at (hl.superclass rfl)
  have hscope : f.scope = t := by
    have hhead : (h.chain f.scope)[0]? = some t := by
      rw [← hdrop, List.getElem?_drop]
      exact ht
    rw [Heap.head?_chain (ho.home hq hb)] at hhead
    exact Option.some.inj hhead
  have hwithin := (Adds.receiver hb).within ho.closed ho.seenClosed (ho.fine q hq)
  obtain ⟨q₁, hq₁, howns⟩ := hb.owns (hwithin.1.accounted (ho.accounted q hq))
  cases hopen with
  | @superclass n e m parent m₁ name methods he =>
    have hadds : Adds ⟨n + 1, .stmt (.classDecl name (some e) methods), m⟩ _ _ _ := .superclass he
    have hnext : m₁.heap.nextScope = (m₁.heap.define m₁.current name.lexeme .nil).nextScope :=
      (Heap.nextScope_define ..).symm
    have hinner := (ho.accounted p hp).inner ht hlt
    rw [hnext] at hinner ht hscope
    obtain ⟨hchain, hsame⟩ := ho.scope hp hq₀ hadds hinner
    have hparent : (m₁.heap.define m₁.current name.lexeme .nil).chain m₁.current ≠ [] := by
      intro hn
      rw [Heap.Inner, hchain, hn] at hinner
      exact Nat.lt_irrefl 1 hinner
    -- the class was made in the scope of `super` that this run opened, and no other run opened it
    have heq : q₁ = ⟨n + 1, .stmt (.classDecl name (some e) methods), m⟩ := by
      obtain ⟨i, cls, h₀, -, hget, hcreates, -⟩ := howns
      obtain ⟨_, _, _, rfl, hcur⟩ | ⟨h₁, parent', b, ha, -, hnext'⟩ := hcreates.scope hget
      · exact absurd (hcur.symm.trans hscope)
          (ho.current_ne hreg hq₁ hq₀ hadds hparent (.inr rfl) rfl)
      · exact (ho.unique hq₁ hq₀ ha hadds (hnext'.symm.trans hscope)).1
    subst heq
    refine ⟨parent, ⟨n, name, e, m, m₁, hq₀, he, howns⟩, ?_⟩
    rw [Heap.lookupAt?, ht]
    exact hsame "super" (.inr rfl)

/-- Wherever a method of the superclass is asked for, it is looked for from the superclass on that
the declaration of the innermost class around had when it was executed, in that execution that made
the class of the running method; and it is bound to the receiver of that method. If there is none,
nothing happens but the fault. -/
theorem superclass_kept {s : Session} {method : Token} (h : History s points seen)
    (hp : points ⟨n + 1, .expr (.inherited ref method), m⟩) :
    ∃ v methods, seen v ∧ v.subject = .expr (.inherited ref method) ∧ v.classMethods? = some methods ∧
      ∃ q h₀ f receiver parent, points q ∧ Binds q h₀ f receiver ∧ f.decl ∈ methods ∧
        Activation points m (h₀.bindMethod f receiver).1 ∧ Declared points methods h₀ f parent ∧
        (∀ found, m.heap.Finds method.lexeme parent found →
          evaluate (n + 1) (.inherited ref method) m =
            (do newFunction (← bindMethod found receiver) : Run Value) m) ∧
        ((¬ ∃ found, m.heap.Finds method.lexeme parent found) →
          evaluate (n + 1) (.inherited ref method) m =
            .error (.fault (.runtime (.undefinedProperty method.lexeme) method)) m) := by
  have ho := h.ordered
  have hreg : ∀ v, seen v → v.Regular := fun v hv => (h.regular hv).1
  obtain ⟨v, k, decl, methods, hv, hsub, hst, hl, hd⟩ := ho.inherited_layer (fun v => h.regular) hp
  obtain ⟨q, h₀, f, receiver, hq, hb, hmem, hact, hdrop, hthis⟩ := ho.activation hreg hp hst hl
  obtain ⟨parent, hdecl, hsuper⟩ := ho.declared hreg hp hst hl hq hb hdrop
  have heval : Run.inherited ref method m = _ := inherited_eq hd hsuper hthis
  have hacc := ho.accounted _ hp
  refine ⟨v, methods, hv, hsub, hl.methods?, q, h₀, f, receiver, parent, hq, hb, hmem, hact, hdecl,
    fun found hf => ?_, fun hnone => ?_⟩
  · rw [evaluate, heval, hacc.method?_iff.mpr hf]
    rfl
  · cases hf : m.heap.method? parent method.lexeme with
    | some found => exact absurd ⟨found, hacc.method?_iff.mp hf⟩ hnone
    | none =>
      rw [evaluate, heval, hf]
      rfl

theorem superclass_kept_overriding : ∃ (p : Point) (ref : Ref) (method : Token),
    Executes (.new .unlimited 0) 20
      "class A \x7b m() \x7b\x7d \x7d class B < A \x7b m() \x7b super.m; \x7d \x7d B().m();" p ∧
      p.code = .expr (.inherited ref method) ∧ ∃ methods h f receiver parent,
        Activation (fun p => False ∨ Executes (.new .unlimited 0) 20
          "class A \x7b m() \x7b\x7d \x7d class B < A \x7b m() \x7b super.m; \x7d \x7d B().m();" p)
          p.machine (h.bindMethod f receiver).1 ∧
        Declared (fun p => False ∨ Executes (.new .unlimited 0) 20
          "class A \x7b m() \x7b\x7d \x7d class B < A \x7b m() \x7b super.m; \x7d \x7d B().m();" p)
          methods h f parent := by
  let a : Token := ⟨.identifier, "A", 1⟩
  let b : Token := ⟨.identifier, "B", 1⟩
  let name : Token := ⟨.identifier, "m", 1⟩
  let paren : Token := ⟨.punct .rightParen, ")", 1⟩
  let base : FunctionDecl Stmt := ⟨name, [], []⟩
  let derived : FunctionDecl Stmt :=
    ⟨name, [], [.expr (.inherited ⟨1, ⟨.keyword .superKw, "super", 1⟩⟩ name)]⟩
  let superclass : Expr := .name ⟨0, a⟩
  let access : Expr := .get (.call (.name ⟨2, b⟩) paren []) name
  let clock : String × Value := ("clock", .native ⟨0⟩)
  let super : Scope := ⟨⟨[("super", .cls ⟨0⟩)]⟩, [⟨0⟩]⟩
  let classA : Class := ⟨"A", [], ⟨[("m", ⟨base, ⟨0⟩, false⟩)]⟩⟩
  let classB : Class := ⟨"B", [⟨0⟩], ⟨[("m", ⟨derived, ⟨1⟩, false⟩)]⟩⟩
  let m (h : Heap) : Machine :=
    ⟨h, #[Machine.clock 0], ⟨0⟩, ⟨0⟩, (∅ : Distances).insert 1 2, .unlimited⟩
  let globals : Scope := ⟨⟨[clock, ("A", .cls ⟨0⟩), ("B", .cls ⟨1⟩)]⟩, []⟩
  have hparse : ((Session.new .unlimited 0).parse
      "class A \x7b m() \x7b\x7d \x7d class B < A \x7b m() \x7b super.m; \x7d \x7d B().m();").1 =
      [.classDecl a none [base], .classDecl b (some superclass) [derived],
        .expr (.call access paren [])] := by
    cbv
  have hstart : ((Session.new .unlimited 0).prepared
      "class A \x7b m() \x7b\x7d \x7d class B < A \x7b m() \x7b super.m; \x7d \x7d B().m();").machine =
      m (Session.new .unlimited 0).machine.heap := by
    rw [Session.prepared, hparse]
    rfl
  have hbase : execute 20 (.classDecl a none [base]) (m (Session.new .unlimited 0).machine.heap) =
      .ok .normal (m ⟨#[⟨⟨[clock, ("A", .cls ⟨0⟩)]⟩, []⟩], #[], #[classA], #[]⟩) := rfl
  have hderived : execute 20 (.classDecl b (some superclass) [derived])
      (m ⟨#[⟨⟨[clock, ("A", .cls ⟨0⟩)]⟩, []⟩], #[], #[classA], #[]⟩) =
      .ok .normal (m ⟨#[globals, super], #[], #[classA, classB], #[]⟩) := rfl
  have haccess : evaluate 18 access (m ⟨#[globals, super], #[], #[classA, classB], #[]⟩) =
      .ok (.function ⟨0⟩) (m ⟨#[globals, super, ⟨⟨[("this", .object ⟨0⟩)]⟩, [⟨1⟩, ⟨0⟩]⟩],
        #[⟨derived, ⟨2⟩, false⟩], #[classA, classB], #[⟨⟨1⟩, .empty⟩]⟩) := rfl
  have hcall : Executes (.new .unlimited 0) 20
      "class A \x7b m() \x7b\x7d \x7d class B < A \x7b m() \x7b super.m; \x7d \x7d B().m();"
      ⟨20, .stmt (.expr (.call access paren [])),
        m ⟨#[globals, super], #[], #[classA, classB], #[]⟩⟩ := by
    refine .start ⟨by decide +kernel, by decide +kernel⟩ ?_
    rw [hparse, hstart]
    exact .tail hbase (.tail hderived .head)
  have hbody := ((hcall.call .expr).call (.apply haccess rfl)).call (.function rfl rfl)
  have hp := ((hbody.call .body).call .first).call .expr
  obtain ⟨_, methods, -, -, -, _, h, f, receiver, parent, -, -, -, hact, hdecl, -⟩ :=
    superclass_kept ((History.new .unlimited 0).unit 20 _) (.inr hp)
  exact ⟨_, _, _, hp, rfl, methods, h, f, receiver, parent, hact, hdecl⟩

end Treewalk
