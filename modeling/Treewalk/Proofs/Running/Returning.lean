import Treewalk.Proofs.Running.Trace
import Treewalk.Proofs.Scoping.WellScoped

namespace Treewalk

open Run

mutual

/-- The returns of a statement, but for those of the functions and methods declared in it. -/
def Stmt.returns : Stmt → List (Token × Option Expr)
  | .ret keyword value => [(keyword, value)]
  | .block body => Stmt.returnsAll body
  | .ifThen _ t | .loop _ t => t.returns
  | .ifElse _ t e => t.returns ++ e.returns
  | .expr _ | .print _ | .var _ _ | .function _ | .classDecl _ _ _ => []

def Stmt.returnsAll : List Stmt → List (Token × Option Expr)
  | [] => []
  | s :: ss => s.returns ++ Stmt.returnsAll ss

end

def Code.returns : Code → List (Token × Option Expr)
  | .stmt s => s.returns
  | .stmts ss => Stmt.returnsAll ss
  | .rounds _ body => body.returns
  | .expr _ | .exprs _ | .apply _ _ _ | .invoke _ _ => []

def Code.isReturn : Code → Bool
  | .stmt (.ret _ _) => true
  | _ => false

/-- A `return` that has its value, and the machine then. -/
inductive Point.Yields : Point → Value → Machine → Prop
  | nothing : Yields ⟨n + 1, .stmt (.ret keyword none), m⟩ .nil m
  | value : evaluate n e m = .ok v m₁ → Yields ⟨n + 1, .stmt (.ret keyword (some e)), m⟩ v m₁

theorem Calls.returns (h : Calls p q) (hp : p.code.isInvoke = false)
    (hr : q.result = .ok (.returned v) m') :
    ∃ s, p.result = .ok (.returned v) { m' with current := s } := by
  cases h with
  | @block n body m =>
    exact ⟨m.current, (bind_of_ok (x := current) rfl).trans (inside_of_ok hr)⟩
  | ifThenBranch h₁ ht | ifElseThen h₁ ht | ifElseElse h₁ ht =>
    refine ⟨m'.current, (bind_of_ok h₁).trans ?_⟩
    rw [ht]
    exact hr
  | loop => exact ⟨m'.current, hr⟩
  | first => exact ⟨m'.current, bind_of_ok hr⟩
  | rest h₁ => exact ⟨m'.current, (bind_of_ok h₁).trans hr⟩
  | round h₁ ht =>
    refine ⟨m'.current, (bind_of_ok h₁).trans ?_⟩
    rw [ht]
    exact bind_of_ok hr
  | again h₁ ht h₂ =>
    refine ⟨m'.current, (bind_of_ok h₁).trans ?_⟩
    rw [ht]
    exact (bind_of_ok h₂).trans hr
  | body => cases hp
  | _ => cases (ok_of_discard hr).1

theorem Point.Completes.calls {p : Point} (h : p.Completes) (hp : p.code.isInvoke = false)
    (hq : Calls p q) : q.Completes := by
  obtain ⟨m', h⟩ := h
  cases hr : q.result with
  | ok c m₁ =>
    cases c with
    | normal => exact ⟨m₁, hr⟩
    | returned v =>
      obtain ⟨s, hs⟩ := hq.returns hp hr
      cases hs.symm.trans h
  | error e m₁ =>
    obtain ⟨s, hs⟩ := hq.halts hr
    cases hs.symm.trans h

theorem Point.Completes.isReturn {p : Point} (h : p.Completes) : p.code.isReturn = false := by
  obtain ⟨n, code, m⟩ := p
  obtain ⟨m', h⟩ := h
  cases code with
  | stmt s =>
    cases s with
    | ret keyword value =>
      obtain _ | n := n
      · cases h
      cases value with
      | none => cases h
      | some e =>
        obtain ⟨v, m₁, -, h⟩ := bind_ok h
        cases h
    | _ => rfl
  | _ => rfl

theorem Point.Completes.activation {p q : Point} (h : p.Completes) (hq : q ∈ p.activation) :
    q.code.isReturn = false := by
  induction hn : p.fuel generalizing p with
  | zero =>
    rw [Point.activation, Point.traceIn, hn] at hq
    exact List.mem_singleton.mp hq ▸ h.isReturn
  | succ n ih =>
    rw [Point.activation, Point.traceIn_eq] at hq
    obtain rfl | hq := List.mem_cons.mp hq
    · exact h.isReturn
    split at hq
    · next hp =>
      obtain ⟨r, hr, hq⟩ := List.mem_flatMap.mp hq
      have hr := calls_of_mem hr
      have hfuel := hr.fuel
      exact ih (h.calls (by simpa using hp) hr) hq (by omega)
    · cases hq

variable {v : Value} {m m' : Machine} {n : Nat}

def Point.Passes (p : Point) (v : Value) (m' : Machine) : Prop :=
  ∃ q m₁, Calls p q ∧ q.result = .ok (.returned v) m₁ ∧ m' = { m₁ with current := m'.current } ∧
    q.code.returns ⊆ p.code.returns

theorem returned_stmt {s : Stmt} (h : execute (n + 1) s m = .ok (.returned v) m') :
    (⟨n + 1, .stmt s, m⟩ : Point).Yields v m' ∨ (⟨n + 1, .stmt s, m⟩ : Point).Passes v m' := by
  cases s with
  | expr e =>
    obtain ⟨_, m₁, -, h⟩ := bind_ok h
    cases h
  | print e =>
    obtain ⟨_, m₁, -, h⟩ := bind_ok h
    obtain ⟨_, m₂, -, h⟩ := bind_ok h
    cases h
  | var name init =>
    cases init with
    | none => cases h
    | some e =>
      obtain ⟨_, m₁, -, h⟩ := bind_ok h
      cases h
  | function decl => cases h
  | classDecl name superclass methods =>
    cases superclass with
    | none =>
      obtain ⟨_, m₁, -, h⟩ := bind_ok h
      cases h
    | some e =>
      obtain ⟨parent, m₁, -, h⟩ := bind_ok h
      split at h
      · obtain ⟨_, m₂, -, h⟩ := bind_ok h
        cases h
      · cases h
  | ret keyword value =>
    cases value with
    | none =>
      cases h
      exact .inl .nothing
    | some e =>
      obtain ⟨_, m₁, he, h⟩ := bind_ok h
      cases h
      exact .inl (.value he)
  | block body =>
    obtain ⟨m₁, hbody, rfl⟩ := inside_ok h
    exact .inr ⟨_, m₁, .block, hbody, rfl, List.Subset.refl _⟩
  | ifThen c t =>
    obtain ⟨_, m₁, hc, h⟩ := bind_ok h
    split at h
    · next ht => exact .inr ⟨_, m', .ifThenBranch hc ht, h, rfl, List.Subset.refl _⟩
    · cases h
  | ifElse c t e =>
    obtain ⟨_, m₁, hc, h⟩ := bind_ok h
    split at h
    · next ht => exact .inr ⟨_, m', .ifElseThen hc ht, h, rfl, List.subset_append_left _ _⟩
    · next ht => exact .inr ⟨_, m', .ifElseElse hc (Bool.eq_false_iff.mpr ht), h, rfl,
        List.subset_append_right _ _⟩
  | loop c body => exact .inr ⟨_, m', .loop, h, rfl, List.Subset.refl _⟩

theorem returned_stmts {ss : List Stmt} (h : executeAll (n + 1) ss m = .ok (.returned v) m') :
    (⟨n + 1, .stmts ss, m⟩ : Point).Passes v m' := by
  cases ss with
  | nil => cases h
  | cons s ss =>
    obtain ⟨completion, m₁, hs, h⟩ := bind_ok h
    cases completion with
    | normal => exact ⟨_, m', .rest hs, h, rfl, List.subset_append_right _ _⟩
    | returned =>
      cases h
      exact ⟨_, m', .first, hs, rfl, List.subset_append_left _ _⟩

theorem returned_rounds {c : Expr} {body : Stmt}
    (h : iterate (n + 1) c body m = .ok (.returned v) m') :
    (⟨n + 1, .rounds c body, m⟩ : Point).Passes v m' := by
  obtain ⟨_, m₁, hc, h⟩ := bind_ok h
  split at h
  · next ht =>
    obtain ⟨completion, m₂, hbody, h⟩ := bind_ok h
    cases completion with
    | normal => exact ⟨_, m', .again hc ht hbody, h, rfl, List.Subset.refl _⟩
    | returned =>
      cases h
      exact ⟨_, m', .round hc ht, hbody, rfl, List.Subset.refl _⟩
  · cases h

theorem Point.returned_cases {p : Point} (h : p.result = .ok (.returned v) m') :
    p.Yields v m' ∨ p.code.isInvoke = false ∧ p.Passes v m' := by
  obtain ⟨_ | n, code, m⟩ := p
  · cases code <;> cases h
  cases code with
  | stmt s => exact (returned_stmt h).imp id fun h => ⟨rfl, h⟩
  | stmts ss => exact .inr ⟨rfl, returned_stmts h⟩
  | rounds c body => exact .inr ⟨rfl, returned_rounds h⟩
  | _ => cases (ok_of_discard h).1

theorem Point.Yields.code {p : Point} (h : p.Yields v m') :
    ∃ keyword value, p.code = .stmt (.ret keyword value) := by
  cases h <;> exact ⟨_, _, rfl⟩

/-- The run of a point ends with that of another one, whatever is called in between, and in its own
activation there is no `return` before. -/
structure Point.EndsWith (p q : Point) : Prop where
  trace : ∃ before : List Point, p.trace = before ++ q.trace
  activation : ∃ before : List Point, p.activation = before ++ q.activation ∧
    ∀ r ∈ before, r.code.isReturn = false

theorem Point.EndsWith.refl (p : Point) : p.EndsWith p :=
  ⟨⟨[], rfl⟩, [], rfl, fun _ hr => absurd hr List.not_mem_nil⟩

theorem Point.EndsWith.call {p q r : Point} (h : q.EndsWith r) (hc : Calls p q)
    (hp : p.code.isInvoke = false) (hq : q.result = .ok (.returned v) m') : p.EndsWith r := by
  have hqn : ¬ q.Completes := by
    rintro ⟨m₁, hq'⟩
    cases hq.symm.trans hq'
  -- inside a `return` there are only expressions, and they do not return
  have hpr : p.code.isReturn = false := by
    cases hc with
    | ret => cases (ok_of_discard hq).1
    | _ => rfl
  obtain ⟨⟨before, ht⟩, before', ha, hquiet⟩ := h
  constructor
  · obtain ⟨first, -, heq⟩ := hc.traceIn_eq (fun _ => true) hqn rfl
    exact ⟨_, by rw [Point.trace, heq, ← Point.trace, ht, ← List.append_assoc]⟩
  · obtain ⟨first, hfirst, heq⟩ := hc.traceIn_eq (fun code => !code.isInvoke) hqn (by simp [hp])
    refine ⟨_, by rw [Point.activation, heq, ← Point.activation, ha, ← List.append_assoc], ?_⟩
    simp only [List.mem_append, List.mem_cons, List.mem_flatMap]
    rintro x ((rfl | ⟨r, hr, hx⟩) | hx)
    · exact hpr
    · exact (hfirst r hr).2.activation hx
    · exact hquiet x hx

theorem Point.exists_return {p : Point} (h : p.result = .ok (.returned v) m') :
    ∃ (q : Point) (m₁ : Machine) (keyword : Token) (value : Option Expr),
      q.code = .stmt (.ret keyword value) ∧ (keyword, value) ∈ p.code.returns ∧ q.Yields v m₁ ∧
      m' = { m₁ with current := m'.current } ∧ p.EndsWith q := by
  -- what a point calls has less fuel than it
  induction hn : p.fuel generalizing p m' with
  | zero =>
    obtain ⟨_, code, m⟩ := p
    cases hn
    cases code <;> cases h
  | succ n ih =>
    obtain hy | ⟨hp, q, m₁, hc, hq, hm, hsub⟩ := Point.returned_cases h
    · obtain ⟨keyword, value, hcode⟩ := hy.code
      refine ⟨p, m', keyword, value, hcode, ?_, hy, rfl, .refl p⟩
      rw [hcode]
      exact List.mem_singleton_self _
    · have hfuel := hc.fuel
      obtain ⟨r, m₂, keyword, value, hcode, hmem, hy, hm₁, hends⟩ := ih hq (by omega)
      exact ⟨r, m₂, keyword, value, hcode, hsub hmem, hy, by rw [hm, hm₁], hends.call hc hp hq⟩

theorem Point.halts_of_mem_trace {p q : Point} (hq : q ∈ p.trace) (he : q.result = .error e m') :
    p.result = .error e { m' with current := p.machine.current } := by
  induction hn : p.fuel generalizing p with
  | zero =>
    rw [Point.trace, Point.traceIn, hn] at hq
    cases List.mem_singleton.mp hq
    exact current_of_error he ▸ he
  | succ n ih =>
    rw [Point.trace, Point.traceIn_eq] at hq
    obtain rfl | hq := List.mem_cons.mp hq
    · exact current_of_error he ▸ he
    -- the point is in the trace of a call, and what halts a call halts the caller
    · obtain ⟨r, hr, hq⟩ := List.mem_flatMap.mp hq
      have hr := calls_of_mem hr
      have hfuel := hr.fuel
      obtain ⟨s, hs⟩ := hr.halts (ih hq (by omega))
      exact current_of_error hs ▸ hs

def Closure.body (f : Closure) (n : Nat) (args : List Value) (m : Machine) : Point :=
  ⟨n, .stmts f.decl.body, m.inside f.scope (.ofList ((f.decl.params.map Token.lexeme).zip args))⟩

theorem invoke_yields {f : Closure} {args : List Value} (hi : f.isInitializer = false)
    (h : invoke n f args m = .ok v m') :
    match (f.body (n - 1) args m).activation.find? (·.code.isReturn) with
    | some q => ∃ m₁, q.Yields v m₁
    | none => v = .nil := by
  obtain _ | n := n
  · cases h
  rw [invoke, ← bind_assoc] at h
  obtain ⟨completion, m₁, hinside, h⟩ := bind_ok h
  obtain ⟨m₂, hbody, -⟩ := inside_ok hinside
  rw [Nat.add_sub_cancel]
  have hresult : (f.body n args m).result = .ok completion m₂ := hbody
  simp only [yielded, hi, Bool.false_eq_true, if_false] at h
  cases completion with
  | normal =>
    cases h
    have hquiet : (f.body n args m).activation.find? (·.code.isReturn) = none :=
      List.find?_eq_none.mpr fun q hq => by simp [Point.Completes.activation ⟨m₂, hresult⟩ hq]
    rw [hquiet]
  | returned w =>
    cases h
    obtain ⟨q, m₃, keyword, value, hcode, -, hy, -, -, before, ha, hquiet⟩ :=
      Point.exists_return hresult
    have hfirst : (f.body n args m).activation.find? (·.code.isReturn) = some q := by
      rw [ha, List.find?_append, List.find?_eq_none.mpr (by simpa using hquiet), Option.none_or,
        Point.activation, Point.traceIn_eq]
      exact List.find?_cons_of_pos (by rw [hcode]; rfl)
    rw [hfirst]
    exact ⟨m₃, hy⟩

open Resolution

mutual

theorem Stmt.returns_of_quiet {ctx : Context} (hctx : ctx.function = .outside) :
    (s : Stmt) → {r : Resolution} → (s.resolve ctx r).faults = r.faults → s.returns = []
  | .expr _, _, _ | .print _, _, _ | .var _ _, _, _ | .function _, _, _ | .classDecl _ _ _, _, _ =>
    rfl
  | .ret keyword value, r, h => by
    have hq := (quiet_trans (extends_useReturn _ keyword _ r)
      (Expr.extends_resolveOption ctx.cls value _).1).mp h
    exact absurd hctx ((quiet_useReturn _ keyword _ r).mp hq.1).1
  | .block body, r, h => Stmt.returnsAll_of_quiet hctx body (r := r.inside .empty) h
  | .ifThen c t, r, h | .loop c t, r, h =>
    Stmt.returns_of_quiet hctx t ((quiet_trans (c.extends_resolve ctx.cls r).1
      (Stmt.extends_resolve ctx t _)).mp h).2
  | .ifElse c t e, r, h => by
    obtain ⟨-, h⟩ := (quiet_trans (c.extends_resolve ctx.cls r).1
      ((Stmt.extends_resolve ctx t _).trans (Stmt.extends_resolve ctx e _))).mp h
    obtain ⟨ht, he⟩ := (quiet_trans (Stmt.extends_resolve ctx t _)
      (Stmt.extends_resolve ctx e _)).mp h
    rw [Stmt.returns, Stmt.returns_of_quiet hctx t ht, Stmt.returns_of_quiet hctx e he,
      List.append_nil]

theorem Stmt.returnsAll_of_quiet {ctx : Context} (hctx : ctx.function = .outside) :
    (ss : List Stmt) → {r : Resolution} → (Stmt.resolveAll ctx ss r).faults = r.faults →
    Stmt.returnsAll ss = []
  | [], _, _ => rfl
  | s :: ss, r, h => by
    obtain ⟨hs, hss⟩ := (quiet_trans (Stmt.extends_resolve ctx s r)
      (Stmt.extends_resolveAll ctx ss _)).mp h
    rw [Stmt.returnsAll, Stmt.returns_of_quiet hctx s hs, Stmt.returnsAll_of_quiet hctx ss hss,
      List.append_nil]

end

theorem Stmt.returns_subset {s : Stmt} {ss : List Stmt} (h : s ∈ ss) :
    s.returns ⊆ Stmt.returnsAll ss := by
  induction ss with
  | nil => cases h
  | cons t ss ih =>
    obtain rfl | h := List.mem_cons.mp h
    · exact List.subset_append_left _ _
    · exact List.Subset.trans (ih h) (List.subset_append_right _ _)

theorem Stmt.returns_of_resolved {stmts : List Stmt} {D : Distances}
    (h : (Treewalk.resolve stmts D).faults = []) {s : Stmt} (hs : s ∈ stmts) : s.returns = [] :=
  List.subset_nil.mp
    (@Stmt.returnsAll_of_quiet ⟨.outside, .outside⟩ rfl stmts ⟨[], D, []⟩ h ▸
      Stmt.returns_subset hs)

/-- A return leaves its own call with its value and no other one, and a fault leaves everything. -/
theorem return_confined :
    (∀ n (s : Stmt) m v m', execute n s m = .ok (.returned v) m' →
      ∃ (q : Point) (m₁ : Machine) (keyword : Token) (value : Option Expr),
        q.code = .stmt (.ret keyword value) ∧ (keyword, value) ∈ s.returns ∧ q.Yields v m₁ ∧
        m' = { m₁ with current := m'.current } ∧ (⟨n, .stmt s, m⟩ : Point).EndsWith q) ∧
    (∀ n (f : Closure) args m v m', f.isInitializer = false → invoke n f args m = .ok v m' →
      match (f.body (n - 1) args m).activation.find? (·.code.isReturn) with
      | some q => ∃ m₁, q.Yields v m₁
      | none => v = .nil) ∧
    (∀ (p q : Point) e m', q ∈ p.trace → q.result = .error e m' →
      p.result = .error e { m' with current := p.machine.current }) ∧
    ∀ stmts D, (resolve stmts D).faults = [] → ∀ s ∈ stmts, ∀ n m v m',
      execute n s m ≠ .ok (.returned v) m' := by
  refine ⟨fun n s m v m' h => Point.exists_return (p := ⟨n, .stmt s, m⟩) h,
    fun n f args m v m' => invoke_yields, fun p q e m' => Point.halts_of_mem_trace,
    fun stmts D hD s hs n m v m' h => ?_⟩
  obtain ⟨q, m₁, keyword, value, -, hmem, -⟩ := Point.exists_return (p := ⟨n, .stmt s, m⟩) h
  have hmem : (keyword, value) ∈ s.returns := hmem
  rw [Stmt.returns_of_resolved hD hs] at hmem
  cases hmem

theorem return_confined_loop :
    let m := Machine.new .unlimited 0
    let keyword : Token := ⟨.keyword .returnKw, "return", 1⟩
    let minus : Token := ⟨.punct .minus, "-", 1⟩
    let value : Expr := .literal (.bool true)
    let loop : Stmt := .loop value (.block [.ret keyword (some value)])
    let f : Closure := ⟨⟨⟨.identifier, "f", 1⟩, [], [loop]⟩, m.globals, false⟩
    let negation : Expr := .unary minus (.literal .nil)
    (∃ (q : Point) (m₁ m' : Machine) (kw : Token) (v : Option Expr),
      q.code = .stmt (.ret kw v) ∧ (kw, v) ∈ loop.returns ∧ q.Yields (.bool true) m₁ ∧
      m' = { m₁ with current := m'.current } ∧ (⟨9, .stmt loop, m⟩ : Point).EndsWith q) ∧
    (∃ q m₁, (f.body 9 [] m).activation.find? (·.code.isReturn) = some q ∧
      q.Yields (.bool true) m₁) ∧
    (⟨9, .stmt (.print negation), m⟩ : Point).result =
      .error (.fault (.runtime .operandNotNumber minus)) m ∧
    ∀ n m v m', execute n (.function f.decl) m ≠ .ok (.returned v) m' := by
  intro m keyword minus value loop f negation
  obtain ⟨hstmt, hcall, hfault, hglobal⟩ := return_confined
  refine ⟨?_, ?_, ?_, ?_⟩
  · obtain ⟨q, m₁, kw, v, h⟩ := hstmt 9 loop m (.bool true) _ rfl
    exact ⟨q, m₁, _, kw, v, h⟩
  · have h := hcall 10 f [] m (.bool true) _ rfl rfl
    split at h
    · next q hq =>
      obtain ⟨m₁, hy⟩ := h
      exact ⟨q, m₁, hq, hy⟩
    · cases h
  · exact hfault _ ⟨8, .expr negation, m⟩ _ m (.tail _ (.head _)) rfl
  · exact hglobal [.function f.decl] ∅ rfl _ List.mem_cons_self

end Treewalk
