import Treewalk.Proofs.Running.Steps
import Treewalk.Proofs.Scoping.Points

namespace Treewalk

open Run

def Point.Fails : Point → Diagnostic → Machine → Prop
  | ⟨n, .expr e, m⟩, d, m' => evaluate n e m = .error (.fault d) m'
  | ⟨n, .exprs es, m⟩, d, m' => evaluateAll n es m = .error (.fault d) m'
  | ⟨n, .apply f paren args, m⟩, d, m' => apply n f paren args m = .error (.fault d) m'
  | ⟨n, .invoke f args, m⟩, d, m' => invoke n f args m = .error (.fault d) m'
  | ⟨n, .stmt s, m⟩, d, m' => execute n s m = .error (.fault d) m'
  | ⟨n, .stmts ss, m⟩, d, m' => executeAll n ss m = .error (.fault d) m'
  | ⟨n, .rounds c body, m⟩, d, m' => iterate n c body m = .error (.fault d) m'

/-- The tokens that a piece of code itself puts faults at. -/
def Code.blamed : Code → List Token
  | .expr (.unary op _) | .expr (.binary _ op _) => [op]
  | .expr (.name ref) | .expr (.assign ref _) | .expr (.receiver ref) => [ref.token]
  | .expr (.get _ name) | .expr (.set _ name _) => [name]
  | .expr (.inherited ref method) => [ref.token, method]
  | .apply _ paren _ => [paren]
  | .stmt (.classDecl name none _) => [name]
  | .stmt (.classDecl name (some e) _) => [name, superclassToken name e]
  | _ => []

/-- A point puts a fault itself, or prints what the sink refuses. -/
inductive Point.Puts : Point → Diagnostic → Machine → Prop
  | blamed {c : Code} : token ∈ c.blamed → Puts ⟨n, c, m⟩ (.runtime fault token) m'
  | refused : evaluate n e m = .ok v m₁ → print v m₁ = .error (.fault (.output reason)) m' →
      Puts ⟨n + 1, .stmt (.print e), m⟩ (.output reason) m'

def Point.Traced (p : Point) (d : Diagnostic) (m' : Machine) : Prop :=
  p.Puts d m' ∨
    ∃ q m₁, Calls p q ∧ q.Fails d m₁ ∧ m' = { m₁ with current := m'.current }

namespace Point.Traced

variable {n : Nat} {code code' : Code} {m m₁ m' : Machine} {d : Diagnostic} {p : Point}

theorem called (hc : Calls p ⟨n, code', m₁⟩) (h : (⟨n, code', m₁⟩ : Point).Fails d m') :
    p.Traced d m' :=
  .inr ⟨_, _, hc, h, rfl⟩

theorem here {x : Run α} (hx : Composed (· ∈ code.blamed) False x)
    (h : x m₁ = .error (.fault d) m') : Traced ⟨n, code, m⟩ d m' := by
  obtain ⟨fault, t, ht, rfl⟩ | ⟨hw, -⟩ := hx.faults h
  · exact .inl (.blamed ht)
  · exact hw.elim

end Point.Traced

open Point

variable {n : Nat} {m m' : Machine} {d : Diagnostic}

theorem traced_expr {e : Expr} (h : evaluate (n + 1) e m = .error (.fault d) m') :
    Traced ⟨n + 1, .expr e, m⟩ d m' := by
  cases e with
  | literal => cases h
  | group e => exact .called .group h
  | unary op e =>
    rw [evaluate] at h
    obtain h | ⟨v, m₁, -, h⟩ := bind_error h
    · exact .called .unary h
    · exact .here (.unary (List.mem_singleton_self op) v) h
  | binary l op r =>
    rw [evaluate] at h
    obtain h | ⟨a, m₁, hl, h⟩ := bind_error h
    · exact .called .binaryLeft h
    obtain h | ⟨b, m₂, -, h⟩ := bind_error h
    · exact .called (.binaryRight hl) h
    · exact .here (.binary (List.mem_singleton_self op) a b) h
  | logical l op r =>
    rw [evaluate] at h
    obtain h | ⟨a, m₁, hl, h⟩ := bind_error h
    · exact .called .logicalLeft h
    cases hd : decides op a with
    | true =>
      rw [hd] at h
      cases h
    | false =>
      rw [hd] at h
      exact .called (.logicalRight hl hd) h
  | name ref => exact .here (.read (List.mem_singleton_self _)) h
  | receiver ref => exact .here (.read (List.mem_singleton_self _)) h
  | assign ref e =>
    rw [evaluate] at h
    obtain h | ⟨v, m₁, -, h⟩ := bind_error h
    · exact .called .assign h
    · exact .here (Composed.bind (.assign (List.mem_singleton_self _) v) fun _ => .pure _) h
  | call callee paren args =>
    rw [evaluate] at h
    obtain h | ⟨f, m₁, hf, h⟩ := bind_error h
    · exact .called .callee h
    obtain h | ⟨vs, m₂, hvs, h⟩ := bind_error h
    · exact .called (.arguments hf) h
    · exact .called (.apply hf hvs) h
  | get o name =>
    rw [evaluate] at h
    obtain h | ⟨v, m₁, -, h⟩ := bind_error h
    · exact .called .get h
    cases v with
    | object id => exact .here (.property id (List.mem_singleton_self name)) h
    | _ => exact .here (.fail _ (List.mem_singleton_self name)) h
  | set o name e =>
    rw [evaluate] at h
    obtain h | ⟨v, m₁, ho, h⟩ := bind_error h
    · exact .called .setObject h
    cases v with
    | object id =>
      obtain h | ⟨v, m₂, -, h⟩ := bind_error h
      · exact .called (.setValue ho) h
      · cases h
    | _ => exact .here (.fail _ (List.mem_singleton_self name)) h
  | inherited ref method =>
    exact .here (.inherited List.mem_cons_self (by simp [Code.blamed])) h

theorem traced_exprs {es : List Expr} (h : evaluateAll (n + 1) es m = .error (.fault d) m') :
    Traced ⟨n + 1, .exprs es, m⟩ d m' := by
  cases es with
  | nil => cases h
  | cons e es =>
    rw [evaluateAll] at h
    obtain h | ⟨v, m₁, he, h⟩ := bind_error h
    · exact .called .head h
    obtain h | ⟨vs, m₂, -, h⟩ := bind_error h
    · exact .called (.tail he) h
    · cases h

theorem checkArity_ok {paren : Token} {expected got : Nat} {m₁ : Machine} {a : Unit}
    (h : checkArity paren expected got m = .ok a m₁) : expected = got ∧ m₁ = m := by
  unfold checkArity at h
  split at h
  · next heq =>
    cases h
    exact ⟨heq, rfl⟩
  · cases h

theorem traced_apply {f : Value} {paren : Token} {args : List Value}
    (h : apply (n + 1) f paren args m = .error (.fault d) m') :
    Traced ⟨n + 1, .apply f paren args, m⟩ d m' := by
  have hp : paren ∈ (Code.apply f paren args).blamed := List.mem_singleton_self paren
  cases f with
  | native id => exact .here (.native id hp n args) h
  | function id =>
    rw [apply] at h
    obtain h | ⟨heap, m₁, hheap, h⟩ := bind_error h
    · cases h
    cases hheap
    cases hf : m.heap.functions[id.index]? with
    | none =>
      rw [hf] at h
      exact .here (.fail _ hp) h
    | some closure =>
      rw [hf] at h
      obtain h | ⟨_, m₁, ha, hbody⟩ := bind_error h
      · exact .here (.checkArity hp _ _) h
      obtain ⟨harity, rfl⟩ := checkArity_ok ha
      exact .called (.function hf harity) hbody
  | cls id =>
    rw [apply] at h
    obtain h | ⟨heap, m₁, hheap, h⟩ := bind_error h
    · cases h
    cases hheap
    obtain h | ⟨_, m₁, ha, hrest⟩ := bind_error h
    · exact .here (.checkArity hp _ _) h
    obtain ⟨harity, rfl⟩ := checkArity_ok ha
    obtain h | ⟨o, m₂, ho, h⟩ := bind_error hrest
    · cases h
    cases hf : m₁.heap.method? id initializerName with
    | none =>
      rw [hf] at h
      cases h
    | some method =>
      rw [hf] at harity h
      obtain h | ⟨bound, m₃, hbind, h⟩ := bind_error h
      · cases h
      obtain h | ⟨_, m₄, -, h⟩ := bind_error h
      · have hbound : (do bindMethod method (.object (← newObject id))) m₁ = .ok bound m₃ := by
          cases ho
          exact hbind
        exact .called (.initializer hf harity hbound) h
      · cases h
  | _ => exact .here (.fail _ hp) h

theorem traced_invoke {f : Closure} {args : List Value}
    (h : invoke (n + 1) f args m = .error (.fault d) m') :
    Traced ⟨n + 1, .invoke f args, m⟩ d m' := by
  rw [invoke] at h
  obtain h | ⟨frame, m₁, hframe, h⟩ := bind_error h
  · cases h
  cases hframe
  obtain h | ⟨c, m₂, -, h⟩ := bind_error h
  · obtain ⟨m₂, hbody, rfl⟩ := within_error h
    exact .inr ⟨_, m₂, .body, hbody, rfl⟩
  · exact .here (.yielded f c) h

theorem traced_stmt {s : Stmt} (h : execute (n + 1) s m = .error (.fault d) m') :
    Traced ⟨n + 1, .stmt s, m⟩ d m' := by
  cases s with
  | expr e =>
    rw [execute] at h
    obtain h | ⟨_, m₁, -, h⟩ := bind_error h
    · exact .called .expr h
    · cases h
  | print e =>
    rw [execute] at h
    obtain h | ⟨v, m₁, he, h⟩ := bind_error h
    · exact .called .print h
    obtain h | ⟨_, m₂, -, h⟩ := bind_error h
    -- printing blames no token
    · obtain ⟨_, _, hfalse, -⟩ | ⟨-, reason, rfl⟩ :=
        (Composed.print (T := fun _ => False) trivial v).faults h
      · exact hfalse.elim
      · exact .inl (.refused he h)
    · cases h
  | var name init =>
    cases init with
    | none => cases h
    | some e =>
      rw [execute] at h
      obtain h | ⟨v, m₁, -, h⟩ := bind_error h
      · exact .called .var h
      · cases h
  | block body =>
    rw [execute] at h
    obtain h | ⟨_, m₁, hcurrent, h⟩ := bind_error h
    · cases h
    cases hcurrent
    obtain h | ⟨scope, m₁, hscope, h⟩ := bind_error h
    · cases h
    cases hscope
    obtain ⟨m₁, hbody, rfl⟩ := within_error h
    exact .inr ⟨_, m₁, .block, hbody, rfl⟩
  | ifThen c t =>
    rw [execute] at h
    obtain h | ⟨v, m₁, hc, h⟩ := bind_error h
    · exact .called .ifThenCondition h
    cases ht : v.isTruthy with
    | true =>
      rw [ht] at h
      exact .called (.ifThenBranch hc ht) h
    | false =>
      rw [ht] at h
      cases h
  | ifElse c t e =>
    rw [execute] at h
    obtain h | ⟨v, m₁, hc, h⟩ := bind_error h
    · exact .called .ifElseCondition h
    cases ht : v.isTruthy with
    | true =>
      rw [ht] at h
      exact .called (.ifElseThen hc ht) h
    | false =>
      rw [ht] at h
      exact .called (.ifElseElse hc ht) h
  | loop c body => exact .called .loop h
  | function decl => cases h
  | ret keyword value =>
    cases value with
    | none => cases h
    | some e =>
      rw [execute] at h
      obtain h | ⟨v, m₁, -, h⟩ := bind_error h
      · exact .called .ret h
      · cases h
  | classDecl name superclass methods =>
    cases superclass with
    | none =>
      refine .here (Composed.bind (.declareClass ?_ none methods) fun _ => .pure _) h
      exact List.mem_singleton_self name
    | some e =>
      rw [execute] at h
      obtain h | ⟨v, m₁, -, h⟩ := bind_error h
      · exact .called .superclass h
      cases v with
      | cls parent =>
        refine .here (Composed.bind (.declareClass ?_ (some parent) methods) fun _ => .pure _) h
        exact List.mem_cons_self
      | _ => exact .here (.fail _ (by simp [Code.blamed])) h

theorem traced_stmts {ss : List Stmt} (h : executeAll (n + 1) ss m = .error (.fault d) m') :
    Traced ⟨n + 1, .stmts ss, m⟩ d m' := by
  cases ss with
  | nil => cases h
  | cons s ss =>
    rw [executeAll] at h
    obtain h | ⟨c, m₁, hs, h⟩ := bind_error h
    · exact .called .first h
    cases c with
    | normal => exact .called (.rest hs) h
    | returned v => cases h

theorem traced_rounds {c : Expr} {body : Stmt}
    (h : iterate (n + 1) c body m = .error (.fault d) m') :
    Traced ⟨n + 1, .rounds c body, m⟩ d m' := by
  rw [iterate] at h
  obtain h | ⟨v, m₁, hc, h⟩ := bind_error h
  · exact .called .condition h
  cases ht : v.isTruthy with
  | false =>
    rw [ht] at h
    cases h
  | true =>
    rw [ht] at h
    obtain h | ⟨completion, m₂, hbody, h⟩ := bind_error h
    · exact .called (.round hc ht) h
    cases completion with
    | normal => exact .called (.again hc ht hbody) h
    | returned v => cases h

theorem Point.Fails.traced {p : Point} (h : p.Fails d m') : p.Traced d m' := by
  obtain ⟨_ | n, code, m⟩ := p
  · cases code <;> cases h
  cases code with
  | expr e => exact traced_expr h
  | exprs es => exact traced_exprs h
  | apply f paren args => exact traced_apply h
  | invoke f args => exact traced_invoke h
  | stmt s => exact traced_stmt h
  | stmts ss => exact traced_stmts h
  | rounds c body => exact traced_rounds h

theorem Calls.fuel {p q : Point} (h : Calls p q) : p.fuel = q.fuel + 1 := by cases h <;> rfl

theorem Point.Fails.origin {points : Point → Prop}
    (hpoints : ∀ p q, Calls p q → points p → points q) {p : Point} (hp : points p)
    (h : p.Fails d m') :
    ∃ q m₁, points q ∧ q.Puts d m₁ ∧ m' = { m₁ with current := m'.current } := by
  induction hn : p.fuel generalizing p m' with
  | zero =>
    obtain hput | ⟨q, m₁, hc, -⟩ := h.traced
    · exact ⟨p, m', hp, hput, rfl⟩
    · have hfuel := hc.fuel
      omega
  | succ n ih =>
    obtain hput | ⟨q, m₁, hc, hq, hm⟩ := h.traced
    · exact ⟨p, m', hp, hput, rfl⟩
    · have hfuel := hc.fuel
      obtain ⟨r, m₂, hr, hput, hm₁⟩ := ih (hpoints p q hc hp) hq (by omega)
      refine ⟨r, m₂, hr, hput, ?_⟩
      rw [hm, hm₁]

end Treewalk
