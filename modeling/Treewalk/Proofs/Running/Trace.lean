import Treewalk.Proofs.Running.Origin
import Treewalk.Proofs.Running.Restoring

/-!
The points that a run goes through, in the order in which it comes to them. Each run but the last
one inside another ends in the ordinary way, and from a run that does not there is nothing left to
do in any run around it.
-/

namespace Treewalk

open Run

def following (r : EStateM.Result Halt Machine α) (next : α → Machine → List Point) : List Point :=
  match r with
  | .ok a m => next a m
  | .error _ _ => []

theorem mem_following {r : EStateM.Result Halt Machine α} {next : α → Machine → List Point}
    (h : q ∈ following r next) : ∃ a m, r = .ok a m ∧ q ∈ next a m := by
  cases r with
  | ok a m => exact ⟨a, m, rfl, h⟩
  | error e m => cases h

/-- The runs that code goes through itself, each with the fuel `n`. -/
def Code.calls (n : Nat) (m : Machine) : Code → List Point
  | .expr (.literal _) | .expr (.name _) | .expr (.receiver _) | .expr (.inherited _ _) => []
  | .expr (.group e) | .expr (.unary _ e) | .expr (.assign _ e) | .expr (.get e _) =>
    [⟨n, .expr e, m⟩]
  | .expr (.binary l _ r) =>
    ⟨n, .expr l, m⟩ :: following (evaluate n l m) fun _ m₁ => [⟨n, .expr r, m₁⟩]
  | .expr (.logical l op r) =>
    ⟨n, .expr l, m⟩ :: following (evaluate n l m) fun a m₁ =>
      if decides op a then [] else [⟨n, .expr r, m₁⟩]
  | .expr (.call callee paren args) =>
    ⟨n, .expr callee, m⟩ :: following (evaluate n callee m) fun f m₁ =>
      ⟨n, .exprs args, m₁⟩ :: following (evaluateAll n args m₁) fun vs m₂ =>
        [⟨n, .apply f paren vs, m₂⟩]
  | .expr (.set o _ e) =>
    ⟨n, .expr o, m⟩ :: following (evaluate n o m) fun v m₁ =>
      match v with
      | .object _ => [⟨n, .expr e, m₁⟩]
      | _ => []
  | .exprs [] => []
  | .exprs (e :: es) =>
    ⟨n, .expr e, m⟩ :: following (evaluate n e m) fun _ m₁ => [⟨n, .exprs es, m₁⟩]
  | .apply (.function id) _ args =>
    match m.heap.functions[id.index]? with
    | some f => if f.arity = args.length then [⟨n, .invoke f args, m⟩] else []
    | none => []
  | .apply (.cls cls) _ args =>
    match m.heap.method? cls initializerName with
    | some f =>
      if f.arity = args.length then
        following ((do bindMethod f (.object (← newObject cls))) m) fun bound m₁ =>
          [⟨n, .invoke bound args, m₁⟩]
      else []
    | none => []
  | .apply _ _ _ => []
  | .invoke f args => [⟨n, .stmts f.decl.body,
      m.inside f.scope (.ofList ((f.decl.params.map Token.lexeme).zip args))⟩]
  | .stmt (.expr e) | .stmt (.print e) | .stmt (.var _ (some e)) | .stmt (.ret _ (some e))
  | .stmt (.classDecl _ (some e) _) => [⟨n, .expr e, m⟩]
  | .stmt (.var _ none) | .stmt (.ret _ none) | .stmt (.classDecl _ none _)
  | .stmt (.function _) => []
  | .stmt (.block body) => [⟨n, .stmts body, m.inside m.current .empty⟩]
  | .stmt (.ifThen c t) =>
    ⟨n, .expr c, m⟩ :: following (evaluate n c m) fun v m₁ =>
      if v.isTruthy then [⟨n, .stmt t, m₁⟩] else []
  | .stmt (.ifElse c t e) =>
    ⟨n, .expr c, m⟩ :: following (evaluate n c m) fun v m₁ =>
      [⟨n, .stmt (if v.isTruthy then t else e), m₁⟩]
  | .stmt (.loop c body) => [⟨n, .rounds c body, m⟩]
  | .stmts [] => []
  | .stmts (s :: ss) =>
    ⟨n, .stmt s, m⟩ :: following (execute n s m) fun completion m₁ =>
      match completion with
      | .normal => [⟨n, .stmts ss, m₁⟩]
      | .returned _ => []
  | .rounds c body =>
    ⟨n, .expr c, m⟩ :: following (evaluate n c m) fun v m₁ =>
      if v.isTruthy then
        ⟨n, .stmt body, m₁⟩ :: following (execute n body m₁) fun completion m₂ =>
          match completion with
          | .normal => [⟨n, .rounds c body, m₂⟩]
          | .returned _ => []
      else []

def Point.calls : Point → List Point
  | ⟨0, _, _⟩ => []
  | ⟨n + 1, code, m⟩ => code.calls n m

theorem Calls.mem_calls (h : Calls p q) : q ∈ p.calls := by
  cases h <;> simp [Point.calls, Code.calls, following, *]

theorem calls_of_mem_expr {e : Expr} (h : q ∈ (Code.expr e).calls n m) :
    Calls ⟨n + 1, .expr e, m⟩ q := by
  cases e with
  | literal | name | receiver | inherited => cases h
  | group e => exact List.mem_singleton.mp h ▸ .group
  | unary op e => exact List.mem_singleton.mp h ▸ .unary
  | assign ref e => exact List.mem_singleton.mp h ▸ .assign
  | get o name => exact List.mem_singleton.mp h ▸ .get
  | binary l op r =>
    obtain rfl | h := List.mem_cons.mp h
    · exact .binaryLeft
    obtain ⟨a, m₁, hl, h⟩ := mem_following h
    exact List.mem_singleton.mp h ▸ .binaryRight hl
  | logical l op r =>
    obtain rfl | h := List.mem_cons.mp h
    · exact .logicalLeft
    obtain ⟨a, m₁, hl, h⟩ := mem_following h
    cases hd : decides op a with
    | true =>
      rw [hd] at h
      cases h
    | false =>
      rw [hd] at h
      exact List.mem_singleton.mp h ▸ .logicalRight hl hd
  | call callee paren args =>
    obtain rfl | h := List.mem_cons.mp h
    · exact .callee
    obtain ⟨f, m₁, hf, h⟩ := mem_following h
    obtain rfl | h := List.mem_cons.mp h
    · exact .arguments hf
    obtain ⟨vs, m₂, hvs, h⟩ := mem_following h
    exact List.mem_singleton.mp h ▸ .apply hf hvs
  | set o name e =>
    obtain rfl | h := List.mem_cons.mp h
    · exact .setObject
    obtain ⟨v, m₁, ho, h⟩ := mem_following h
    cases v with
    | object id => exact List.mem_singleton.mp h ▸ .setValue ho
    | _ => cases h

theorem calls_of_mem_apply {f : Value} {paren : Token} {args : List Value}
    (h : q ∈ (Code.apply f paren args).calls n m) : Calls ⟨n + 1, .apply f paren args, m⟩ q := by
  cases f with
  | function id =>
    rw [Code.calls] at h
    split at h
    · next closure hf =>
      split at h
      · next ha => exact List.mem_singleton.mp h ▸ .function hf ha
      · cases h
    · cases h
  | cls id =>
    rw [Code.calls] at h
    split at h
    · next method hf =>
      split at h
      · next ha =>
        obtain ⟨bound, m₁, hbound, h⟩ := mem_following h
        exact List.mem_singleton.mp h ▸ .initializer hf ha hbound
      · cases h
    · cases h
  | _ => cases h

theorem calls_of_mem_stmt {s : Stmt} (h : q ∈ (Code.stmt s).calls n m) :
    Calls ⟨n + 1, .stmt s, m⟩ q := by
  cases s with
  | expr e => exact List.mem_singleton.mp h ▸ .expr
  | print e => exact List.mem_singleton.mp h ▸ .print
  | var name init =>
    cases init with
    | none => cases h
    | some e => exact List.mem_singleton.mp h ▸ .var
  | block body => exact List.mem_singleton.mp h ▸ .block
  | ifThen c t =>
    obtain rfl | h := List.mem_cons.mp h
    · exact .ifThenCondition
    obtain ⟨v, m₁, hc, h⟩ := mem_following h
    split at h
    · next ht => exact List.mem_singleton.mp h ▸ .ifThenBranch hc ht
    · cases h
  | ifElse c t e =>
    obtain rfl | h := List.mem_cons.mp h
    · exact .ifElseCondition
    obtain ⟨v, m₁, hc, h⟩ := mem_following h
    cases List.mem_singleton.mp h
    split
    · next ht => exact .ifElseThen hc ht
    · next ht => exact .ifElseElse hc (Bool.eq_false_iff.mpr ht)
  | loop c body => exact List.mem_singleton.mp h ▸ .loop
  | function decl => cases h
  | ret keyword value =>
    cases value with
    | none => cases h
    | some e => exact List.mem_singleton.mp h ▸ .ret
  | classDecl name superclass methods =>
    cases superclass with
    | none => cases h
    | some e => exact List.mem_singleton.mp h ▸ .superclass

theorem calls_of_mem (h : q ∈ p.calls) : Calls p q := by
  obtain ⟨_ | n, code, m⟩ := p
  · cases h
  rw [Point.calls] at h
  cases code with
  | expr e => exact calls_of_mem_expr h
  | exprs es =>
    cases es with
    | nil => cases h
    | cons e es =>
      obtain rfl | h := List.mem_cons.mp h
      · exact .head
      obtain ⟨v, m₁, he, h⟩ := mem_following h
      exact List.mem_singleton.mp h ▸ .tail he
  | apply f paren args => exact calls_of_mem_apply h
  | invoke f args => exact List.mem_singleton.mp h ▸ .body
  | stmt s => exact calls_of_mem_stmt h
  | stmts ss =>
    cases ss with
    | nil => cases h
    | cons s ss =>
      obtain rfl | h := List.mem_cons.mp h
      · exact .first
      obtain ⟨completion, m₁, hs, h⟩ := mem_following h
      cases completion with
      | normal => exact List.mem_singleton.mp h ▸ .rest hs
      | returned v => cases h
  | rounds c body =>
    obtain rfl | h := List.mem_cons.mp h
    · exact .condition
    obtain ⟨v, m₁, hc, h⟩ := mem_following h
    split at h
    · next ht =>
      obtain rfl | h := List.mem_cons.mp h
      · exact .round hc ht
      obtain ⟨completion, m₂, hbody, h⟩ := mem_following h
      cases completion with
      | normal => exact List.mem_singleton.mp h ▸ .again hc ht hbody
      | returned v => cases h
    · cases h

theorem mem_calls_iff : q ∈ p.calls ↔ Calls p q := ⟨calls_of_mem, Calls.mem_calls⟩

namespace Run

def discard (x : Run α) : Run Completion := x >>= fun _ => pure .normal

theorem discard_ok {x : Run α} (h : x m = .ok a m') : discard x m = .ok .normal m' := by
  rw [discard, bind_of_ok h]
  rfl

theorem discard_error {x : Run α} (h : x m = .error e m') : discard x m = .error e m' :=
  bind_of_error h

theorem error_of_discard {x : Run α} (h : discard x m = .error e m') : x m = .error e m' := by
  obtain h | ⟨a, m₁, -, h⟩ := bind_error h
  · exact h
  · cases h

theorem ok_of_discard {x : Run α} (h : discard x m = .ok c m') :
    c = .normal ∧ ∃ a, x m = .ok a m' := by
  obtain ⟨a, m₁, hx, h⟩ := bind_ok h
  cases h
  exact ⟨rfl, a, hx⟩

theorem after_discard (m : Machine) (x : Run α) : after m (discard x) = after m x := by
  rw [discard, after_bind, after]
  cases x m <;> rfl

end Run

/-- What the run of code comes to. An expression ends as a statement does that does not return. -/
def Code.run (n : Nat) : Code → Run Completion
  | .expr e => discard (evaluate n e)
  | .exprs es => discard (evaluateAll n es)
  | .apply f paren args => discard (Treewalk.apply n f paren args)
  | .invoke f args => discard (Treewalk.invoke n f args)
  | .stmt s => execute n s
  | .stmts ss => executeAll n ss
  | .rounds c body => iterate n c body

def Point.result (p : Point) : EStateM.Result Halt Machine Completion :=
  p.code.run p.fuel p.machine

theorem Point.after_eq (p : Point) : p.after = Run.after p.machine (p.code.run p.fuel) := by
  obtain ⟨n, code, m⟩ := p
  cases code with
  | expr | exprs | apply | invoke => exact (after_discard m _).symm
  | stmt | stmts | rounds => rfl

theorem Point.current_of_error {p : Point} (h : p.result = .error e m') :
    m'.current = p.machine.current := by
  have hf := p.frame.current
  rwa [p.after_eq, after_of_error h] at hf

theorem checkArity_of_eq {paren : Token} {expected got : Nat} (h : expected = got) (m : Machine) :
    checkArity paren expected got m = .ok () m := by
  rw [checkArity, if_pos h]
  rfl

theorem apply_function {id : FunctionId} (hf : m.heap.functions[id.index]? = some f)
    (ha : f.arity = args.length) :
    Treewalk.apply (n + 1) (.function id) paren args m = invoke n f args m := by
  rw [apply, bind_of_ok (x := heap) rfl, hf]
  exact bind_of_ok (checkArity_of_eq ha m)

theorem apply_cls {cls : ClassId} (hf : m.heap.method? cls initializerName = some f)
    (ha : f.arity = args.length)
    (hb : (do bindMethod f (.object (← newObject cls))) m = .ok bound m₁) :
    ∃ o, Treewalk.apply (n + 1) (.cls cls) paren args m =
      (invoke n bound args >>= fun _ => pure (.object o)) m₁ := by
  refine ⟨(m.heap.addObject ⟨cls, .empty⟩).1, ?_⟩
  cases hb
  rw [apply, bind_of_ok (x := heap) rfl, hf]
  exact bind_of_ok (checkArity_of_eq ha m)

section Inside

variable {x : Run α} {m m₁ : Machine} {parent : ScopeId} {b : Bindings Value}

theorem inside_of_ok (h : x (m.inside parent b) = .ok a m₁) :
    (do within (← newScope parent b) x) m = .ok a { m₁ with current := m.current } :=
  within_of_ok (m := { m with heap := (m.heap.addChild parent b).2 }) h

theorem inside_of_error (h : x (m.inside parent b) = .error e m₁) :
    (do within (← newScope parent b) x) m = .error e { m₁ with current := m.current } :=
  within_of_error (m := { m with heap := (m.heap.addChild parent b).2 }) h

theorem inside_ok (h : (do within (← newScope parent b) x) m = .ok a m') :
    ∃ m₁, x (m.inside parent b) = .ok a m₁ ∧ m' = { m₁ with current := m.current } := by
  cases hx : x (m.inside parent b) with
  | ok c m₁ =>
    cases h.symm.trans (inside_of_ok hx)
    exact ⟨m₁, rfl, rfl⟩
  | error e m₁ => cases h.symm.trans (inside_of_error hx)

end Inside

theorem Calls.halts (h : Calls p q) (he : q.result = .error e m') :
    ∃ s, p.result = .error e { m' with current := s } := by
  cases h with
  | group => exact ⟨m'.current, he⟩
  | unary | assign | get | setObject | callee | binaryLeft | logicalLeft | head =>
    exact ⟨m'.current, discard_error (bind_of_error (error_of_discard he))⟩
  | binaryRight h₁ | arguments h₁ | setValue h₁ | tail h₁ =>
    exact ⟨m'.current,
      discard_error ((bind_of_ok h₁).trans (bind_of_error (error_of_discard he)))⟩
  | logicalRight h₁ hd =>
    refine ⟨m'.current, discard_error ((bind_of_ok h₁).trans ?_)⟩
    rw [hd]
    exact error_of_discard he
  | apply h₁ h₂ =>
    exact ⟨m'.current,
      discard_error ((bind_of_ok h₁).trans ((bind_of_ok h₂).trans (error_of_discard he)))⟩
  | function hf ha =>
    exact ⟨m'.current, discard_error ((apply_function hf ha).trans (error_of_discard he))⟩
  | initializer hf ha hb =>
    obtain ⟨o, heq⟩ := apply_cls hf ha hb
    exact ⟨m'.current, discard_error (heq.trans (bind_of_error (error_of_discard he)))⟩
  -- the machine comes back from a scope of its own
  | @body n f args m =>
    refine ⟨m.current, discard_error ?_⟩
    rw [invoke, ← bind_assoc]
    exact bind_of_error (inside_of_error he)
  | expr | print | var | ifThenCondition | ifElseCondition | ret | superclass | condition =>
    exact ⟨m'.current, bind_of_error (error_of_discard he)⟩
  | @block n body m =>
    exact ⟨m.current, (bind_of_ok (x := current) rfl).trans (inside_of_error he)⟩
  | ifThenBranch h₁ ht | ifElseThen h₁ ht | ifElseElse h₁ ht =>
    refine ⟨m'.current, (bind_of_ok h₁).trans ?_⟩
    rw [ht]
    exact he
  | loop => exact ⟨m'.current, he⟩
  | first => exact ⟨m'.current, bind_of_error he⟩
  | rest h₁ => exact ⟨m'.current, (bind_of_ok h₁).trans he⟩
  | round h₁ ht =>
    refine ⟨m'.current, (bind_of_ok h₁).trans ?_⟩
    rw [ht]
    exact bind_of_error he
  | again h₁ ht h₂ =>
    refine ⟨m'.current, (bind_of_ok h₁).trans ?_⟩
    rw [ht]
    exact (bind_of_ok h₂).trans he

def Point.Completes (p : Point) : Prop := ∃ m', p.result = .ok .normal m'

section Pairwise

variable {R : Point → Point → Prop} {n : Nat} {m : Machine}

theorem pairwise_following {r : EStateM.Result Halt Machine α} {next : α → Machine → List Point}
    (h : ∀ a m₁, r = .ok a m₁ → (next a m₁).Pairwise R) : (following r next).Pairwise R := by
  cases r with
  | ok a m₁ => exact h a m₁ rfl
  | error e m₁ => exact .nil

theorem pairwise_cons_following {r : EStateM.Result Halt Machine α}
    {next : α → Machine → List Point}
    (hq : ∀ a m₁, r = .ok a m₁ → ∀ q' ∈ next a m₁, q.Completes)
    (h : ∀ a m₁, r = .ok a m₁ → (next a m₁).Pairwise fun q _ => q.Completes) :
    (q :: following r next).Pairwise fun q _ => q.Completes :=
  .cons (fun q' hmem => by
    obtain ⟨a, m₁, hr, hnext⟩ := mem_following hmem
    exact hq a m₁ hr q' hnext) (pairwise_following h)

theorem pairwise_after_expr {e : Expr} {next : Value → Machine → List Point}
    (h : ∀ a m₁, (next a m₁).Pairwise fun q _ => q.Completes) :
    (⟨n, .expr e, m⟩ :: following (evaluate n e m) next).Pairwise fun q _ => q.Completes :=
  pairwise_cons_following (fun _ m₁ he _ _ => ⟨m₁, discard_ok he⟩) fun a m₁ _ => h a m₁

theorem pairwise_after_stmt {s : Stmt} {next : Machine → Point} :
    (⟨n, .stmt s, m⟩ :: following (execute n s m) fun completion m₁ =>
      match completion with
      | .normal => [next m₁]
      | .returned _ => []).Pairwise fun q _ => q.Completes := by
  refine pairwise_cons_following (fun completion m₁ h => ?_) fun completion m₁ _ => ?_
  · cases completion with
    | normal => exact fun _ _ => ⟨m₁, h⟩
    | returned => exact fun _ hnext => absurd hnext List.not_mem_nil
  · cases completion with
    | normal => exact List.pairwise_singleton _ _
    | returned => exact .nil

theorem pairwise_expr (e : Expr) : ((Code.expr e).calls n m).Pairwise fun q _ => q.Completes := by
  cases e with
  | literal | name | receiver | inherited => exact .nil
  | group | unary | assign | get => exact List.pairwise_singleton _ _
  | binary => exact pairwise_after_expr fun _ _ => List.pairwise_singleton _ _
  | logical =>
    refine pairwise_after_expr fun _ _ => ?_
    split
    · exact .nil
    · exact List.pairwise_singleton _ _
  | call =>
    exact pairwise_after_expr fun _ _ => pairwise_cons_following
      (fun _ m₂ h _ _ => ⟨m₂, discard_ok h⟩) fun _ _ _ => List.pairwise_singleton _ _
  | set =>
    refine pairwise_after_expr fun _ _ => ?_
    split
    · exact List.pairwise_singleton _ _
    · exact .nil

theorem pairwise_apply (f : Value) (paren : Token) (args : List Value) :
    ((Code.apply f paren args).calls n m).Pairwise R := by
  cases f with
  | function id =>
    rw [Code.calls]
    split
    · split
      · exact List.pairwise_singleton _ _
      · exact .nil
    · exact .nil
  | cls id =>
    rw [Code.calls]
    split
    · split
      · exact pairwise_following fun _ _ _ => List.pairwise_singleton _ _
      · exact .nil
    · exact .nil
  | _ => exact .nil

theorem pairwise_stmt (s : Stmt) : ((Code.stmt s).calls n m).Pairwise fun q _ => q.Completes := by
  cases s with
  | expr | print | block | loop => exact List.pairwise_singleton _ _
  | var _ init => cases init <;> first | exact .nil | exact List.pairwise_singleton _ _
  | ifThen =>
    refine pairwise_after_expr fun _ _ => ?_
    split
    · exact List.pairwise_singleton _ _
    · exact .nil
  | ifElse => exact pairwise_after_expr fun _ _ => List.pairwise_singleton _ _
  | function => exact .nil
  | ret _ value => cases value <;> first | exact .nil | exact List.pairwise_singleton _ _
  | classDecl _ superclass _ =>
    cases superclass <;> first | exact .nil | exact List.pairwise_singleton _ _

theorem Point.pairwise_calls (p : Point) : p.calls.Pairwise fun q _ => q.Completes := by
  obtain ⟨_ | n, code, m⟩ := p
  · exact .nil
  rw [Point.calls]
  cases code with
  | expr e => exact pairwise_expr e
  | exprs es =>
    cases es with
    | nil => exact .nil
    | cons => exact pairwise_after_expr fun _ _ => List.pairwise_singleton _ _
  | apply f paren args => exact pairwise_apply f paren args
  | invoke => exact List.pairwise_singleton _ _
  | stmt s => exact pairwise_stmt s
  | stmts ss =>
    cases ss with
    | nil => exact .nil
    | cons => exact pairwise_after_stmt
  | rounds c body =>
    refine pairwise_after_expr fun _ _ => ?_
    split
    · exact pairwise_after_stmt
    · exact .nil

theorem Point.calls_eq_of_not_completes {p : Point} (hq : Calls p q) (hn : ¬ q.Completes) :
    ∃ before, p.calls = before ++ [q] ∧ ∀ r ∈ before, r.Completes := by
  obtain ⟨before, after, heq⟩ := List.append_of_mem hq.mem_calls
  -- whatever came after it would have it complete
  have hp := p.pairwise_calls
  rw [heq, List.pairwise_append, List.pairwise_cons] at hp
  obtain ⟨-, ⟨hafter, -⟩, hbefore⟩ := hp
  obtain rfl : after = [] := List.eq_nil_iff_forall_not_mem.mpr fun r hr => hn (hafter r hr)
  exact ⟨before, heq, fun r hr => hbefore r hr q List.mem_cons_self⟩

end Pairwise

/-- A point and all that its run goes through, but for what runs inside code that is not entered. -/
def Point.visits (enters : Code → Bool) : Nat → Point → List Point
  | 0, p => [p]
  | n + 1, p => p :: if enters p.code then p.calls.flatMap (visits enters n) else []

/-- All that the run of a point goes through, each point before those inside it. -/
def Point.traceIn (enters : Code → Bool) (p : Point) : List Point := p.visits enters p.fuel

def Code.isInvoke : Code → Bool
  | .invoke _ _ => true
  | _ => false

def Point.trace (p : Point) : List Point := p.traceIn fun _ => true

/-- What the run of a point goes through outside of the functions that it calls. -/
def Point.activation (p : Point) : List Point := p.traceIn fun code => !code.isInvoke

theorem Point.traceIn_eq (enters : Code → Bool) (p : Point) : p.traceIn enters =
    p :: if enters p.code then p.calls.flatMap (traceIn enters) else [] := by
  obtain ⟨_ | n, code, m⟩ := p
  · simp [traceIn, visits, calls]
  · have hcalls : ∀ q ∈ calls ⟨n + 1, code, m⟩, q.visits enters n = q.traceIn enters := by
      intro q hq
      have hfuel := (calls_of_mem hq).fuel
      rw [traceIn, show q.fuel = n by simpa using hfuel.symm]
    rw [traceIn, visits, List.flatMap_congr hcalls]

theorem Point.self_mem_traceIn (enters : Code → Bool) (p : Point) : p ∈ p.traceIn enters := by
  rw [traceIn_eq]
  exact List.mem_cons_self

theorem Calls.traceIn_eq (enters : Code → Bool) (hq : Calls p q) (hn : ¬ q.Completes)
    (he : enters p.code = true) :
    ∃ before : List Point, (∀ r ∈ before, Calls p r ∧ r.Completes) ∧
      p.traceIn enters = p :: before.flatMap (Point.traceIn enters) ++ q.traceIn enters := by
  obtain ⟨before, heq, hbefore⟩ := Point.calls_eq_of_not_completes hq hn
  refine ⟨before, fun r hr => ⟨calls_of_mem (heq ▸ List.mem_append_left _ hr), hbefore r hr⟩, ?_⟩
  rw [p.traceIn_eq, if_pos he, heq, List.flatMap_append, List.flatMap_singleton, List.cons_append]

theorem Point.mem_trace_iff {p q : Point} : q ∈ p.trace ↔ Within p q := by
  constructor
  · intro hq
    induction hn : p.fuel generalizing p with
    | zero =>
      rw [trace, traceIn, hn] at hq
      exact List.mem_singleton.mp hq ▸ .refl
    | succ n ih =>
      rw [trace, traceIn_eq] at hq
      obtain rfl | hq := List.mem_cons.mp hq
      · exact .refl
      · obtain ⟨r, hr, hq⟩ := List.mem_flatMap.mp hq
        have hr := mem_calls_iff.mp hr
        have hfuel := hr.fuel
        exact .head hr (ih hq (by omega))
  · intro hq
    induction hq using Relation.ReflTransGen.head_induction_on with
    | refl => exact q.self_mem_traceIn _
    | head hr _ ih =>
      rw [trace, traceIn_eq]
      exact List.mem_cons_of_mem _ (List.mem_flatMap.mpr ⟨_, mem_calls_iff.mpr hr, ih⟩)

end Treewalk
