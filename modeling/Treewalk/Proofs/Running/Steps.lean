import Treewalk.Evaluation

/-!
What runs are made of. The evaluator puts a few kinds of step together, one after another and inside
scopes; what holds of these steps holds of every run.
-/

namespace Treewalk

open Run in
def createClass (name : Token) (superclass : Option ClassId) (methods : List (FunctionDecl Stmt))
    (scope : ScopeId) : Run Unit := do
  let ancestors := (← heap).ancestorsFrom superclass
  let closures := methods.map fun decl =>
    (decl.name.lexeme, (⟨decl, scope, decl.name.lexeme = initializerName⟩ : Closure))
  let id ← newClass ⟨name.lexeme, ancestors, .ofList closures⟩
  reassign name (.cls id)

namespace Run

/-- Runs that are put together from steps: they put faults at the given tokens, and they write
only if they may. Nothing but `write` has to do with the sink. -/
inductive Composed (T : Token → Prop) (writes : Prop) : {α : Type} → Run α → Prop
  | pure {α : Type} (a : α) : Composed T writes (pure a)
  | exhausted {α : Type} : Composed T writes (exhausted : Run α)
  | fail {α : Type} (fault : RuntimeFault) {token : Token} (ht : T token) :
      Composed T writes (fail fault token : Run α)
  | write (hw : writes) (text : String) : Composed T writes (write text)
  | change {α : Type} (f : Heap → α × Heap) :
      Composed T writes fun m => .ok (f m.heap).1 { m with heap := (f m.heap).2 }
  | look {α : Type} (f : Machine → Run α) (hf : ∀ m sink, f { m with sink } = f m)
      (h : ∀ m, Composed T writes (f m)) : Composed T writes fun m => f m m
  | bind {α β : Type} {x : Run α} {f : α → Run β} (hx : Composed T writes x)
      (hf : ∀ a, Composed T writes (f a)) : Composed T writes (x >>= f)
  | within {α : Type} (scope : ScopeId) {x : Run α} (hx : Composed T writes x) :
      Composed T writes (within scope x)

namespace Composed

variable {α : Type} {T : Token → Prop} {writes : Prop}

theorem ite {c : Prop} [Decidable c] {x y : Run α} (hx : Composed T writes x)
    (hy : Composed T writes y) : Composed T writes (if c then x else y) := by
  split
  · exact hx
  · exact hy

theorem get {f : Machine → Run α} (hf : ∀ m sink, f { m with sink } = f m)
    (h : ∀ m, Composed T writes (f m)) : Composed T writes (MonadState.get >>= f) :=
  .look f hf h

theorem heap : Composed T writes heap :=
  .look (fun m => Pure.pure m.heap) (fun _ _ => rfl) fun _ => .pure _

theorem current : Composed T writes current :=
  .look (fun m => Pure.pure m.current) (fun _ _ => rfl) fun _ => .pure _

theorem writeAll (hw : writes) : (texts : List String) → Composed T writes (writeAll texts)
  | [] => .pure ()
  | text :: texts => (write hw text).bind fun _ => writeAll hw texts

theorem print (hw : writes) (v : Value) : Composed T writes (print v) :=
  heap.bind fun _ => .writeAll hw _

theorem define (name : String) (v : Value) : Composed T writes (define name v) :=
  .look (fun m m' => .ok () { m' with heap := m'.heap.define m.current name v }) (fun _ _ => rfl)
    fun m => .change fun h => ((), h.define m.current name v)

theorem defineIn (scope? : Option ScopeId) {name : Token} (hn : T name) (v : Value) :
    Composed T writes (fun m => match scope? with
      | some scope => .ok () { m with heap := m.heap.define scope name.lexeme v }
      | none => .error (.fault (undefined name)) m) := by
  cases scope? with
  | some scope => exact .change fun h => ((), h.define scope name.lexeme v)
  | none => exact .fail _ hn

theorem reassign {name : Token} (hn : T name) (v : Value) : Composed T writes (reassign name v) :=
  .look (fun m m' => match m.heap.owner? m.current name.lexeme with
    | some scope => .ok () { m' with heap := m'.heap.define scope name.lexeme v }
    | none => .error (.fault (undefined name)) m') (fun _ _ => rfl)
    fun m => defineIn (m.heap.owner? m.current name.lexeme) hn v

theorem assign {ref : Ref} (hr : T ref.token) (v : Value) : Composed T writes (assign ref v) :=
  .look (fun m m' => match m.owner? ref with
    | some scope => .ok () { m' with heap := m'.heap.define scope ref.token.lexeme v }
    | none => .error (.fault (undefined ref.token)) m') (fun _ _ => rfl)
    fun m => defineIn (m.owner? ref) hr v

theorem found (v? : Option Value) {name : Token} (hn : T name) :
    Composed T writes (fun m => match v? with
      | some v => .ok v m
      | none => .error (.fault (undefined name)) m) := by
  cases v? with
  | some v => exact .pure v
  | none => exact .fail _ hn

theorem read {ref : Ref} (hr : T ref.token) : Composed T writes (read ref) :=
  .look (fun m m' => match m.find? ref with
    | some v => .ok v m'
    | none => .error (.fault (undefined ref.token)) m') (fun _ _ => rfl)
    fun m => found (m.find? ref) hr

theorem newScope (parent : ScopeId) (bindings : Bindings Value) :
    Composed T writes (newScope parent bindings) :=
  .change fun h => h.addChild parent bindings

theorem newFunction (f : Closure) : Composed T writes (newFunction f) :=
  .change fun h => (Value.function (h.addFunction f).1, (h.addFunction f).2)

theorem newClass (c : Class) : Composed T writes (newClass c) := .change fun h => h.addClass c

theorem newObject (cls : ClassId) : Composed T writes (newObject cls) :=
  .change fun h => h.addObject ⟨cls, .empty⟩

theorem setField (o : ObjectId) (name : String) (v : Value) :
    Composed T writes (setField o name v) :=
  .change fun h => ((), h.setField o name v)

theorem bindMethod (method : Closure) (receiver : Value) :
    Composed T writes (bindMethod method receiver) :=
  .change fun h => h.bindMethod method receiver

section Operators

variable {op : Token} (ho : T op)

include ho

theorem unary (v : Value) : Composed T writes (unary op v) := by
  unfold Run.unary
  split
  · exact .pure _
  · exact .fail _ ho
  · exact .pure _
  · exact .fail _ ho

theorem arithmetic (f : Float → Float → Value) (a b : Value) :
    Composed T writes (arithmetic op f a b) := by
  unfold Run.arithmetic
  split
  · exact .pure _
  · exact .fail _ ho

theorem add (a b : Value) : Composed T writes (add op a b) := by
  unfold Run.add
  split
  · exact .pure _
  · exact .pure _
  · exact .fail _ ho

theorem binary (a b : Value) : Composed T writes (binary op a b) := by
  unfold Run.binary
  split
  · exact add ho _ _
  · exact .pure _
  · exact .pure _
  · exact arithmetic ho _ _ _
  · exact arithmetic ho _ _ _
  · exact arithmetic ho _ _ _
  · exact arithmetic ho _ _ _
  · exact arithmetic ho _ _ _
  · exact arithmetic ho _ _ _
  · exact arithmetic ho _ _ _
  · exact .fail _ ho

end Operators

theorem checkArity {paren : Token} (hp : T paren) (expected got : Nat) :
    Composed T writes (checkArity paren expected got) :=
  ite (.pure _) (.fail _ hp)

theorem boundMethod (method : Closure) (receiver : Value) :
    Composed T writes (do Run.newFunction (← Run.bindMethod method receiver)) :=
  (bindMethod _ _).bind fun _ => newFunction _

theorem property (o : ObjectId) {name : Token} (hn : T name) :
    Composed T writes (property o name) := by
  refine heap.bind fun h => ?_
  split
  · exact .fail _ hn
  split
  · exact .pure _
  split
  · exact boundMethod _ _
  · exact .fail _ hn

theorem inherited {ref : Ref} {method : Token} (hr : T ref.token) (hm : T method) :
    Composed T writes (inherited ref method) := by
  unfold Run.inherited
  refine get (fun _ _ => rfl) fun m => ?_
  split
  · exact .fail _ hr
  · exact .fail _ hr
  split
  · split
    · exact boundMethod _ _
    · exact .fail _ hm
  · exact .fail _ hr

theorem createClass {name : Token} (hn : T name) (superclass : Option ClassId)
    (methods : List (FunctionDecl Stmt)) (scope : ScopeId) :
    Composed T writes (createClass name superclass methods scope) :=
  heap.bind fun _ => (newClass _).bind fun _ => reassign hn _

theorem declareClass {name : Token} (hn : T name) (superclass : Option ClassId)
    (methods : List (FunctionDecl Stmt)) :
    Composed T writes (declareClass name superclass methods) := by
  refine (define _ _).bind fun _ => ?_
  cases superclass with
  | none => exact current.bind (createClass hn none methods)
  | some parent =>
    exact current.bind fun _ => (newScope _ _).bind (createClass hn (some parent) methods)

theorem native (id : NativeId) {paren : Token} (hp : T paren) (n : Nat) (args : List Value) :
    Composed T writes (apply (n + 1) (.native id) paren args) := by
  rw [apply]
  refine get (fun _ _ => rfl) fun m => ?_
  split
  · refine (checkArity hp _ _).bind fun _ => heap.bind fun h => ?_
    split
    · exact .pure _
    · exact .fail _ hp
  · exact .fail _ hp

theorem yielded (f : Closure) (completion : Completion) :
    Composed T writes (yielded f completion) := by
  unfold Run.yielded
  refine ite (heap.bind fun _ => .pure _) ?_
  split
  · exact .pure _
  · exact .pure _

end Composed

end Run

open Run

abbrev Run.Evaluates (x : Run α) : Prop := Composed (fun _ => True) True x

mutual

theorem evaluates_evaluate : (n : Nat) → (e : Expr) → Evaluates (evaluate n e)
  | 0, _ => .exhausted
  | _ + 1, .literal _ => .pure _
  | n + 1, .group e => evaluates_evaluate n e
  | n + 1, .unary op e => (evaluates_evaluate n e).bind fun v => .unary trivial v
  | n + 1, .binary l op r => (evaluates_evaluate n l).bind fun a =>
      (evaluates_evaluate n r).bind fun b => .binary trivial a b
  | n + 1, .logical l _ r => (evaluates_evaluate n l).bind fun _ =>
      .ite (.pure _) (evaluates_evaluate n r)
  | _ + 1, .name _ => .read trivial
  | n + 1, .assign ref e => (evaluates_evaluate n e).bind fun v =>
      (Composed.assign trivial v).bind fun _ => .pure _
  | n + 1, .call callee paren args => (evaluates_evaluate n callee).bind fun f =>
      (evaluates_evaluateAll n args).bind fun vs => evaluates_apply n f paren vs
  | n + 1, .get o name => (evaluates_evaluate n o).bind fun v => by
    cases v with
    | object id => exact .property id trivial
    | _ => exact .fail _ trivial
  | n + 1, .set o name e => (evaluates_evaluate n o).bind fun v => by
    cases v with
    | object id =>
      exact (evaluates_evaluate n e).bind fun _ => (Composed.setField _ _ _).bind fun _ => .pure _
    | _ => exact .fail _ trivial
  | _ + 1, .receiver _ => .read trivial
  | _ + 1, .inherited _ _ => .inherited trivial trivial

theorem evaluates_evaluateAll : (n : Nat) → (es : List Expr) → Evaluates (evaluateAll n es)
  | 0, _ => .exhausted
  | _ + 1, [] => .pure _
  | n + 1, e :: es => (evaluates_evaluate n e).bind fun _ =>
      (evaluates_evaluateAll n es).bind fun _ => .pure _

theorem evaluates_apply : (n : Nat) → (f : Value) → (paren : Token) → (args : List Value) →
    Evaluates (apply n f paren args)
  | 0, _, _, _ => .exhausted
  | n + 1, f, paren, args => by
    cases f with
    | native id => exact .native id trivial n args
    | function id =>
      refine Composed.heap.bind fun h => ?_
      split
      · exact (Composed.checkArity trivial _ _).bind fun _ => evaluates_invoke n _ args
      · exact .fail _ trivial
    | cls id =>
      refine Composed.heap.bind fun h => (Composed.checkArity trivial _ _).bind fun _ =>
        (Composed.newObject id).bind fun o => ?_
      split
      · exact (Composed.bindMethod _ _).bind fun f =>
          (evaluates_invoke n f args).bind fun _ => .pure _
      · exact .pure _
    | _ => exact .fail _ trivial

theorem evaluates_invoke : (n : Nat) → (f : Closure) → (args : List Value) →
    Evaluates (invoke n f args)
  | 0, _, _ => .exhausted
  | n + 1, f, _ => (Composed.newScope _ _).bind fun frame =>
      ((evaluates_executeAll n f.decl.body).within frame).bind fun c => .yielded f c

theorem evaluates_execute : (n : Nat) → (s : Stmt) → Evaluates (execute n s)
  | 0, _ => .exhausted
  | n + 1, .expr e => (evaluates_evaluate n e).bind fun _ => .pure _
  | n + 1, .print e => (evaluates_evaluate n e).bind fun v =>
      (Composed.print trivial v).bind fun _ => .pure _
  | _ + 1, .var _ none => (Composed.define _ _).bind fun _ => .pure _
  | n + 1, .var _ (some e) => (evaluates_evaluate n e).bind fun _ =>
      (Composed.define _ _).bind fun _ => .pure _
  | n + 1, .block body => Composed.current.bind fun _ =>
      (Composed.newScope _ _).bind fun scope => (evaluates_executeAll n body).within scope
  | n + 1, .ifThen c t => (evaluates_evaluate n c).bind fun _ =>
      .ite (evaluates_execute n t) (.pure _)
  | n + 1, .ifElse c t e => (evaluates_evaluate n c).bind fun _ =>
      .ite (evaluates_execute n t) (evaluates_execute n e)
  | n + 1, .loop c body => evaluates_iterate n c body
  | _ + 1, .function _ => Composed.current.bind fun _ => (Composed.newFunction _).bind fun _ =>
      (Composed.define _ _).bind fun _ => .pure _
  | _ + 1, .ret _ none => .pure _
  | n + 1, .ret _ (some e) => (evaluates_evaluate n e).bind fun _ => .pure _
  | _ + 1, .classDecl name none methods =>
    (Composed.declareClass trivial none methods).bind fun _ => .pure _
  | n + 1, .classDecl name (some e) methods => (evaluates_evaluate n e).bind fun v => by
    cases v with
    | cls parent =>
      exact (Composed.declareClass trivial (some parent) methods).bind fun _ => .pure _
    | _ => exact .fail _ trivial

theorem evaluates_executeAll : (n : Nat) → (ss : List Stmt) → Evaluates (executeAll n ss)
  | 0, _ => .exhausted
  | _ + 1, [] => .pure _
  | n + 1, s :: ss => (evaluates_execute n s).bind fun c => by
    cases c with
    | normal => exact evaluates_executeAll n ss
    | returned v => exact .pure _

theorem evaluates_iterate : (n : Nat) → (c : Expr) → (body : Stmt) → Evaluates (iterate n c body)
  | 0, _, _ => .exhausted
  | n + 1, c, body => (evaluates_evaluate n c).bind fun v =>
    .ite ((evaluates_execute n body).bind fun completion => by
      cases completion with
      | normal => exact evaluates_iterate n c body
      | returned v => exact .pure _) (.pure _)

end

theorem evaluates_interpret (fuel : Nat) (ss : List Stmt) : Evaluates (interpret fuel ss) := by
  induction ss with
  | nil => exact .pure _
  | cons s ss ih => exact (evaluates_execute fuel s).bind fun _ => ih

namespace Run

variable {α β : Type} {T : Token → Prop} {writes : Prop}

theorem bind_of_ok {x : Run α} {f : α → Run β} {m m₁ : Machine} (h : x m = .ok a m₁) :
    (x >>= f) m = f a m₁ := by
  simp only [Bind.bind, EStateM.bind, h]

theorem bind_of_error {x : Run α} {f : α → Run β} {m m₁ : Machine} (h : x m = .error e m₁) :
    (x >>= f) m = .error e m₁ := by
  simp only [Bind.bind, EStateM.bind, h]

theorem within_of_ok {x : Run α} {m m₁ : Machine} (h : x { m with current := scope } = .ok a m₁) :
    within scope x m = .ok a { m₁ with current := m.current } := by
  simp only [within, h]

theorem within_of_error {x : Run α} {m m₁ : Machine}
    (h : x { m with current := scope } = .error e m₁) :
    within scope x m = .error e { m₁ with current := m.current } := by
  simp only [within, h]

theorem bind_ok {x : Run α} {f : α → Run β} {m m' : Machine} (h : (x >>= f) m = .ok b m') :
    ∃ a m₁, x m = .ok a m₁ ∧ f a m₁ = .ok b m' := by
  simp only [Bind.bind, EStateM.bind] at h
  split at h
  · next a m₁ hx => exact ⟨a, m₁, hx, h⟩
  · cases h

theorem bind_error {x : Run α} {f : α → Run β} {m m' : Machine}
    (h : (x >>= f) m = .error e m') :
    x m = .error e m' ∨ ∃ a m₁, x m = .ok a m₁ ∧ f a m₁ = .error e m' := by
  simp only [Bind.bind, EStateM.bind] at h
  split at h
  · next a m₁ hx => exact .inr ⟨a, m₁, hx, h⟩
  · next hx =>
    cases h
    exact .inl hx

theorem within_error {x : Run α} {m m' : Machine} (h : within scope x m = .error e m') :
    ∃ m₁, x { m with current := scope } = .error e m₁ ∧ m' = { m₁ with current := m.current } := by
  simp only [within] at h
  split at h
  · cases h
  · next m₁ hx =>
    cases h
    exact ⟨m₁, hx, rfl⟩

theorem write_cases (text : String) (m : Machine) :
    text.isEmpty = true ∧ write text m = .ok () m ∨
    text.isEmpty = false ∧ m.sink.refusal m.sink.offered text = none ∧ write text m =
      .ok () { m with sink := { m.sink with
        offered := m.sink.offered.push text, written := m.sink.written.push text } } ∨
    text.isEmpty = false ∧ ∃ refusal, m.sink.refusal m.sink.offered text = some refusal ∧
      write text m = .error (.fault (.output refusal.reason)) { m with sink := { m.sink with
        offered := m.sink.offered.push text
        written := m.sink.written.push (refusal.front text) } } := by
  unfold write Sink.offer
  cases text.isEmpty with
  | true => exact .inl ⟨rfl, rfl⟩
  | false =>
    cases m.sink.refusal m.sink.offered text with
    | none => exact .inr (.inl ⟨rfl, rfl, rfl⟩)
    | some refusal => exact .inr (.inr ⟨rfl, refusal, rfl, rfl⟩)

theorem write_error {text : String} {m m' : Machine} (h : write text m = .error e m') :
    ∃ reason, e = .fault (.output reason) := by
  obtain ⟨-, hw⟩ | ⟨-, -, hw⟩ | ⟨-, refusal, -, hw⟩ := write_cases text m <;> rw [hw] at h <;> cases h
  exact ⟨refusal.reason, rfl⟩

theorem writeAll_eq (texts : List String) (m : Machine) :
    writeAll texts m = match m.sink.offerAll texts with
      | (none, sink) => .ok () { m with sink }
      | (some reason, sink) => .error (.fault (.output reason)) { m with sink } := by
  induction texts generalizing m with
  | nil => rfl
  | cons text texts ih =>
    rw [Sink.offerAll]
    cases ho : m.sink.offer text with
    | mk refused sink =>
      cases refused with
      | none =>
        have hw : write text m = .ok () { m with sink } := by rw [write, ho]
        exact (bind_of_ok hw).trans (ih { m with sink })
      | some reason =>
        have hw : write text m = .error (.fault (.output reason)) { m with sink } := by
          rw [write, ho]
        exact bind_of_error hw

theorem Composed.faults {x : Run α} (hx : Composed T writes x) {m m' : Machine} {d : Diagnostic}
    (h : x m = .error (.fault d) m') :
    (∃ fault t, T t ∧ d = .runtime fault t) ∨ writes ∧ ∃ reason, d = .output reason := by
  induction hx generalizing m m' with
  | pure | exhausted | change => cases h
  | fail fault ht =>
    cases h
    exact .inl ⟨_, _, ht, rfl⟩
  | write hw text =>
    obtain ⟨reason, hd⟩ := write_error h
    cases hd
    exact .inr ⟨hw, reason, rfl⟩
  | look f _ _ ih => exact ih m h
  | bind _ _ ihx ihf =>
    obtain h | ⟨a, m₁, -, h⟩ := bind_error h
    · exact ihx h
    · exact ihf a h
  | within _ _ ih =>
    obtain ⟨m₁, h, -⟩ := within_error h
    exact ih h

theorem after_of_ok {m m' : Machine} {x : Run α} (h : x m = .ok a m') : after m x = m' := by
  rw [after, h]

theorem after_of_error {m m' : Machine} {x : Run α} (h : x m = .error e m') : after m x = m' := by
  rw [after, h]

theorem after_bind (m : Machine) (x : Run α) (f : α → Run β) :
    after m (x >>= f) = match x m with
      | .ok a m₁ => after m₁ (f a)
      | .error _ m₁ => m₁ := by
  simp only [after, Bind.bind, EStateM.bind]
  cases x m <;> rfl

theorem after_within (m : Machine) (scope : ScopeId) (x : Run α) :
    after m (within scope x) =
      { after { m with current := scope } x with current := m.current } := by
  simp only [after, within]
  cases x { m with current := scope } <;> rfl

theorem Composed.related {R : Machine → Machine → Prop} (hrefl : ∀ m, R m m)
    (htrans : ∀ m m₁ m₂, R m m₁ → R m₁ m₂ → R m m₂) (hheap : ∀ m heap, R m { m with heap })
    (hwrite : ∀ m text, R m (after m (Run.write text)))
    (hwithin : ∀ m scope m₁, R { m with current := scope } m₁ →
      R m { m₁ with current := m.current })
    {x : Run α} (h : Composed T writes x) (m : Machine) : R m (after m x) := by
  induction h generalizing m with
  | pure | exhausted | fail => exact hrefl m
  | write _ text => exact hwrite m text
  | change f => exact hheap m _
  | look f _ _ ih => exact ih m m
  | @bind _ _ x f _ _ ihx ihf =>
    have hm := ihx m
    rw [after_bind]
    cases hx : x m with
    | ok a m₁ =>
      rw [after_of_ok hx] at hm
      exact htrans m m₁ _ hm (ihf a m₁)
    | error e m₁ =>
      rw [after_of_error hx] at hm
      exact hm
  | within scope _ ih =>
    rw [after_within]
    exact hwithin m scope _ (ih _)

structure Frame (m m' : Machine) : Prop where
  natives : m'.natives = m.natives
  globals : m'.globals = m.globals
  current : m'.current = m.current
  distances : m'.distances = m.distances

theorem after_write (m : Machine) (text : String) :
    ∃ sink, after m (write text) = { m with sink } := by
  obtain ⟨-, hw⟩ | ⟨-, -, hw⟩ | ⟨-, _, -, hw⟩ := write_cases text m
  · exact ⟨m.sink, after_of_ok hw⟩
  · exact ⟨_, after_of_ok hw⟩
  · exact ⟨_, after_of_error hw⟩

theorem after_print (v : Value) (m : Machine) : ∃ sink, after m (print v) = { m with sink } := by
  have hprint : print v m = writeAll (m.heap.line v) m := rfl
  rw [after, hprint, writeAll_eq]
  obtain ⟨_ | reason, sink⟩ := m.sink.offerAll (m.heap.line v) <;> exact ⟨sink, rfl⟩

theorem Composed.frame {x : Run α} (h : Composed T writes x) (m : Machine) :
    Frame m (after m x) := by
  refine h.related (fun _ => ⟨rfl, rfl, rfl, rfl⟩) ?_ (fun _ _ => ⟨rfl, rfl, rfl, rfl⟩) ?_ ?_ m
  · intro m m₁ m₂ h₁ h₂
    exact ⟨h₂.natives.trans h₁.natives, h₂.globals.trans h₁.globals, h₂.current.trans h₁.current,
      h₂.distances.trans h₁.distances⟩
  · intro m text
    obtain ⟨sink, h⟩ := after_write m text
    rw [h]
    exact ⟨rfl, rfl, rfl, rfl⟩
  · intro m scope m₁ h
    exact ⟨h.natives, h.globals, rfl, h.distances⟩

end Run

end Treewalk
