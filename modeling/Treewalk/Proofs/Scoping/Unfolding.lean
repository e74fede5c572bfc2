import Treewalk.Proofs.Scoping.Timeline

namespace Treewalk

open Run

section Members

variable {n : Nat} {m m₁ : Machine} {p : Point} {e : Expr}

theorem property_eq (id : ObjectId) (name : Token) : property id name m =
    (m.heap.objects[id.index]?).elim (fail (.undefinedProperty name.lexeme) name m) fun obj =>
      (obj.fields.get? name.lexeme).elim
        ((m.heap.method? obj.cls name.lexeme).elim (fail (.undefinedProperty name.lexeme) name m)
          fun f => (do newFunction (← bindMethod f (.object id)) : Run Value) m)
        fun v => .ok v m := by
  simp only [property, Bind.bind, EStateM.bind, heap]
  cases m.heap.objects[id.index]? with
  | none => rfl
  | some obj =>
    dsimp only [Option.elim]
    cases obj.fields.get? name.lexeme with
    | some v => rfl
    | none => cases m.heap.method? obj.cls name.lexeme <;> rfl

theorem Event.Opened.of_get {o : Expr} {name : Token} {e : Event}
    (he : e.Opened ⟨n + 1, .expr (.get o name), m⟩) : ∃ id m₁ obj f,
      evaluate n o m = .ok (.object id) m₁ ∧ m₁.heap.objects[id.index]? = some obj ∧
      obj.fields.get? name.lexeme = none ∧ m₁.heap.method? obj.cls name.lexeme = some f := by
  obtain ⟨_, _, _, -, ha⟩ := he
  cases ha with
  | receiver hb =>
    cases hb with
    | property ho hobj hfield hf => exact ⟨_, _, _, _, ho, hobj, hfield, hf⟩

theorem unfolds_property {o : Expr} {name : Token} {id : ObjectId}
    (ho : evaluate n o m = .ok (.object id) m₁) :
    Unfolds ⟨n + 1, .expr (.get o name), m⟩ m₁ (property id name)
      (·.Opened ⟨n + 1, .expr (.get o name), m⟩) := by
  have hfound {e : Event} (he : e.Opened ⟨n + 1, .expr (.get o name), m⟩) : ∃ obj f,
      m₁.heap.objects[id.index]? = some obj ∧ obj.fields.get? name.lexeme = none ∧
        m₁.heap.method? obj.cls name.lexeme = some f := by
    obtain ⟨_, _, obj, f, ho', h⟩ := he.of_get
    cases ho.symm.trans ho'
    exact ⟨obj, f, h⟩
  cases hobj : m₁.heap.objects[id.index]? with
  | none =>
    refine .congr (fail (.undefinedProperty name.lexeme) name) ?_ (.idle rfl fun e he => ?_)
    · simp only [property_eq, hobj, Option.elim]
    · simpa [hobj] using hfound he
  | some obj =>
    cases hfield : obj.fields.get? name.lexeme with
    | some v =>
      refine .congr (pure v) ?_ (.idle rfl fun e he => ?_)
      · simp only [property_eq, hobj, hfield, Option.elim]
        rfl
      · simpa [hobj, hfield] using hfound he
    | none =>
      cases hf : m₁.heap.method? obj.cls name.lexeme with
      | none =>
        refine .congr (fail (.undefinedProperty name.lexeme) name) ?_ (.idle rfl fun e he => ?_)
        · simp only [property_eq, hobj, hfield, hf, Option.elim]
        · simpa [hobj, hfield, hf] using hfound he
      | some f =>
        refine .congr (do newFunction (← bindMethod f (.object id))) ?_
          (.bound (.property ho hobj hfield hf) fun _ he => he)
        simp only [property_eq, hobj, hfield, hf, Option.elim]

theorem unfolds_inherited {ref : Ref} {name : Token} {d : Nat} {parent : ClassId} {receiver : Value}
    (hd : m.distances[ref.id]? = some (d + 1))
    (hsuper : m.heap.lookupAt? m.current (d + 1) "super" = some (.cls parent))
    (hthis : m.heap.lookupAt? m.current d "this" = some receiver) :
    Unfolds ⟨n + 1, .expr (.inherited ref name), m⟩ m (inherited ref name)
      (·.Opened ⟨n + 1, .expr (.inherited ref name), m⟩) := by
  have heq : inherited ref name m = _ := inherited_eq hd hsuper hthis
  cases hf : m.heap.method? parent name.lexeme with
  | none =>
    rw [hf] at heq
    refine .congr _ heq (.idle rfl ?_)
    rintro _ ⟨_, _, _, rfl, ha⟩
    cases ha with
    | receiver hb =>
      cases hb with
      | inherited hd' hsuper' _ hf' =>
        cases hd.symm.trans hd'
        cases hsuper.symm.trans hsuper'
        cases hf.symm.trans hf'
  | some f =>
    rw [hf] at heq
    exact .congr _ heq (.bound (.inherited hd hsuper hthis hf) fun _ he => he)

section Names

variable {E : Event → Prop} {name : Token} (hn : name.IsName)

include hn

theorem unfolds_define (v : Value) (hp : p.Declares m.current name.lexeme) (hE : ∀ e, ¬ E e) :
    Unfolds p m (Run.define name.lexeme v) E :=
  .change rfl (.name hn.ne_this hn.ne_super (.inr hp)) hE

theorem unfolds_defineIn {x : Run Unit} (scope? : Option ScopeId) (v : Value)
    (hx : x m = match scope? with
      | some s => .ok () { m with heap := m.heap.define s name.lexeme v }
      | none => .error (.fault (undefined name)) m)
    (hbound : ∀ s ∈ scope?, (m.heap.binding? s name.lexeme).isSome) (hE : ∀ e, ¬ E e) :
    Unfolds p m x E := by
  cases scope? with
  | none => exact .idle (by rw [after_of_error hx]) hE
  | some s => exact .change hx (.name hn.ne_this hn.ne_super (.inl (hbound s rfl))) hE

theorem unfolds_reassign (v : Value) (hE : ∀ e, ¬ E e) : Unfolds p m (reassign name v) E :=
  unfolds_defineIn hn (m.heap.owner? m.current name.lexeme) v rfl (fun _ => isSome_of_owner?) hE

theorem unfolds_newClass {c : Class} (hc : Creates p m.heap c) :
    Unfolds p m (do reassign name (.cls (← newClass c))) fun _ => False :=
  .after (unfolds_reassign hn _ fun _ => id) rfl (.change rfl (.cls hc) fun _ => id)

theorem unfolds_declareClass_base {methods : List (FunctionDecl Stmt)} :
    Unfolds ⟨n + 1, .stmt (.classDecl name none methods), m⟩ m (declareClass name none methods)
      fun _ => False :=
  .after (unfolds_newClass hn .base) rfl
    (unfolds_define hn .nil ⟨rfl, _, rfl, name, rfl, rfl⟩ fun _ => id)

theorem unfolds_declareClass_derived {methods : List (FunctionDecl Stmt)} {parent : ClassId}
    (he : evaluate n e m = .ok (.cls parent) m₁) :
    Unfolds ⟨n + 1, .stmt (.classDecl name (some e) methods), m⟩ m₁
      (declareClass name (some parent) methods)
      (·.Opened ⟨n + 1, .stmt (.classDecl name (some e) methods), m⟩) := by
  have hcurrent : m₁.current = m.current := by
    rw [← after_of_ok he]
    exact ((evaluates_evaluate n e).frame m).current
  refine .after ?_ rfl (unfolds_define hn .nil ⟨hcurrent, _, rfl, name, rfl, rfl⟩ fun _ => id)
  refine .after (x := current) ?_ rfl (.idle rfl fun _ => id)
  refine Unfolds.bind (fun _ _ _ => False) (.one (.opening (m₁.heap.define m₁.current name.lexeme .nil)
    m₁.current _) rfl rfl (.superclass he) fun _ h => h) ?_ ?_
  · rintro s m₂ ⟨⟩
    exact unfolds_newClass hn (.derived he)
  · rintro _ ⟨_, _, _, rfl, ha⟩
    obtain ⟨rfl, rfl, rfl⟩ := (Adds.superclass he).unique ha
    exact .inl rfl

end Names

end Members

section Expressions

variable {n : Nat} {m : Machine}

theorem Run.Steady.after {x : Run α} (h : x.Steady) (m : Machine) : Run.after m x = m := by
  obtain ⟨r, rfl⟩ := h
  cases r <;> rfl

theorem Run.after_read (ref : Ref) (m : Machine) : Run.after m (Run.read ref) = m := by
  unfold Run.after Run.read
  cases m.find? ref <;> rfl

def Expr.bindsMethod : Expr → Bool
  | .get _ _ | .inherited _ _ => true
  | _ => false

theorem Event.Opened.bindsMethod {k : Nat} {x : Expr} {e : Event} (h : e.Opened ⟨k, .expr x, m⟩) :
    x.bindsMethod = true := by
  obtain ⟨_, _, _, -, ha⟩ := h
  cases ha with
  | receiver hb => cases hb <;> rfl

theorem Unfolds.first {p q : Point} {x : Run α} {f : α → Run β} (D : α → Machine → Event → Prop)
    (hc : Calls p q) (hm : q.machine = m) (ha : (Run.after m x).heap = q.after.heap)
    (hf : ∀ a m₁, x m = .ok a m₁ → Unfolds p m₁ (f a) (D a m₁))
    (hcalls : ∀ r, Calls p r → r = q ∨ ∃ a m₁, x m = .ok a m₁ ∧ D a m₁ (.call r))
    (hopened : ∀ e : Event, e.Opened p → ∃ a m₁, x m = .ok a m₁ ∧ D a m₁ e) :
    Unfolds p m (x >>= f) (·.Needed p) := by
  refine Unfolds.bind D (.call hc hm ha fun _ h => h) hf ?_
  rintro _ (⟨r, rfl, hr⟩ | ho)
  · exact (hcalls r hr).imp (congrArg _) id
  · exact .inr (hopened _ ho)

theorem Unfolds.single {p q : Point} {x : Run α} {f : α → Run β} (hc : Calls p q)
    (hm : q.machine = m) (ha : (Run.after m x).heap = q.after.heap)
    (hf : ∀ a m₁, (Run.after m₁ (f a)).heap = m₁.heap) (hcalls : ∀ r, Calls p r → r = q)
    (hopened : ∀ e : Event, ¬ e.Opened p) : Unfolds p m (x >>= f) (·.Needed p) :=
  .first (fun _ _ _ => False) hc hm ha (fun a m₁ _ => .idle (hf a m₁) fun _ => id)
    (fun r hr => .inl (hcalls r hr)) fun e he => absurd he (hopened e)

theorem not_opened {x : Expr} (hx : x.bindsMethod = false) (e : Event) :
    ¬ e.Opened ⟨n + 1, .expr x, m⟩ := by
  intro h
  rw [h.bindsMethod] at hx
  cases hx

theorem unfolds_leaf {x : Expr} (hx : x.bindsMethod = false)
    (hm : Run.after m (evaluate (n + 1) x) = m) (hcalls : ∀ q, ¬ Calls ⟨n + 1, .expr x, m⟩ q) :
    Unfolds ⟨n + 1, .expr x, m⟩ m (evaluate (n + 1) x) (·.Needed ⟨n + 1, .expr x, m⟩) :=
  .idle (by rw [hm]) fun e he => he.elim (fun ⟨q, _, hq⟩ => hcalls q hq) (not_opened hx e)

theorem unfolds_binary {l r : Expr} {op : Token} :
    Unfolds ⟨n + 1, .expr (.binary l op r), m⟩ m (evaluate (n + 1) (.binary l op r))
      (·.Needed ⟨n + 1, .expr (.binary l op r), m⟩) := by
  rw [evaluate]
  refine .first (fun _ m₁ e => e = .call ⟨n, .expr r, m₁⟩) (q := ⟨n, .expr l, m⟩) .binaryLeft rfl
    rfl (fun a m₁ ha => ?_) (fun q hq => ?_) fun e he => absurd he (not_opened rfl e)
  · exact .bind (fun _ _ _ => False)
      (.call (q := ⟨n, .expr r, m₁⟩) (.binaryRight ha) rfl rfl fun _ h => h)
      (fun b m₂ _ => .idle (congrArg _ ((steady_binary op a b).after m₂)) fun _ => id) fun _ => .inl
  · cases hq with
    | binaryLeft => exact .inl rfl
    | binaryRight ha => exact .inr ⟨_, _, ha, rfl⟩

theorem unfolds_logical {l r : Expr} {op : Token} :
    Unfolds ⟨n + 1, .expr (.logical l op r), m⟩ m (evaluate (n + 1) (.logical l op r))
      (·.Needed ⟨n + 1, .expr (.logical l op r), m⟩) := by
  rw [evaluate]
  refine .first (fun a m₁ e => decides op a = false ∧ e = .call ⟨n, .expr r, m₁⟩)
    (q := ⟨n, .expr l, m⟩) .logicalLeft rfl rfl (fun a m₁ ha => ?_) (fun q hq => ?_)
    fun e he => absurd he (not_opened rfl e)
  · cases hd : decides op a with
    | true => exact .idle rfl (by simp)
    | false => exact .call (q := ⟨n, .expr r, m₁⟩) (.logicalRight ha hd) rfl rfl fun _ h => h.2
  · cases hq with
    | logicalLeft => exact .inl rfl
    | logicalRight ha hd => exact .inr ⟨_, _, ha, hd, rfl⟩

theorem unfolds_assign {ref : Ref} {x : Expr} (hn : ref.token.IsName) :
    Unfolds ⟨n + 1, .expr (.assign ref x), m⟩ m (evaluate (n + 1) (.assign ref x))
      (·.Needed ⟨n + 1, .expr (.assign ref x), m⟩) := by
  rw [evaluate]
  refine .first (fun _ _ _ => False) (q := ⟨n, .expr x, m⟩) .assign rfl rfl (fun v m₁ _ => ?_)
    (fun q hq => ?_) fun e he => absurd he (not_opened rfl e)
  · exact .bind (fun _ _ _ => False) (unfolds_defineIn hn (m₁.owner? ref) v rfl
      (fun _ => Machine.isSome_of_owner?) fun _ => id)
      (fun _ _ _ => .idle rfl fun _ => id) fun _ => .inl
  · cases hq
    exact .inl rfl

theorem unfolds_call {callee : Expr} {paren : Token} {args : List Expr} :
    Unfolds ⟨n + 1, .expr (.call callee paren args), m⟩ m
      (evaluate (n + 1) (.call callee paren args))
      (·.Needed ⟨n + 1, .expr (.call callee paren args), m⟩) := by
  rw [evaluate]
  refine .first (fun f m₁ e => e = .call ⟨n, .exprs args, m₁⟩ ∨ ∃ vs m₂,
    evaluateAll n args m₁ = .ok vs m₂ ∧ e = .call ⟨n, .apply f paren vs, m₂⟩)
    (q := ⟨n, .expr callee, m⟩) .callee rfl rfl (fun f m₁ hf => ?_) (fun q hq => ?_)
    fun e he => absurd he (not_opened rfl e)
  · exact .bind (fun vs m₂ e => e = .call ⟨n, .apply f paren vs, m₂⟩)
      (.call (q := ⟨n, .exprs args, m₁⟩) (.arguments hf) rfl rfl fun _ h => h)
      (fun vs m₂ hvs => .call (q := ⟨n, .apply f paren vs, m₂⟩) (.apply hf hvs) rfl rfl fun _ h => h)
      fun _ h => h
  · cases hq with
    | callee => exact .inl rfl
    | arguments hf => exact .inr ⟨_, _, hf, .inl rfl⟩
    | apply hf hvs => exact .inr ⟨_, _, hf, .inr ⟨_, _, hvs, rfl⟩⟩

theorem unfolds_get {o : Expr} {name : Token} :
    Unfolds ⟨n + 1, .expr (.get o name), m⟩ m (evaluate (n + 1) (.get o name))
      (·.Needed ⟨n + 1, .expr (.get o name), m⟩) := by
  rw [evaluate]
  refine .first (fun v m₁ e => evaluate n o m = .ok v m₁ ∧ e.Opened ⟨n + 1, .expr (.get o name), m⟩)
    (q := ⟨n, .expr o, m⟩) .get rfl rfl (fun v m₁ ho => ?_) (fun q hq => ?_) fun e he => ?_
  · cases v with
    | object object => exact (unfolds_property ho).mono fun e he => he.2
    | _ =>
      refine .idle rfl fun e he => ?_
      obtain ⟨_, _, _, _, ho', -⟩ := he.2.of_get
      cases ho.symm.trans ho'
  · cases hq
    exact .inl rfl
  · obtain ⟨_, _, _, _, ho, -⟩ := he.of_get
    exact ⟨_, _, ho, ho, he⟩

theorem unfolds_set {o x : Expr} {name : Token} :
    Unfolds ⟨n + 1, .expr (.set o name x), m⟩ m (evaluate (n + 1) (.set o name x))
      (·.Needed ⟨n + 1, .expr (.set o name x), m⟩) := by
  rw [evaluate]
  refine .first (fun v m₁ e => (∃ object, v = .object object) ∧ e = .call ⟨n, .expr x, m₁⟩)
    (q := ⟨n, .expr o, m⟩) .setObject rfl rfl (fun v m₁ ho => ?_) (fun q hq => ?_)
    fun e he => absurd he (not_opened rfl e)
  · cases v with
    | object object =>
      refine .bind (fun _ _ _ => False)
        (.call (q := ⟨n, .expr x, m₁⟩) (.setValue ho) rfl rfl fun _ h => h) (fun v m₂ _ => ?_)
        fun _ h => .inl h.2
      exact .after (.idle rfl fun _ h => h) rfl (.change rfl .field fun _ h => h)
    | _ =>
      refine .idle rfl ?_
      rintro _ ⟨⟨_, h⟩, -⟩
      cases h
  · cases hq with
    | setObject => exact .inl rfl
    | setValue ho => exact .inr ⟨_, _, ho, ⟨_, rfl⟩, rfl⟩

theorem unfolds_evaluate (x : Expr) (hassign : ∀ ref v, x = .assign ref v → ref.token.IsName)
    (hinherited : ∀ ref name, x = .inherited ref name → ∃ d parent receiver,
      m.distances[ref.id]? = some (d + 1) ∧
      m.heap.lookupAt? m.current (d + 1) "super" = some (.cls parent) ∧
      m.heap.lookupAt? m.current d "this" = some receiver) :
    Unfolds ⟨n + 1, .expr x, m⟩ m (evaluate (n + 1) x) (·.Needed ⟨n + 1, .expr x, m⟩) := by
  cases x with
  | literal => exact unfolds_leaf rfl (by rw [evaluate]; rfl) fun q hq => by cases hq
  | name ref => exact unfolds_leaf rfl (by rw [evaluate, after_read]) fun q hq => by cases hq
  | receiver ref => exact unfolds_leaf rfl (by rw [evaluate, after_read]) fun q hq => by cases hq
  | group x =>
    refine .call (q := ⟨n, .expr x, m⟩) .group rfl rfl ?_
    rintro e (⟨q, rfl, hc⟩ | he)
    · cases hc
      rfl
    · exact absurd he (not_opened rfl e)
  | unary op x =>
    rw [evaluate]
    exact .single (q := ⟨n, .expr x, m⟩) .unary rfl rfl
      (fun v m₁ => congrArg _ ((steady_unary op v).after m₁)) (fun r hr => by cases hr; rfl)
      (not_opened rfl)
  | binary => exact unfolds_binary
  | logical => exact unfolds_logical
  | assign ref v => exact unfolds_assign (hassign ref v rfl)
  | call => exact unfolds_call
  | get => exact unfolds_get
  | set => exact unfolds_set
  | inherited ref name =>
    obtain ⟨d, parent, receiver, hd, hsuper, hthis⟩ := hinherited ref name rfl
    refine (unfolds_inherited hd hsuper hthis).mono fun e he => he.resolve_left ?_
    rintro ⟨q, -, hq⟩
    cases hq

theorem unfolds_evaluateAll {es : List Expr} :
    Unfolds ⟨n + 1, .exprs es, m⟩ m (evaluateAll (n + 1) es) (·.Needed ⟨n + 1, .exprs es, m⟩) := by
  have hopened (e : Event) : ¬ e.Opened ⟨n + 1, .exprs es, m⟩ := by
    rintro ⟨_, _, _, -, ha⟩
    cases ha with
    | receiver hb => cases hb
  cases es with
  | nil =>
    refine .idle (by rw [evaluateAll]; rfl) ?_
    rintro e (⟨q, -, hq⟩ | he)
    · cases hq
    · exact hopened e he
  | cons x es =>
    rw [evaluateAll]
    refine .first (fun _ m₁ e => e = .call ⟨n, .exprs es, m₁⟩) (q := ⟨n, .expr x, m⟩) .head rfl rfl
      (fun v m₁ hv => ?_) (fun q hq => ?_) fun e he => absurd he (hopened e)
    · exact .bind (fun _ _ _ => False)
        (.call (q := ⟨n, .exprs es, m₁⟩) (.tail hv) rfl rfl fun _ h => h)
        (fun _ _ _ => .idle rfl fun _ h => h) fun _ => .inl
    · cases hq with
      | head => exact .inl rfl
      | tail hv => exact .inr ⟨_, _, hv, rfl⟩

end Expressions

section Calls

variable {n : Nat} {m : Machine} {paren : Token} {args : List Value}

theorem Run.steady_checkArity (paren : Token) (expected got : Nat) :
    Steady (checkArity paren expected got) := by
  unfold checkArity
  split
  · exact steady_pure _
  · exact steady_fail _ _

theorem after_apply_native (id : NativeId) :
    Run.after m (Treewalk.apply (n + 1) (.native id) paren args) = m := by
  have hget : (get : Run Machine) m = .ok m m := rfl
  rw [apply, after_bind, hget]
  dsimp only
  cases m.natives[id.index]? with
  | none => rfl
  | some native =>
    dsimp only
    rw [after_bind, checkArity]
    by_cases ha : native.arity = args.length
    · rw [if_pos ha]
      change Run.after m _ = m
      rw [after_bind, show heap m = .ok m.heap m from rfl]
      dsimp only
      cases native.body m.heap args <;> rfl
    · rw [if_neg ha]
      rfl

theorem Unfolds.arity {p : Point} {x : Run β} {E : Event → Prop} {expected : Nat}
    (h : expected = args.length → Unfolds p m x E) (hE : ∀ e, E e → expected = args.length) :
    Unfolds p m (do checkArity paren expected args.length; x) E := by
  by_cases ha : expected = args.length
  · exact .after (h ha) (by rw [checkArity, if_pos ha]; rfl)
      (.idle (congrArg _ ((steady_checkArity _ _ _).after m)) fun _ h => h)
  · refine .idle ?_ fun e he => ha (hE e he)
    rw [after_bind, checkArity, if_neg ha]
    rfl

theorem unfolds_apply_function (id : FunctionId) :
    Unfolds ⟨n + 1, .apply (.function id) paren args, m⟩ m
      (Treewalk.apply (n + 1) (.function id) paren args)
      (·.Needed ⟨n + 1, .apply (.function id) paren args, m⟩) := by
  have hneeded {e : Event} (he : e.Needed ⟨n + 1, .apply (.function id) paren args, m⟩) :
      ∃ f, m.heap.functions[id.index]? = some f ∧ f.arity = args.length ∧
        e = .call ⟨n, .invoke f args, m⟩ := by
    obtain ⟨q, rfl, hq⟩ | ⟨_, _, _, -, ha⟩ := he
    · cases hq with
      | function hf ha => exact ⟨_, hf, ha, rfl⟩
    · cases ha with
      | receiver hb => cases hb
  rw [apply]
  refine .after (x := heap) ?_ rfl (.idle rfl fun _ h => h)
  cases hf : m.heap.functions[id.index]? with
  | none =>
    refine .idle rfl fun e he => ?_
    obtain ⟨f, hf', -⟩ := hneeded he
    cases hf.symm.trans hf'
  | some f =>
    refine .arity (fun ha => .call (q := ⟨n, .invoke f args, m⟩) (.function hf ha) rfl rfl ?_) ?_
    · intro e he
      obtain ⟨_, hf', -, rfl⟩ := hneeded he
      cases hf.symm.trans hf'
      rfl
    · intro e he
      obtain ⟨_, hf', ha, -⟩ := hneeded he
      cases hf.symm.trans hf'
      exact ha

theorem unfolds_apply_cls (cls : ClassId) :
    Unfolds ⟨n + 1, .apply (.cls cls) paren args, m⟩ m (Treewalk.apply (n + 1) (.cls cls) paren args)
      (·.Needed ⟨n + 1, .apply (.cls cls) paren args, m⟩) := by
  have hneeded {e : Event} (he : e.Needed ⟨n + 1, .apply (.cls cls) paren args, m⟩) :
      ∃ f, m.heap.method? cls initializerName = some f ∧ f.arity = args.length := by
    obtain ⟨q, -, hq⟩ | ⟨_, _, _, -, ha⟩ := he
    · cases hq with
      | initializer hf ha => exact ⟨_, hf, ha⟩
    · cases ha with
      | receiver hb =>
        cases hb with
        | construct hf ha => exact ⟨_, hf, ha⟩
  rw [apply]
  refine .after (x := heap) ?_ rfl (.idle rfl fun _ h => h)
  refine .arity (fun ha => .after ?_ rfl (.change rfl .object fun _ h => h)) ?_
  · cases hf : m.heap.method? cls initializerName with
    | none =>
      refine .idle rfl fun e he => ?_
      obtain ⟨f, hf', -⟩ := hneeded he
      cases hf.symm.trans hf'
    | some f =>
      rw [hf] at ha
      have hbind : Binds ⟨n + 1, .apply (.cls cls) paren args, m⟩ _ f _ := .construct hf ha
      refine .bind (fun g m₁ e => e = .call ⟨n, .invoke g args, m₁⟩)
        (.one (.opening _ f.scope _) rfl rfl (.receiver hbind) fun _ h => h) ?_ ?_
      · rintro g m₁ hg
        refine .bind (fun _ _ _ => False) (.call (q := ⟨n, .invoke g args, m₁⟩) ?_ rfl rfl
          fun _ h => h) (fun _ _ _ => .idle rfl fun _ h => h) fun _ => .inl
        refine .initializer hf ha ?_
        cases hg
        rfl
      · rintro e (⟨q, rfl, hq⟩ | ⟨_, _, _, rfl, hadd⟩)
        · cases hq with
          | initializer hf' ha' hg =>
            cases hf.symm.trans hf'
            cases hg
            exact .inr ⟨_, _, rfl, rfl⟩
        · obtain ⟨rfl, rfl, rfl⟩ := (Adds.receiver hbind).unique hadd
          exact .inl rfl
  · intro e he
    obtain ⟨f, hf, ha⟩ := hneeded he
    rw [hf]
    exact ha

theorem unfolds_apply (f : Value) :
    Unfolds ⟨n + 1, .apply f paren args, m⟩ m (Treewalk.apply (n + 1) f paren args)
      (·.Needed ⟨n + 1, .apply f paren args, m⟩) := by
  have hidle (ha : Run.after m (Treewalk.apply (n + 1) f paren args) = m)
      (hf : ∀ id, f ≠ .function id) (hc : ∀ id, f ≠ .cls id) :
      Unfolds ⟨n + 1, .apply f paren args, m⟩ m (Treewalk.apply (n + 1) f paren args)
        (·.Needed ⟨n + 1, .apply f paren args, m⟩) := by
    refine .idle (by rw [ha]) ?_
    rintro e (⟨q, -, hq⟩ | ⟨_, _, _, -, hadd⟩)
    · cases hq with
      | function => exact hf _ rfl
      | initializer => exact hc _ rfl
    · cases hadd with
      | receiver hb =>
        cases hb with
        | construct => exact hc _ rfl
  cases f with
  | function id => exact unfolds_apply_function id
  | cls id => exact unfolds_apply_cls id
  | native id => exact hidle (after_apply_native id) (by simp) (by simp)
  | _ =>
    refine hidle ?_ (by simp) (by simp)
    rw [apply]
    · rfl
    all_goals simp

theorem after_yielded (f : Closure) (c : Completion) : Run.after m (yielded f c) = m := by
  unfold yielded
  cases f.isInitializer with
  | true => rfl
  | false => cases c <;> rfl

theorem unfolds_invoke (f : Closure) :
    Unfolds ⟨n + 1, .invoke f args, m⟩ m (invoke (n + 1) f args)
      (·.Needed ⟨n + 1, .invoke f args, m⟩) := by
  rw [invoke, ← bind_assoc]
  refine .bind (fun _ _ _ => False)
    (.inside (q := ⟨n, .stmts f.decl.body, m.inside f.scope _⟩) .frame .body rfl rfl fun _ h => h)
    (fun c m₁ _ => .idle (congrArg _ (after_yielded f c)) fun _ h => h) ?_
  rintro e (⟨q, rfl, hq⟩ | ⟨_, _, _, rfl, hadd⟩)
  · cases hq
    exact .inl (.inr rfl)
  · obtain ⟨rfl, rfl, rfl⟩ := Adds.frame.unique hadd
    exact .inl (.inl rfl)

end Calls

section Statements

variable {n : Nat} {m : Machine}

def Stmt.opensScope : Stmt → Bool
  | .block _ | .classDecl _ _ _ => true
  | _ => false

theorem not_opened_stmt {s : Stmt} (hs : s.opensScope = false) (e : Event) :
    ¬ e.Opened ⟨n + 1, .stmt s, m⟩ := by
  rintro ⟨_, _, _, -, ha⟩
  cases ha with
  | block | superclass => cases hs
  | receiver hb => cases hb

theorem not_needed {s : Stmt} (hs : s.opensScope = false)
    (hcalls : ∀ q, ¬ Calls ⟨n + 1, .stmt s, m⟩ q) (e : Event) : ¬ e.Needed ⟨n + 1, .stmt s, m⟩ := fun he =>
  he.elim (fun ⟨q, _, hq⟩ => hcalls q hq) (not_opened_stmt hs e)

theorem unfolds_var {name : Token} {init : Option Expr} (hn : name.IsName) :
    Unfolds ⟨n + 1, .stmt (.var name init), m⟩ m (execute (n + 1) (.var name init))
      (·.Needed ⟨n + 1, .stmt (.var name init), m⟩) := by
  have hdef (v : Value) (m₁ : Machine) (hm : m₁.current = m.current) :
      Unfolds ⟨n + 1, .stmt (.var name init), m⟩ m₁
        (do Run.define name.lexeme v; return Completion.normal) fun _ => False :=
    .after (.idle rfl fun _ h => h) rfl
      (unfolds_define hn v ⟨hm, _, rfl, name, rfl, rfl⟩ fun _ h => h)
  cases init with
  | none =>
    rw [execute]
    exact (hdef .nil m rfl).mono fun e he => not_needed rfl (fun q hq => by cases hq) e he
  | some x =>
    rw [execute]
    refine .first (fun _ _ _ => False) (q := ⟨n, .expr x, m⟩) .var rfl rfl (fun v m₁ hx => ?_)
      (fun q hq => by cases hq; exact .inl rfl) fun e he => absurd he (not_opened_stmt rfl e)
    rw [← after_of_ok hx]
    exact hdef v _ ((evaluates_evaluate n x).frame m).current

theorem unfolds_block {body : List Stmt} :
    Unfolds ⟨n + 1, .stmt (.block body), m⟩ m (execute (n + 1) (.block body))
      (·.Needed ⟨n + 1, .stmt (.block body), m⟩) := by
  rw [execute]
  refine .after (x := current) ?_ rfl (.idle rfl fun _ h => h)
  refine .inside (q := ⟨n, .stmts body, m.inside m.current .empty⟩) .block .block rfl rfl ?_
  rintro e (⟨q, rfl, hq⟩ | ⟨_, _, _, rfl, hadd⟩)
  · cases hq
    exact .inr rfl
  · obtain ⟨rfl, rfl, rfl⟩ := Adds.block.unique hadd
    exact .inl rfl

theorem unfolds_ifThen {c : Expr} {t : Stmt} :
    Unfolds ⟨n + 1, .stmt (.ifThen c t), m⟩ m (execute (n + 1) (.ifThen c t))
      (·.Needed ⟨n + 1, .stmt (.ifThen c t), m⟩) := by
  rw [execute]
  refine .first (fun v m₁ e => v.isTruthy = true ∧ e = .call ⟨n, .stmt t, m₁⟩) (q := ⟨n, .expr c, m⟩)
    .ifThenCondition rfl rfl (fun v m₁ hv => ?_) (fun q hq => ?_)
    fun e he => absurd he (not_opened_stmt rfl e)
  · cases ht : v.isTruthy with
    | true =>
      exact .call (q := ⟨n, .stmt t, m₁⟩) (.ifThenBranch hv ht) rfl rfl fun _ h => h.2
    | false => exact .idle rfl (by simp)
  · cases hq with
    | ifThenCondition => exact .inl rfl
    | ifThenBranch hv ht => exact .inr ⟨_, _, hv, ht, rfl⟩

theorem unfolds_ifElse {c : Expr} {t f : Stmt} :
    Unfolds ⟨n + 1, .stmt (.ifElse c t f), m⟩ m (execute (n + 1) (.ifElse c t f))
      (·.Needed ⟨n + 1, .stmt (.ifElse c t f), m⟩) := by
  rw [execute]
  refine .first (fun v m₁ e => e = .call ⟨n, .stmt (if v.isTruthy then t else f), m₁⟩)
    (q := ⟨n, .expr c, m⟩) .ifElseCondition rfl rfl (fun v m₁ hv => ?_) (fun q hq => ?_)
    fun e he => absurd he (not_opened_stmt rfl e)
  · cases ht : v.isTruthy with
    | true => exact .call (q := ⟨n, .stmt t, m₁⟩) (.ifElseThen hv ht) rfl rfl fun _ h => h
    | false => exact .call (q := ⟨n, .stmt f, m₁⟩) (.ifElseElse hv ht) rfl rfl fun _ h => h
  · cases hq with
    | ifElseCondition => exact .inl rfl
    | ifElseThen hv ht => exact .inr ⟨_, _, hv, by rw [if_pos ht]⟩
    | ifElseElse hv ht => exact .inr ⟨_, _, hv, by rw [if_neg (by simp [ht])]⟩

theorem unfolds_function {decl : FunctionDecl Stmt} (hn : decl.name.IsName) :
    Unfolds ⟨n + 1, .stmt (.function decl), m⟩ m (execute (n + 1) (.function decl))
      (·.Needed ⟨n + 1, .stmt (.function decl), m⟩) := by
  refine Unfolds.mono (C := fun _ => False) ?_ fun e he =>
    not_needed rfl (fun q hq => by cases hq) e he
  rw [execute]
  refine .after (x := current) ?_ rfl (.idle rfl fun _ h => h)
  refine .after ?_ rfl (.change rfl (.function .declared) fun _ h => h)
  exact .after (.idle rfl fun _ h => h) rfl
    (unfolds_define hn _ ⟨rfl, _, rfl, decl.name, rfl, rfl⟩ fun _ h => h)

theorem unfolds_classDecl {name : Token} {superclass : Option Expr}
    {methods : List (FunctionDecl Stmt)} (hn : name.IsName) :
    Unfolds ⟨n + 1, .stmt (.classDecl name superclass methods), m⟩ m
      (execute (n + 1) (.classDecl name superclass methods))
      (·.Needed ⟨n + 1, .stmt (.classDecl name superclass methods), m⟩) := by
  cases superclass with
  | none =>
    rw [execute]
    refine .bind (fun _ _ _ => False) (unfolds_declareClass_base hn)
      (fun _ _ _ => .idle rfl fun _ h => h) ?_
    rintro e (⟨q, -, hq⟩ | ⟨_, _, _, -, hadd⟩)
    · cases hq
    · cases hadd with
      | receiver hb => cases hb
  | some x =>
    rw [execute]
    refine .first (fun v m₁ e => (∃ parent, v = .cls parent) ∧
        e.Opened ⟨n + 1, .stmt (.classDecl name (some x) methods), m⟩) (q := ⟨n, .expr x, m⟩)
      .superclass rfl rfl (fun v m₁ hv => ?_) (fun q hq => by cases hq; exact .inl rfl) ?_
    · cases v with
      | cls parent =>
        exact .bind (fun _ _ _ => False) (unfolds_declareClass_derived hn hv)
          (fun _ _ _ => .idle rfl fun _ h => h) fun _ h => .inl h.2
      | _ => exact .idle rfl (by simp)
    · rintro e ⟨_, _, _, rfl, hadd⟩
      have hadd' := hadd
      cases hadd with
      | superclass hx => exact ⟨_, _, hx, ⟨_, rfl⟩, _, _, _, rfl, hadd'⟩
      | receiver hb => cases hb

theorem unfolds_execute (s : Stmt) (hs : ∀ t ∈ s.declared?, t.IsName) :
    Unfolds ⟨n + 1, .stmt s, m⟩ m (execute (n + 1) s) (·.Needed ⟨n + 1, .stmt s, m⟩) := by
  cases s with
  | expr x =>
    rw [execute]
    exact .single (q := ⟨n, .expr x, m⟩) .expr rfl rfl (fun _ _ => rfl)
      (fun q hq => by cases hq; rfl) (not_opened_stmt rfl)
  | print x =>
    rw [execute]
    refine .first (fun _ _ _ => False) (q := ⟨n, .expr x, m⟩) .print rfl rfl (fun v m₁ _ => ?_)
      (fun q hq => by cases hq; exact .inl rfl) fun e he => absurd he (not_opened_stmt rfl e)
    have hheap : (Run.after m₁ (Run.print v)).heap = m₁.heap := by
      obtain ⟨sink, h⟩ := Run.after_print v m₁
      rw [h]
    exact .bind (fun _ _ _ => False) (.idle hheap fun _ h => h)
      (fun _ _ _ => .idle rfl fun _ h => h) fun _ => .inl
  | var name init => exact unfolds_var (hs name rfl)
  | block => exact unfolds_block
  | ifThen => exact unfolds_ifThen
  | ifElse => exact unfolds_ifElse
  | loop c body =>
    refine .call (q := ⟨n, .rounds c body, m⟩) .loop rfl rfl ?_
    rintro e (⟨q, rfl, hq⟩ | he)
    · cases hq
      rfl
    · exact absurd he (not_opened_stmt rfl e)
  | function decl => exact unfolds_function (hs decl.name rfl)
  | ret keyword value =>
    cases value with
    | none => exact .idle (by rw [execute]; rfl) (not_needed rfl fun q hq => by cases hq)
    | some x =>
      rw [execute]
      exact .single (q := ⟨n, .expr x, m⟩) .ret rfl rfl (fun _ _ => rfl)
        (fun q hq => by cases hq; rfl) (not_opened_stmt rfl)
  | classDecl name superclass methods => exact unfolds_classDecl (hs name rfl)

theorem unfolds_executeAll {ss : List Stmt} :
    Unfolds ⟨n + 1, .stmts ss, m⟩ m (executeAll (n + 1) ss) (·.Needed ⟨n + 1, .stmts ss, m⟩) := by
  have hopened (e : Event) : ¬ e.Opened ⟨n + 1, .stmts ss, m⟩ := by
    rintro ⟨_, _, _, -, ha⟩
    cases ha with
    | receiver hb => cases hb
  cases ss with
  | nil =>
    refine .idle (by rw [executeAll]; rfl) ?_
    rintro e (⟨q, -, hq⟩ | he)
    · cases hq
    · exact hopened e he
  | cons s ss =>
    rw [executeAll]
    refine .first (fun c m₁ e => c = .normal ∧ e = .call ⟨n, .stmts ss, m₁⟩) (q := ⟨n, .stmt s, m⟩)
      .first rfl rfl (fun c m₁ hc => ?_) (fun q hq => ?_) fun e he => absurd he (hopened e)
    · cases c with
      | normal => exact .call (q := ⟨n, .stmts ss, m₁⟩) (.rest hc) rfl rfl fun _ h => h.2
      | returned v => exact .idle rfl (by simp)
    · cases hq with
      | first => exact .inl rfl
      | rest hc => exact .inr ⟨_, _, hc, rfl, rfl⟩

theorem unfolds_iterate {c : Expr} {body : Stmt} :
    Unfolds ⟨n + 1, .rounds c body, m⟩ m (iterate (n + 1) c body)
      (·.Needed ⟨n + 1, .rounds c body, m⟩) := by
  have hopened (e : Event) : ¬ e.Opened ⟨n + 1, .rounds c body, m⟩ := by
    rintro ⟨_, _, _, -, ha⟩
    cases ha with
    | receiver hb => cases hb
  rw [iterate]
  refine .first (fun v m₁ e => v.isTruthy = true ∧ (e = .call ⟨n, .stmt body, m₁⟩ ∨
      ∃ completion m₂, execute n body m₁ = .ok completion m₂ ∧ completion = .normal ∧
        e = .call ⟨n, .rounds c body, m₂⟩)) (q := ⟨n, .expr c, m⟩) .condition rfl rfl
    (fun v m₁ hv => ?_) (fun q hq => ?_) fun e he => absurd he (hopened e)
  · cases ht : v.isTruthy with
    | false => exact .idle rfl (by simp)
    | true =>
      refine .bind (fun completion m₂ e => completion = .normal ∧ e = .call ⟨n, .rounds c body, m₂⟩)
        (.call (q := ⟨n, .stmt body, m₁⟩) (.round hv ht) rfl rfl fun _ h => h)
        (fun completion m₂ hb => ?_) fun _ h => h.2
      cases completion with
      | normal => exact .call (q := ⟨n, .rounds c body, m₂⟩) (.again hv ht hb) rfl rfl fun _ h => h.2
      | returned v => exact .idle rfl (by simp)
  · cases hq with
    | condition => exact .inl rfl
    | round hv ht => exact .inr ⟨_, _, hv, ht, .inl rfl⟩
    | again hv ht hb => exact .inr ⟨_, _, hv, ht, .inr ⟨_, _, hb, rfl, rfl⟩⟩

end Statements

theorem Unfolds.timeline {n : Nat} {code : Code} {m : Machine} {x : Run α}
    (h : Unfolds ⟨n, code, m⟩ m x (·.Needed ⟨n, code, m⟩))
    (hx : (Run.after m x).heap = (Point.after ⟨n, code, m⟩).heap) :
    ∃ es, Timeline ⟨n, code, m⟩ es := by
  obtain ⟨es, hl, hof, hw⟩ := h
  exact ⟨es, hx ▸ hl, hof, fun q hq => hw _ (.inl ⟨q, rfl, hq⟩),
    fun h parent b ha => hw _ (.inr ⟨h, parent, b, rfl, ha⟩)⟩

theorem timeline_zero (code : Code) (m : Machine) : Timeline ⟨0, code, m⟩ [] := by
  refine ⟨?_, by simp, (fun q hq => by cases hq), fun h parent b ha => ?_⟩
  · have hm : (Point.after ⟨0, code, m⟩).heap = m.heap := by cases code <;> rfl
    rw [hm]
    exact .nil
  · cases ha with
    | receiver hb => cases hb

theorem Fine.timeline {points : Point → Prop} {seen : Visit → Prop} {p : Point}
    (h : Fine points seen p) : ∃ es, Timeline p es := by
  obtain ⟨_ | n, code, m⟩ := p
  · exact ⟨[], timeline_zero code m⟩
  obtain ⟨-, hs, hplaced⟩ := h
  cases code with
  | expr x =>
    obtain ⟨cls, scopes, os, hat, hb, -⟩ := hplaced
    refine (unfolds_evaluate x ?_ ?_).timeline rfl
    · rintro ref v rfl
      exact hb.2.1
    · rintro ref name rfl
      obtain ⟨rfl, hlexeme, hdist⟩ := hb
      obtain ⟨d, parent, receiver, hd, hsuper, hthis⟩ := hat.superclass hs
      refine ⟨d, parent, receiver, ?_, hsuper, hthis⟩
      rw [hdist, hlexeme]
      exact hd
  | exprs => exact unfolds_evaluateAll.timeline rfl
  | apply f => exact (unfolds_apply f).timeline rfl
  | invoke f => exact (unfolds_invoke f).timeline rfl
  | stmt s =>
    obtain ⟨ctx, scopes, os, -, -, -, hproper, -⟩ := hplaced
    exact (unfolds_execute s hproper.isName_declared).timeline rfl
  | stmts => exact unfolds_executeAll.timeline rfl
  | rounds => exact unfolds_iterate.timeline rfl

end Treewalk
