import Treewalk.Proofs.Grammar.Meeting

namespace Treewalk.Grammar

open Reading Parse

section Lookahead

variable {α : Type} {fuel k k₁ : Nat} {c : Cursor} {t : Token} {ts : List Token}

theorem MeetsAt.peek {f : Token → Parse α} {R : Reading α} (h : MeetsAt fuel k (f c.current) R c) :
    MeetsAt fuel k (Parse.peek >>= f) R c := h

theorem take_of_rest (h : c.rest = t :: ts) : take c = .ok t { c with rest := ts } := by
  simp [take, Cursor.current, h]

theorem Meets.peek {f : Token → Parse α} {R : Reading α} (h : ∀ t, Meets fuel k (f t) R) :
    Meets fuel k (Parse.peek >>= f) R :=
  fun c hc => MeetsAt.peek (h c.current c hc)

theorem meetsAt_take {g : Token → Parse α} {R T : Reading α} (hr : c.rest = t :: ts)
    (hc : c.eof.kind = .eof) (hk : k ≤ k₁ + 1) (hg : Meets fuel k₁ (g t) T)
    (hT : ∀ n a rest n₁, T ts n a rest n₁ → R (t :: ts) n a rest n₁) :
    MeetsAt (fuel + 1) k (take >>= g) R c := by
  unfold MeetsAt
  rw [bind_ok g (take_of_rest hr)]
  have hl : c.Leads { c with rest := ts } := c.leads_of_rest (hr ▸ List.suffix_cons t ts)
  have hlen : c.rest.length = ts.length + 1 := by simp [hr]
  have hd : Outcome fuel k₁ T _ _ := hg { c with rest := ts } hc
  match g t { c with rest := ts }, hd with
  | .ok b e, ⟨hl', hlen', hT'⟩ =>
    refine ⟨hl.trans hl', by dsimp only at hlen'; omega, fun he => ?_⟩
    rw [hr]
    exact hT _ _ _ _ (hT' he)
  | .error (.fault _) e, hl' => exact hl.trans hl'
  | .error .exhausted e, ⟨hl', hlen'⟩ => exact ⟨hl.trans hl', by dsimp only at hlen'; omega⟩

theorem meetsAt_literal {v : Literal} (hr : c.rest = t :: ts) (hc : c.eof.kind = .eof)
    (hv : literal? t.kind = some v) :
    MeetsAt (fuel + 1) 1 (do let _ ← take; return .literal v) (ReadsExpr .primary) c := by
  refine meetsAt_take hr hc (by omega) (meets_pure _) ?_
  rintro n _ _ _ ⟨rfl, rfl, rfl⟩
  exact .literal hv

end Lookahead

section Expressions

variable {fuel : Nat} {nested : Parse Expr} (hn : Meets fuel 1 nested (ReadsExpr .assignment))
include hn

theorem meets_primary : Meets (fuel + 1) 1 (primary nested) (ReadsExpr .primary) := by
  intro c hc
  rw [primary]
  apply MeetsAt.peek
  cases hr : c.rest with
  | nil =>
    rw [Cursor.current, hr, List.headD_nil, hc]
    exact Cursor.Leads.refl c
  | cons t ts =>
    rw [Cursor.current, hr, List.headD_cons]
    split
    · next hk => exact meetsAt_literal hr hc (by rw [hk]; rfl)
    · next hk => exact meetsAt_literal hr hc (by rw [hk]; rfl)
    · next hk => exact meetsAt_literal hr hc (by rw [hk]; rfl)
    · next hk => exact meetsAt_literal hr hc (by rw [hk]; rfl)
    · next hk => exact meetsAt_literal hr hc (by rw [hk]; rfl)
    · next hk =>
      refine meetsAt_take hr hc (by omega) ((meets_number t).bind fun _ => meets_pure _) ?_
      rintro n _ _ _ ⟨_, _, _, ⟨rfl, rfl, rfl⟩, rfl, rfl, rfl⟩
      exact .name hk
    · next hk =>
      refine meetsAt_take hr hc (by omega) ((meets_number t).bind fun _ => meets_pure _) ?_
      rintro n _ _ _ ⟨_, _, _, ⟨rfl, rfl, rfl⟩, rfl, rfl, rfl⟩
      exact .receiver hk
    · next hk =>
      refine meetsAt_take hr hc (by omega) (meets_expect.bind fun _ => meets_expect.bind fun _ =>
        (meets_number t).bind fun _ => meets_pure _) ?_
      rintro n _ _ _ ⟨_, _, _, ⟨rfl, hd, rfl⟩, _, _, _, ⟨rfl, hm, rfl⟩, _, _, _, ⟨rfl, rfl, rfl⟩,
        rfl, rfl, rfl⟩
      exact .inherited hk hd hm
    · next hk =>
      refine meetsAt_take hr hc (by omega) (hn.bind fun _ => meets_expect.bind fun _ => meets_pure _) ?_
      rintro n _ _ _ ⟨_, _, _, he, _, _, _, ⟨rfl, hp, rfl⟩, rfl, rfl, rfl⟩
      exact .group hk he hp
    · exact Cursor.Leads.refl c

def ReadsArguments (count : Nat) : Reading (List Expr) := fun ts n args rest n₁ =>
  ∀ callee before right mid, before.length = count → rest = right :: mid →
    right.kind = .punct .rightParen →
    ReadsExpr (.arguments callee before) ts n (.call callee right (before ++ args)) mid n₁

omit hn in
theorem meets_limited {α : Type} {k : Nat} {P : Prop} [Decidable P] {fault : SyntaxFault}
    {p : Parse α} {R : Reading α} (hp : Meets fuel k p R) :
    Meets fuel k (if P then Parse.peek >>= fun t => report fault t >>= fun _ => p else p)
      fun ts n a rest n₁ => ¬ P ∧ R ts n a rest n₁ := by
  split
  · next h =>
    apply Meets.peek
    intro t
    have hr : Meets fuel 0 (report fault t) fun _ _ _ _ _ => False := meets_report
    refine (hr.bind fun _ => hp).mono ?_ (Nat.le_refl _) (by omega)
    rintro ts n a rest n₁ ⟨_, _, _, hf, _⟩
    exact hf.elim
  · next h => exact hp.mono (fun _ _ _ _ _ hR => ⟨h, hR⟩) (Nat.le_refl _) (Nat.le_refl _)

theorem meets_arguments (m count : Nat) :
    Meets (min fuel m) 1 (arguments nested m count) (ReadsArguments count) := by
  induction m generalizing count with
  | zero => exact meets_exhausted.weaken (by omega)
  | succ m ih =>
    rw [arguments]
    refine Meets.mono (meets_limited ((hn.weaken (Nat.min_le_left fuel (m + 1))).bind fun e =>
      Meets.weaken (Meets.choice (fun t _ => (ih (count + 1)).bind fun es => meets_pure (e :: es))
        (meets_pure [e])) (by omega))) ?_ (by omega) (by omega)
    rintro ts n args rest n₁ ⟨hc, e, mid, n₂, he, ⟨comma, mid', rfl, hcomma, es, _, _, hes, rfl, rfl, rfl⟩ |
      ⟨-, rfl, rfl, rfl⟩⟩ callee before right rest' rfl rfl hright
    · refine .argument (by omega) he (by simpa using hcomma) ?_
      simpa using hes callee (before ++ [e]) right rest' (by simp) rfl hright
    · exact .lastArgument (by omega) he hright

def ReadsCallTail (callee : Expr) : Reading Expr := fun ts n e rest n₁ =>
  (∃ right, right.kind = .punct .rightParen ∧ ts = right :: rest ∧ e = .call callee right [] ∧
    n₁ = n) ∨ ReadsExpr (.arguments callee []) ts n e rest n₁

theorem meets_callTail (callee : Expr) :
    Meets fuel 1 (callTail (fuel + 1) nested callee) (ReadsCallTail callee) := by
  have hargs : Meets fuel 1 (arguments nested (fuel + 1) 0) (ReadsArguments 0) :=
    (meets_arguments hn (fuel + 1) 0).weaken (by omega)
  refine Meets.mono (Meets.check
    ((meets_pure []).bind fun args => meets_expect.bind fun right => meets_pure _)
    (hargs.bind fun args => meets_expect.bind fun right => meets_pure _)) ?_ (by omega) (by omega)
  rintro ts n e rest n₁ (⟨-, _, _, _, ⟨rfl, rfl, rfl⟩, right, _, _, ⟨rfl, hr, rfl⟩, rfl, rfl, rfl⟩ |
    ⟨-, args, _, _, ha, right, _, _, ⟨rfl, hr, rfl⟩, rfl, rfl, rfl⟩)
  · exact .inl ⟨right, hr, rfl, rfl, rfl⟩
  · exact .inr (by simpa using ha callee [] right _ rfl rfl hr)

theorem meets_suffixes (m : Nat) (callee : Expr) :
    Meets (min (fuel + 1) m) 0 (suffixes (fuel + 1) nested m callee)
      (ReadsExpr (.suffixes callee)) := by
  induction m generalizing callee with
  | zero => exact meets_exhausted.weaken (by omega)
  | succ m ih =>
    rw [suffixes]
    have hcall := (meets_callTail hn callee).weaken (Nat.min_le_left fuel m)
    refine Meets.mono (Meets.choice (fun _ _ => hcall.bind fun e => (ih e).weaken (by omega))
      (Meets.choice (fun _ _ => meets_expect.bind fun name => (ih (.get callee name)).weaken (by omega))
        (meets_pure callee))) ?_ (by omega) (by omega)
    rintro ts n e rest n₁ (⟨left, mid, rfl, hl, e', mid', n₂, htail, he⟩ |
      ⟨-, ⟨dot, mid, rfl, hd, name, _, _, ⟨rfl, hname, rfl⟩, he⟩ | ⟨-, rfl, rfl, rfl⟩⟩)
    · obtain ⟨right, hr, rfl, rfl, rfl⟩ | htail := htail
      · exact .noArguments (by simpa using hl) hr he
      · exact .arguments (by simpa using hl) htail he
    · exact .property (by simpa using hd) hname he
    · exact .noSuffix

theorem meets_call : Meets (fuel + 1) 1 (call (fuel + 1) nested) (ReadsExpr .call) := by
  refine Meets.mono ((meets_primary hn).bind fun e =>
    (meets_suffixes hn (fuel + 1) e).weaken (by omega)) ?_ (by omega) (by omega)
  rintro ts n e rest n₁ ⟨callee, mid, n₂, hp, hs⟩
  exact .call hp hs

omit hn in
theorem meets_unaryOperators (m : Nat) : Meets m 0 (Parse.unaryOperators m) fun ts n ops rest n₁ =>
    ∀ {e rest' n₂}, ReadsExpr .unary rest n₁ e rest' n₂ →
      ReadsExpr .unary ts n (ops.foldr .unary e) rest' n₂ := by
  induction m with
  | zero => exact meets_exhausted
  | succ m ih =>
    refine Meets.mono (Meets.choice (fun op _ => ih.bind fun ops => meets_pure (op :: ops))
      (meets_pure [])) ?_ (by omega) (by omega)
    rintro ts n ops rest n₁ (⟨op, mid, rfl, hop, ops, _, _, hops, rfl, rfl, rfl⟩ |
      ⟨-, rfl, rfl, rfl⟩) e rest' n₂ he
    · exact .operator (by simpa [unaryOperators] using hop) (hops he)
    · exact he

theorem meets_unary : Meets (fuel + 1) 1 (unary (fuel + 1) nested) (ReadsExpr .unary) := by
  refine Meets.mono ((meets_unaryOperators (fuel + 1)).bind fun ops => (meets_call hn).bind fun e =>
    meets_pure (ops.foldr .unary e)) ?_ (by omega) (by omega)
  rintro ts n e rest n₁ ⟨ops, mid, n₂, hops, e', _, _, he, rfl, rfl, rfl⟩
  exact hops (.noOperator he)

end Expressions

section Levels

variable {fuel : Nat} {operand : Parse Expr} {l : Level}
  (ho : Meets (fuel + 1) 1 operand (ReadsExpr l.operand))
include ho

theorem meets_operands (m : Nat) (left : Expr) :
    Meets (min (fuel + 1) m) 0 (operands l.operators l.node operand m left)
      (ReadsExpr (.operands l left)) := by
  induction m generalizing left with
  | zero => exact meets_exhausted.weaken (by omega)
  | succ m ih =>
    rw [operands]
    have ho' : Meets (min fuel m) 1 operand (ReadsExpr l.operand) := ho.weaken (by omega)
    refine Meets.mono (Meets.choice (fun op _ => ho'.bind fun right =>
      (ih (l.node left op right)).weaken (by omega)) (meets_pure left)) ?_ (by omega) (by omega)
    rintro ts n e rest n₁ (⟨op, mid, rfl, hop, right, mid', n₂, hr, he⟩ | ⟨-, rfl, rfl, rfl⟩)
    · exact .operand (by simpa using hop) hr he
    · exact .noOperand

theorem meets_leftAssoc :
    Meets (fuel + 1) 1 (leftAssoc (fuel + 1) l.operators l.node operand) (ReadsExpr (.level l)) := by
  refine Meets.mono (ho.bind fun left => (meets_operands ho (fuel + 1) left).weaken (by omega)) ?_
    (by omega) (by omega)
  rintro ts n e rest n₁ ⟨left, mid, n₂, hl, he⟩
  exact .level hl he

end Levels

section Targets

def isOperation : Expr → Bool
  | .unary _ _ | .binary _ _ _ | .logical _ _ _ => true
  | _ => false

theorem isOperation_node (l : Level) (left right : Expr) (op : Token) :
    isOperation (l.node left op right) := by
  cases l <;> rfl

def EndsInProperty (phrase : Phrase) : Reading Expr := fun ts n e rest n₁ =>
  ∃ object dot name, e = .get object name ∧ dot.kind = .punct .dot ∧ name.kind = .identifier ∧
    ReadsExpr phrase ts n object (dot :: name :: rest) n₁

def IsCall (e : Expr) : Prop := ∃ callee right args, e = .call callee right args

def Root : Phrase → Reading Expr
  | .operands _ left => fun ts n e rest n₁ => (e = left ∧ ts = rest ∧ n = n₁) ∨ isOperation e
  | .level _ | .unary => fun ts n e rest n₁ => isOperation e ∨ ReadsExpr .call ts n e rest n₁
  | .suffixes callee => fun ts n e rest n₁ =>
    (e = callee ∧ ts = rest ∧ n = n₁) ∨ EndsInProperty (.suffixes callee) ts n e rest n₁ ∨ IsCall e
  | .arguments _ _ => fun _ _ e _ _ => IsCall e
  | .call => fun ts n e rest n₁ =>
    ReadsExpr .primary ts n e rest n₁ ∨ EndsInProperty .call ts n e rest n₁ ∨ IsCall e
  | .assignment | .primary => fun _ _ _ _ _ => True

theorem ReadsExpr.root (h : ReadsExpr phrase ts n e rest n₁) : Root phrase ts n e rest n₁ := by
  induction h with
  | assignName | assignProperty | value | literal | name | receiver | inherited | group => trivial
  | @level _ _ _ _ _ _ _ _ l _ _ ihl ihs =>
    obtain ⟨rfl, rfl, rfl⟩ | hop := ihs
    · cases l <;> exact ihl
    · exact .inl hop
  | noOperand => exact .inl ⟨rfl, rfl, rfl⟩
  | @operand _ _ _ _ _ _ _ l left right op _ _ _ _ ih =>
    obtain ⟨rfl, -, -⟩ | hop := ih
    · exact .inr (isOperation_node l left right op)
    · exact .inr hop
  | operator => exact .inl rfl
  | noOperator h => exact .inr h
  | call hp hs _ ihs =>
    obtain ⟨rfl, rfl, rfl⟩ | ⟨object, dot, name, he, hd, hn, hs⟩ | hc := ihs
    · exact .inl hp
    · exact .inr (.inl ⟨object, dot, name, he, hd, hn, .call hp hs⟩)
    · exact .inr (.inr hc)
  | noSuffix => exact .inl ⟨rfl, rfl, rfl⟩
  | property hdot hname hs ih =>
    obtain ⟨rfl, rfl, rfl⟩ | ⟨object, dot, name, he, hd, hn, hs⟩ | hc := ih
    · exact .inr (.inl ⟨_, _, _, rfl, hdot, hname, .noSuffix⟩)
    · exact .inr (.inl ⟨object, dot, name, he, hd, hn, .property hdot hname hs⟩)
    · exact .inr (.inr hc)
  | noArguments hl hr hs ih =>
    obtain ⟨rfl, rfl, rfl⟩ | ⟨object, dot, name, he, hd, hn, hs⟩ | hc := ih
    · exact .inr (.inr ⟨_, _, _, rfl⟩)
    · exact .inr (.inl ⟨object, dot, name, he, hd, hn, .noArguments hl hr hs⟩)
    · exact .inr (.inr hc)
  | arguments hl ha hs iha ih =>
    obtain ⟨rfl, rfl, rfl⟩ | ⟨object, dot, name, he, hd, hn, hs⟩ | hc := ih
    · exact .inr (.inr iha)
    · exact .inr (.inl ⟨object, dot, name, he, hd, hn, .arguments hl ha hs⟩)
    · exact .inr (.inr hc)
  | argument _ _ _ _ _ ih => exact ih
  | lastArgument => exact ⟨_, _, _, rfl⟩

theorem ReadsExpr.of_name (h : ReadsExpr (.level l) ts n (.name ref) rest n₁) :
    ts = ref.token :: rest ∧ ref.token.kind = .identifier ∧ n₁ = n + 1 := by
  obtain hop | h := h.root
  · cases hop
  · obtain hp | ⟨_, _, _, he, _⟩ | ⟨_, _, _, he⟩ := h.root
    · cases hp with
      | name ht => exact ⟨rfl, ht, rfl⟩
    · cases he
    · cases he

theorem ReadsExpr.of_get (h : ReadsExpr (.level l) ts n (.get object t) rest n₁) :
    ∃ dot : Token, dot.kind = .punct .dot ∧ t.kind = .identifier ∧
      ReadsExpr .call ts n object (dot :: t :: rest) n₁ := by
  obtain hop | h := h.root
  · cases hop
  · obtain hp | ⟨_, dot, _, he, hd, hn, hs⟩ | ⟨_, _, _, he⟩ := h.root
    · cases hp
    · cases he
      exact ⟨dot, hd, hn, hs⟩
    · cases he

end Targets

section Assignment

variable {fuel : Nat} {nested : Parse Expr} (hn : Meets fuel 1 nested (ReadsExpr .assignment))

def ReadsTarget (target value : Expr) : Reading Expr := fun ts n e rest n₁ =>
  (∃ ref, target = .name ref ∧ e = .assign ⟨n, ref.token⟩ value ∧ rest = ts ∧ n₁ = n + 1) ∨
    ∃ object name, target = .get object name ∧ e = .set object name value ∧ rest = ts ∧ n₁ = n

theorem meets_assignTo (target value : Expr) (equals : Token) :
    Meets fuel 0 (assignTo target equals value) (ReadsTarget target value) := by
  unfold assignTo
  split
  · next ref =>
    refine ((meets_number ref.token).bind fun _ => meets_pure _).mono ?_ (Nat.le_refl fuel) (by omega)
    rintro ts n e rest n₁ ⟨_, _, _, ⟨rfl, rfl, rfl⟩, rfl, rfl, rfl⟩
    exact .inl ⟨ref, rfl, rfl, rfl, rfl⟩
  · next object name =>
    refine (meets_pure _).mono ?_ (Nat.le_refl fuel) (by omega)
    rintro ts n e rest n₁ ⟨rfl, rfl, rfl⟩
    exact .inr ⟨object, name, rfl, rfl, rfl, rfl⟩
  · next =>
    have hr : Meets fuel 0 (report .invalidTarget equals) fun _ _ _ _ _ => False := meets_report
    refine (hr.bind fun _ => meets_pure target).mono ?_ (by omega) (by omega)
    rintro ts n e rest n₁ ⟨_, _, _, hf, _⟩
    exact hf.elim

include hn in
theorem meets_disjunction :
    Meets (fuel + 1) 1 (disjunction (fuel + 1) nested) (ReadsExpr (.level .disjunction)) :=
  meets_leftAssoc (l := .disjunction) <| meets_leftAssoc (l := .conjunction) <|
    meets_leftAssoc (l := .equality) <| meets_leftAssoc (l := .comparison) <|
      meets_leftAssoc (l := .term) <| meets_leftAssoc (l := .factor) <| meets_unary hn

include hn in
theorem meets_assignment :
    Meets (fuel + 1) 1 (assignment (fuel + 1) nested) (ReadsExpr .assignment) := by
  refine Meets.mono ((meets_disjunction hn).bind fun target =>
    Meets.choice (fun equals _ => hn.bind fun value => meets_assignTo target value equals)
      (meets_pure target)) ?_ (by omega) (by omega)
  rintro ts n e rest n₁ ⟨target, mid, n₂, ht, ⟨equals, mid', rfl, heq, value, _, n₃, hv, htarget⟩ |
    ⟨-, rfl, rfl, rfl⟩⟩
  · obtain ⟨ref, rfl, rfl, rfl, rfl⟩ | ⟨object, name, rfl, rfl, rfl, rfl⟩ := htarget
    · obtain ⟨rfl, hk, rfl⟩ := ht.of_name
      exact .assignName hk (by simpa using heq) hv
    · obtain ⟨dot, hd, hk, ho⟩ := ht.of_get
      exact .assignProperty ho hd hk (by simpa using heq) hv
  · exact .value ht

theorem meets_expression (fuel : Nat) : Meets fuel 1 (expression fuel) (ReadsExpr .assignment) := by
  induction fuel with
  | zero => exact meets_exhausted
  | succ fuel ih => exact meets_assignment ih

end Assignment

theorem readsExpr_expression {c d : Cursor} (hc : c.eof.kind = .eof)
    (h : c.expression = (some e, d)) (hf : d.faults = c.faults) :
    ReadsExpr .assignment c.rest c.nextId e [] d.nextId := by
  have hmeets : MeetsAt c.fuel 1 (expression c.fuel) (ReadsExpr .assignment) c :=
    meets_expression c.fuel c hc
  unfold MeetsAt at hmeets
  cases he : Parse.expression c.fuel c with
  | error halt d' =>
    simp only [Cursor.expression, bind_error _ he] at h
    cases halt <;> cases h
  | ok e' d' =>
    rw [he] at hmeets
    obtain ⟨-, -, hreads⟩ := hmeets
    simp only [Cursor.expression, bind_ok _ he] at h
    cases hempty : d'.rest.isEmpty with
    | true =>
      have hend : Parse.atEnd d' = .ok true d' := by simp only [Parse.atEnd, hempty]
      simp only [bind_ok _ hend] at h
      obtain ⟨rfl, rfl⟩ : e' = e ∧ d' = d := by simpa [pure, EStateM.pure] using h
      exact List.isEmpty_iff.mp hempty ▸ hreads hf
    | false =>
      have hend : Parse.atEnd d' = .ok false d' := by simp only [Parse.atEnd, hempty]
      simp only [bind_ok _ hend] at h
      cases h

end Treewalk.Grammar
