import Treewalk.Proofs.Grammar.Meeting

namespace Treewalk

namespace Parse

variable {t : Token} {ts : List Token} {eof : Token} {n : Nat} {fs : List Diagnostic}

theorem acceptIf_cons {wanted : TokenKind → Bool} (h : wanted t.kind) :
    acceptIf wanted ⟨t :: ts, eof, n, fs⟩ = .ok (some t) ⟨ts, eof, n, fs⟩ := by
  simp [acceptIf, h]

theorem acceptIf_of_head {wanted : TokenKind → Bool} (h : ∀ t ∈ ts.head?, ¬ wanted t.kind) :
    acceptIf wanted ⟨ts, eof, n, fs⟩ = .ok none ⟨ts, eof, n, fs⟩ := by
  cases ts with
  | nil => rfl
  | cons t ts => simp [acceptIf, h t rfl]

theorem accept_cons {kind : TokenKind} (h : t.kind = kind) :
    accept kind ⟨t :: ts, eof, n, fs⟩ = .ok (some t) ⟨ts, eof, n, fs⟩ :=
  acceptIf_cons (by simpa using h)

theorem accept_of_head {kind : TokenKind} (h : ∀ t ∈ ts.head?, t.kind ≠ kind) :
    accept kind ⟨ts, eof, n, fs⟩ = .ok none ⟨ts, eof, n, fs⟩ :=
  acceptIf_of_head (by simpa using h)

theorem accept_cons_ne {kind : TokenKind} (h : t.kind ≠ kind) :
    accept kind ⟨t :: ts, eof, n, fs⟩ = .ok none ⟨t :: ts, eof, n, fs⟩ :=
  acceptIf_of_head (by simpa using h)

theorem expect_cons {kind : TokenKind} (fault : SyntaxFault) (h : t.kind = kind) :
    expect kind fault ⟨t :: ts, eof, n, fs⟩ = .ok t ⟨ts, eof, n, fs⟩ := by
  rw [expect, bind_ok _ (accept_cons h)]
  rfl

theorem check_cons {kind : TokenKind} (h : t.kind = kind) :
    check kind ⟨t :: ts, eof, n, fs⟩ = .ok true ⟨t :: ts, eof, n, fs⟩ := by
  simp [check, h]

theorem check_of_head {kind : TokenKind} (h : ∀ t ∈ ts.head?, t.kind ≠ kind) :
    check kind ⟨ts, eof, n, fs⟩ = .ok false ⟨ts, eof, n, fs⟩ := by
  cases ts with
  | nil => rfl
  | cons t ts => simp [check, h t rfl]

theorem take_cons : take ⟨t :: ts, eof, n, fs⟩ = .ok t ⟨ts, eof, n, fs⟩ := rfl

theorem peek_cons : peek ⟨t :: ts, eof, n, fs⟩ = .ok t ⟨t :: ts, eof, n, fs⟩ := rfl

end Parse

namespace Grammar

open Parse

def NotAhead (kinds : List TokenKind) (ts : List Token) : Prop := ∀ t ∈ ts.head?, t.kind ∉ kinds

theorem NotAhead.left {a b : List TokenKind} (h : NotAhead (a ++ b) ts) : NotAhead a ts :=
  fun t ht hm => h t ht (List.mem_append_left b hm)

theorem NotAhead.right {a b : List TokenKind} (h : NotAhead (a ++ b) ts) : NotAhead b ts :=
  fun t ht hm => h t ht (List.mem_append_right a hm)

theorem notAhead_cons {kinds : List TokenKind} (h : t.kind ∉ kinds) : NotAhead kinds (t :: ts) := by
  rintro _ ⟨⟩
  exact h

def suffixMarks : List TokenKind := [.punct .leftParen, .punct .dot]

def Level.tighter : Level → List Level
  | .disjunction => [.disjunction, .conjunction, .equality, .comparison, .term, .factor]
  | .conjunction => [.conjunction, .equality, .comparison, .term, .factor]
  | .equality => [.equality, .comparison, .term, .factor]
  | .comparison => [.comparison, .term, .factor]
  | .term => [.term, .factor]
  | .factor => [.factor]

def Phrase.continuations : Phrase → List TokenKind
  | .assignment => .punct .equal :: (Level.tighter .disjunction).flatMap Level.operators ++ suffixMarks
  | .level l => l.tighter.flatMap Level.operators ++ suffixMarks
  | .unary => suffixMarks
  | _ => []

theorem continuations_level (l : Level) :
    (Phrase.level l).continuations = l.operators ++ l.operand.continuations := by
  cases l <;> rfl

def opensPrimary (kind : TokenKind) : Bool :=
  (literal? kind).isSome ||
    kind ∈ [.identifier, .keyword .thisKw, .keyword .superKw, .punct .leftParen]

def opensExpression (kind : TokenKind) : Bool := opensPrimary kind || kind ∈ unaryOperators

def Phrase.least : Phrase → Nat
  | .operands _ _ | .suffixes _ => 0
  | _ => 1

theorem least_operand (l : Level) : l.operand.least = 1 := by cases l <;> rfl

theorem ReadsExpr.length_le (h : ReadsExpr phrase ts n e rest n₁) :
    rest.length + phrase.least ≤ ts.length := by
  induction h with
  | level _ _ ihl ihs =>
    rw [least_operand] at ihl
    simp only [Phrase.least] at *
    omega
  | operand _ _ _ ihr ihs =>
    rw [least_operand] at ihr
    simp only [Phrase.least, List.length_cons] at *
    omega
  | _ =>
    simp only [Phrase.least, List.length_cons] at *
    omega

def Opens : Phrase → List Token → Prop
  | .operands _ _, _ | .suffixes _, _ => True
  | .call, ts | .primary, ts => ∃ t mid, ts = t :: mid ∧ opensPrimary t.kind
  | _, ts => ∃ t mid, ts = t :: mid ∧ opensExpression t.kind

theorem opensExpression_of_primary {kind : TokenKind} (h : opensPrimary kind) :
    opensExpression kind := by
  simp [opensExpression, h]

theorem ReadsExpr.opens (h : ReadsExpr phrase ts n e rest n₁) : Opens phrase ts := by
  induction h with
  | assignName hn => exact ⟨_, _, rfl, by simp [hn, opensExpression, opensPrimary]⟩
  | assignProperty _ _ _ _ _ ih =>
    obtain ⟨t, mid, rfl, ht⟩ := ih
    exact ⟨t, mid, rfl, opensExpression_of_primary ht⟩
  | value _ ih => exact ih
  | @level _ _ _ _ _ _ _ _ l _ _ ih => cases l <;> exact ih
  | noOperand | operand | noSuffix | property | noArguments | arguments => trivial
  | operator hop => exact ⟨_, _, rfl, by simp [opensExpression, hop]⟩
  | noOperator _ ih =>
    obtain ⟨t, mid, rfl, ht⟩ := ih
    exact ⟨t, mid, rfl, opensExpression_of_primary ht⟩
  | call _ _ ih => exact ih
  | argument _ _ _ _ ih => exact ih
  | lastArgument _ _ _ ih => exact ih
  | literal h => exact ⟨_, _, rfl, by simp [opensPrimary, h]⟩
  | name h => exact ⟨_, _, rfl, by simp [opensPrimary, h]⟩
  | receiver h => exact ⟨_, _, rfl, by simp [opensPrimary, h]⟩
  | inherited h => exact ⟨_, _, rfl, by simp [opensPrimary, h]⟩
  | group h => exact ⟨_, _, rfl, by simp [opensPrimary, h]⟩

theorem operators_not_continue (l : Level) : ∀ k ∈ l.operators, k ∉ l.operand.continuations := by
  cases l <;> decide

theorem ReadsExpr.notAhead_operand (h : ReadsExpr (.operands l left) ts n e rest n₁)
    (hr : NotAhead (Phrase.level l).continuations rest) : NotAhead l.operand.continuations ts := by
  cases h with
  | noOperand =>
    rw [continuations_level] at hr
    exact hr.right
  | operand hop => exact notAhead_cons (operators_not_continue l _ hop)

section Rules

variable (fuel : Nat) (nested : Parse Expr)

def Level.parser : Level → Parse Expr
  | .disjunction => Parse.disjunction fuel nested
  | .conjunction => Parse.conjunction fuel nested
  | .equality => Parse.equality fuel nested
  | .comparison => Parse.comparison fuel nested
  | .term => Parse.term fuel nested
  | .factor => Parse.factor fuel nested

def Level.operandParser : Level → Parse Expr
  | .disjunction => Parse.conjunction fuel nested
  | .conjunction => Parse.equality fuel nested
  | .equality => Parse.comparison fuel nested
  | .comparison => Parse.term fuel nested
  | .term => Parse.factor fuel nested
  | .factor => Parse.unary fuel nested

theorem Level.parser_eq (l : Level) :
    l.parser fuel nested = leftAssoc fuel l.operators l.node (l.operandParser fuel nested) := by
  cases l <;> rfl

def unaryFrom (m : Nat) : Parse Expr := do
  let ops ← Parse.unaryOperators m
  return ops.foldr .unary (← call fuel nested)

end Rules

def Parses (fuel : Nat) (eof : Token) (fs : List Diagnostic) : Phrase → Reading Expr
  | .assignment => fun ts n e rest n₁ => NotAhead Phrase.assignment.continuations rest →
      expression (fuel + 1) ⟨ts, eof, n, fs⟩ = .ok e ⟨rest, eof, n₁, fs⟩
  | .level l => fun ts n e rest n₁ => NotAhead (Phrase.level l).continuations rest →
      l.parser (fuel + 1) (expression fuel) ⟨ts, eof, n, fs⟩ = .ok e ⟨rest, eof, n₁, fs⟩
  | .unary => fun ts n e rest n₁ => NotAhead Phrase.unary.continuations rest →
      ∀ m > ts.length, unaryFrom (fuel + 1) (expression fuel) m ⟨ts, eof, n, fs⟩ =
        .ok e ⟨rest, eof, n₁, fs⟩
  | .call => fun ts n e rest n₁ => ∃ m > rest.length,
      call (fuel + 1) (expression fuel) ⟨ts, eof, n, fs⟩ =
        suffixes (fuel + 1) (expression fuel) m e ⟨rest, eof, n₁, fs⟩
  | .primary => fun ts n e rest n₁ =>
      primary (expression fuel) ⟨ts, eof, n, fs⟩ = .ok e ⟨rest, eof, n₁, fs⟩
  | .operands l left => fun ts n e rest n₁ => NotAhead (Phrase.level l).continuations rest →
      ∀ m > ts.length, operands l.operators l.node (l.operandParser (fuel + 1) (expression fuel)) m
        left ⟨ts, eof, n, fs⟩ = .ok e ⟨rest, eof, n₁, fs⟩
  | .suffixes callee => fun ts n e rest n₁ => ∀ m > ts.length, ∃ m' > rest.length,
      suffixes (fuel + 1) (expression fuel) m callee ⟨ts, eof, n, fs⟩ =
        suffixes (fuel + 1) (expression fuel) m' e ⟨rest, eof, n₁, fs⟩
  | .arguments callee before => fun ts n e rest n₁ => ∀ m > ts.length, ∃ args right,
      right.kind = .punct .rightParen ∧ e = .call callee right (before ++ args) ∧
        arguments (expression (fuel + 1)) m before.length ⟨ts, eof, n, fs⟩ =
          .ok args ⟨right :: rest, eof, n₁, fs⟩

section Steps

variable {fuel : Nat} {nested : Parse Expr} {eof : Token} {fs : List Diagnostic}

theorem suffixes_stop {m : Nat} (hm : 0 < m) (hr : NotAhead suffixMarks rest) :
    suffixes fuel nested m e ⟨rest, eof, n, fs⟩ = .ok e ⟨rest, eof, n, fs⟩ := by
  obtain ⟨m, rfl⟩ := Nat.exists_eq_add_of_lt hm
  have hparen : ∀ t ∈ rest.head?, t.kind ≠ .punct .leftParen := fun t ht h =>
    hr t ht (by simp [suffixMarks, h])
  have hdot : ∀ t ∈ rest.head?, t.kind ≠ .punct .dot := fun t ht h =>
    hr t ht (by simp [suffixMarks, h])
  rw [suffixes, bind_ok _ (accept_of_head hparen)]
  dsimp only
  rw [bind_ok _ (accept_of_head hdot)]
  rfl

theorem suffixes_property {m : Nat} (hdot : dot.kind = .punct .dot)
    (hname : name.kind = .identifier) :
    suffixes fuel nested (m + 1) e ⟨dot :: name :: ts, eof, n, fs⟩ =
      suffixes fuel nested m (.get e name) ⟨ts, eof, n, fs⟩ := by
  rw [suffixes, bind_ok _ (accept_cons_ne (by rw [hdot]; decide))]
  dsimp only
  rw [bind_ok _ (accept_cons hdot)]
  dsimp only
  rw [bind_ok _ (expect_cons _ hname)]

theorem suffixes_call {m : Nat} (hleft : left.kind = .punct .leftParen)
    (htail : callTail fuel nested e ⟨ts, eof, n, fs⟩ = .ok e₁ ⟨rest, eof, n₁, fs⟩) :
    suffixes fuel nested (m + 1) e ⟨left :: ts, eof, n, fs⟩ =
      suffixes fuel nested m e₁ ⟨rest, eof, n₁, fs⟩ := by
  rw [suffixes, bind_ok _ (accept_cons hleft)]
  dsimp only
  rw [bind_ok _ htail]

theorem callTail_nil (hright : right.kind = .punct .rightParen) :
    callTail fuel nested callee ⟨right :: ts, eof, n, fs⟩ =
      .ok (.call callee right []) ⟨ts, eof, n, fs⟩ := by
  rw [callTail, bind_ok _ (check_cons hright)]
  simp only [if_true]
  rw [pure_bind, expectMark, bind_ok _ (expect_cons _ hright)]
  rfl

theorem callTail_arguments (hts : ∀ t ∈ ts.head?, t.kind ≠ .punct .rightParen)
    (hargs : arguments nested fuel 0 ⟨ts, eof, n, fs⟩ = .ok args ⟨right :: rest, eof, n₁, fs⟩)
    (hright : right.kind = .punct .rightParen) :
    callTail fuel nested callee ⟨ts, eof, n, fs⟩ =
      .ok (.call callee right args) ⟨rest, eof, n₁, fs⟩ := by
  rw [callTail, bind_ok _ (check_of_head hts)]
  simp only [Bool.false_eq_true, if_false]
  rw [bind_ok _ hargs, expectMark, bind_ok _ (expect_cons _ hright)]
  rfl

theorem leftAssoc_of_operand {ops : List TokenKind} {node : Expr → Token → Expr → Expr}
    {operand : Parse Expr} {c : Cursor} (ho : operand c = .ok e ⟨rest, eof, n, fs⟩)
    (hr : NotAhead ops rest) :
    leftAssoc (fuel + 1) ops node operand c = .ok e ⟨rest, eof, n, fs⟩ := by
  have hstop : ∀ t ∈ rest.head?, ¬ decide (t.kind ∈ ops) := by simpa [NotAhead] using hr
  rw [leftAssoc, bind_ok _ ho, operands, bind_ok _ (acceptIf_of_head hstop)]
  rfl

theorem leftAssoc_of_operands {l : Level}
    (ho : l.operandParser fuel nested ⟨ts, eof, n, fs⟩ = .ok left ⟨mid, eof, n₁, fs⟩)
    (hs : operands l.operators l.node (l.operandParser fuel nested) fuel left ⟨mid, eof, n₁, fs⟩ =
      .ok e ⟨rest, eof, n₂, fs⟩) :
    l.parser fuel nested ⟨ts, eof, n, fs⟩ = .ok e ⟨rest, eof, n₂, fs⟩ := by
  rw [Level.parser_eq, leftAssoc, bind_ok _ ho, hs]

theorem unaryFrom_of_call {m : Nat} (hm : 0 < m) (hts : NotAhead unaryOperators ts)
    (hc : call fuel nested ⟨ts, eof, n, fs⟩ = .ok e ⟨rest, eof, n₁, fs⟩) :
    unaryFrom fuel nested m ⟨ts, eof, n, fs⟩ = .ok e ⟨rest, eof, n₁, fs⟩ := by
  obtain ⟨m, rfl⟩ := Nat.exists_eq_add_of_lt hm
  have hstop : ∀ t ∈ ts.head?, ¬ decide (t.kind ∈ [.punct .bang, .punct .minus]) := by
    simpa [NotAhead, unaryOperators] using hts
  rw [unaryFrom, Parse.unaryOperators, bind_assoc, bind_ok _ (acceptIf_of_head hstop)]
  dsimp only
  rw [pure_bind, bind_ok _ hc]
  rfl

theorem disjunction_of_call (hts : NotAhead unaryOperators ts)
    (hr : NotAhead (Phrase.level .disjunction).continuations rest)
    (hc : call (fuel + 1) nested ⟨ts, eof, n, fs⟩ = .ok e ⟨rest, eof, n₁, fs⟩) :
    disjunction (fuel + 1) nested ⟨ts, eof, n, fs⟩ = .ok e ⟨rest, eof, n₁, fs⟩ := by
  have stops (l : Level) (hl : ∀ k ∈ l.operators, k ∈ (Phrase.level .disjunction).continuations) :
      NotAhead l.operators rest := fun t ht hk => hr t ht (hl _ hk)
  apply leftAssoc_of_operand _ (stops .disjunction (by decide))
  apply leftAssoc_of_operand _ (stops .conjunction (by decide))
  apply leftAssoc_of_operand _ (stops .equality (by decide))
  apply leftAssoc_of_operand _ (stops .comparison (by decide))
  apply leftAssoc_of_operand _ (stops .term (by decide))
  apply leftAssoc_of_operand _ (stops .factor (by decide))
  exact unaryFrom_of_call (Nat.succ_pos fuel) hts hc

theorem primary_literal (h : literal? t.kind = some v) :
    primary nested ⟨t :: ts, eof, n, fs⟩ = .ok (.literal v) ⟨ts, eof, n, fs⟩ := by
  rw [primary, bind_ok _ peek_cons]
  generalize t.kind = kind at h
  unfold literal? at h
  split at h <;> cases h <;> rfl

theorem primary_name (h : t.kind = .identifier) :
    primary nested ⟨t :: ts, eof, n, fs⟩ = .ok (.name ⟨n, t⟩) ⟨ts, eof, n + 1, fs⟩ := by
  rw [primary, bind_ok _ peek_cons, h]
  rfl

theorem primary_receiver (h : t.kind = .keyword .thisKw) :
    primary nested ⟨t :: ts, eof, n, fs⟩ = .ok (.receiver ⟨n, t⟩) ⟨ts, eof, n + 1, fs⟩ := by
  rw [primary, bind_ok _ peek_cons, h]
  rfl

theorem primary_inherited (h : t.kind = .keyword .superKw) (hdot : dot.kind = .punct .dot)
    (hm : method.kind = .identifier) :
    primary nested ⟨t :: dot :: method :: ts, eof, n, fs⟩ =
      .ok (.inherited ⟨n, t⟩ method) ⟨ts, eof, n + 1, fs⟩ := by
  rw [primary, bind_ok _ peek_cons, h]
  dsimp only
  rw [bind_ok _ take_cons, expectMark, bind_ok _ (expect_cons _ hdot), expectName,
    bind_ok _ (expect_cons _ hm)]
  rfl

theorem primary_group (hl : left.kind = .punct .leftParen) (hr : right.kind = .punct .rightParen)
    (hin : nested ⟨ts, eof, n, fs⟩ = .ok e ⟨right :: rest, eof, n₁, fs⟩) :
    primary nested ⟨left :: ts, eof, n, fs⟩ = .ok (.group e) ⟨rest, eof, n₁, fs⟩ := by
  rw [primary, bind_ok _ peek_cons, hl]
  dsimp only
  rw [bind_ok _ take_cons, bind_ok _ hin, expectMark, bind_ok _ (expect_cons _ hr)]
  rfl

theorem arguments_more {m count : Nat} (hcount : count < maxArity)
    (hin : nested ⟨ts, eof, n, fs⟩ = .ok e ⟨comma :: mid, eof, n₁, fs⟩)
    (hcomma : comma.kind = .punct .comma)
    (hargs : arguments nested m (count + 1) ⟨mid, eof, n₁, fs⟩ = .ok args ⟨rest, eof, n₂, fs⟩) :
    arguments nested (m + 1) count ⟨ts, eof, n, fs⟩ = .ok (e :: args) ⟨rest, eof, n₂, fs⟩ := by
  rw [arguments, if_neg (by omega)]
  dsimp only
  rw [bind_ok _ hin, bind_ok _ (accept_cons hcomma)]
  dsimp only
  rw [bind_ok _ hargs]
  rfl

theorem arguments_last {m count : Nat} (hcount : count < maxArity)
    (hin : nested ⟨ts, eof, n, fs⟩ = .ok e ⟨right :: rest, eof, n₁, fs⟩)
    (hright : right.kind = .punct .rightParen) :
    arguments nested (m + 1) count ⟨ts, eof, n, fs⟩ =
      .ok [e] ⟨right :: rest, eof, n₁, fs⟩ := by
  rw [arguments, if_neg (by omega)]
  dsimp only
  rw [bind_ok _ hin, bind_ok _ (accept_cons_ne (by rw [hright]; decide))]
  rfl

theorem unaryFrom_operator {m : Nat} (hop : op.kind ∈ unaryOperators)
    (he : unaryFrom fuel nested m ⟨ts, eof, n, fs⟩ = .ok e ⟨rest, eof, n₁, fs⟩) :
    unaryFrom fuel nested (m + 1) ⟨op :: ts, eof, n, fs⟩ =
      .ok (.unary op e) ⟨rest, eof, n₁, fs⟩ := by
  have hop : decide (op.kind ∈ [.punct .bang, .punct .minus]) := by
    simpa [unaryOperators] using hop
  rw [unaryFrom, Parse.unaryOperators, bind_assoc, bind_ok _ (acceptIf_cons hop)]
  dsimp only
  rw [bind_assoc]
  simp only [pure_bind, List.foldr_cons]
  obtain ⟨ops, d, hops⟩ : ∃ ops d, Parse.unaryOperators m ⟨ts, eof, n, fs⟩ = .ok ops d := by
    cases h : Parse.unaryOperators m ⟨ts, eof, n, fs⟩ with
    | ok ops d => exact ⟨ops, d, rfl⟩
    | error =>
      rw [unaryFrom, bind_error _ h] at he
      cases he
  rw [unaryFrom, bind_ok _ hops] at he
  rw [bind_ok _ hops]
  cases hc : call fuel nested d with
  | ok e₁ d₁ =>
    rw [bind_ok _ hc] at he ⊢
    cases he
    rfl
  | error =>
    rw [bind_error _ hc] at he
    cases he

theorem operands_more {m : Nat} {ops : List TokenKind} {node : Expr → Token → Expr → Expr}
    {operand : Parse Expr} (hop : op.kind ∈ ops)
    (ho : operand ⟨ts, eof, n, fs⟩ = .ok right ⟨mid, eof, n₁, fs⟩) :
    operands ops node operand (m + 1) left ⟨op :: ts, eof, n, fs⟩ =
      operands ops node operand m (node left op right) ⟨mid, eof, n₁, fs⟩ := by
  rw [operands, bind_ok _ (acceptIf_cons (decide_eq_true hop))]
  dsimp only
  rw [bind_ok _ ho]

theorem operands_stop {m : Nat} {ops : List TokenKind} {node : Expr → Token → Expr → Expr}
    {operand : Parse Expr} (hr : NotAhead ops ts) :
    operands ops node operand (m + 1) left ⟨ts, eof, n, fs⟩ = .ok left ⟨ts, eof, n, fs⟩ := by
  have hstop : ∀ t ∈ ts.head?, ¬ decide (t.kind ∈ ops) := by simpa [NotAhead] using hr
  rw [operands, bind_ok _ (acceptIf_of_head hstop)]
  rfl

theorem assignment_name (hn : name.kind = .identifier) (heq : equals.kind = .punct .equal)
    (hv : nested ⟨ts, eof, n + 1, fs⟩ = .ok e ⟨rest, eof, n₁, fs⟩) :
    assignment (fuel + 1) nested ⟨name :: equals :: ts, eof, n, fs⟩ =
      .ok (.assign ⟨n₁, name⟩ e) ⟨rest, eof, n₁ + 1, fs⟩ := by
  have hname : NotAhead unaryOperators (name :: equals :: ts) := notAhead_cons (by rw [hn]; decide)
  have hequals : NotAhead suffixMarks (equals :: ts) := notAhead_cons (by rw [heq]; decide)
  have hstop : NotAhead (Phrase.level .disjunction).continuations (equals :: ts) :=
    notAhead_cons (by rw [heq]; decide)
  have hcall : call (fuel + 1) nested ⟨name :: equals :: ts, eof, n, fs⟩ =
      .ok (.name ⟨n, name⟩) ⟨equals :: ts, eof, n + 1, fs⟩ := by
    rw [call, bind_ok _ (primary_name hn)]
    exact suffixes_stop (Nat.succ_pos fuel) hequals
  rw [assignment, bind_ok _ (disjunction_of_call hname hstop hcall), bind_ok _ (accept_cons heq)]
  dsimp only
  rw [bind_ok _ hv]
  rfl

theorem assignment_property
    (ht : disjunction fuel nested ⟨ts, eof, n, fs⟩ =
      .ok (.get object name) ⟨equals :: mid, eof, n₁, fs⟩)
    (heq : equals.kind = .punct .equal)
    (hv : nested ⟨mid, eof, n₁, fs⟩ = .ok e ⟨rest, eof, n₂, fs⟩) :
    assignment fuel nested ⟨ts, eof, n, fs⟩ = .ok (.set object name e) ⟨rest, eof, n₂, fs⟩ := by
  rw [assignment, bind_ok _ ht, bind_ok _ (accept_cons heq)]
  dsimp only
  rw [bind_ok _ hv]
  rfl

theorem assignment_value
    (ht : disjunction fuel nested ⟨ts, eof, n, fs⟩ = .ok e ⟨rest, eof, n₁, fs⟩)
    (hr : ∀ t ∈ rest.head?, t.kind ≠ .punct .equal) :
    assignment fuel nested ⟨ts, eof, n, fs⟩ = .ok e ⟨rest, eof, n₁, fs⟩ := by
  rw [assignment, bind_ok _ ht, bind_ok _ (accept_of_head hr)]
  rfl

end Steps

theorem opensPrimary_not_operator {kind : TokenKind} (h : opensPrimary kind) :
    kind ∉ unaryOperators := by
  intro hk
  simp only [unaryOperators, List.mem_cons, List.not_mem_nil, or_false] at hk
  obtain rfl | rfl := hk
  · simp [opensPrimary, literal?] at h
  · simp [opensPrimary, literal?] at h

theorem opensExpression_ne_punct {kind : TokenKind} {mark : Punctuator} (h : opensExpression kind)
    (hm : mark ∉ [.leftParen, .bang, .minus]) : kind ≠ .punct mark := by
  rintro rfl
  simp only [List.mem_cons, List.not_mem_nil, or_false, not_or] at hm
  simp [opensExpression, opensPrimary, literal?, unaryOperators, hm] at h

theorem operandParser_of_parses {l : Level} (h : Parses fuel eof fs l.operand ts n e rest n₁)
    (hr : NotAhead l.operand.continuations rest) (hf : ts.length ≤ fuel) :
    l.operandParser (fuel + 1) (expression fuel) ⟨ts, eof, n, fs⟩ = .ok e ⟨rest, eof, n₁, fs⟩ := by
  cases l with
  | factor => exact h hr (fuel + 1) (Nat.lt_succ_of_le hf)
  | _ => exact h hr

theorem ReadsExpr.parses (h : ReadsExpr phrase ts n e rest n₁) :
    ∀ fuel ≥ ts.length, Parses fuel eof fs phrase ts n e rest n₁ := by
  induction h with
  | literal h => exact fun _ _ => primary_literal h
  | name h => exact fun _ _ => primary_name h
  | receiver h => exact fun _ _ => primary_receiver h
  | inherited h hdot hm => exact fun _ _ => primary_inherited h hdot hm
  | group hl he hr ih =>
    rintro (_ | fuel) hf
    · cases hf
    exact primary_group hl hr
      (ih fuel (Nat.le_of_succ_le_succ hf) (notAhead_cons (by rw [hr]; decide)))
  | noSuffix => exact fun fuel _ m hm => ⟨m, hm, rfl⟩
  | property hdot hname hs ih =>
    rintro fuel hf (_ | m) hm
    · cases hm
    simp only [List.length_cons] at hf hm
    obtain ⟨m', hm', hs⟩ := ih fuel (by omega) m (by omega)
    exact ⟨m', hm', (suffixes_property hdot hname).trans hs⟩
  | noArguments hl hr hs ih =>
    rintro fuel hf (_ | m) hm
    · cases hm
    simp only [List.length_cons] at hf hm
    obtain ⟨m', hm', hs⟩ := ih fuel (by omega) m (by omega)
    exact ⟨m', hm', (suffixes_call hl (callTail_nil hr)).trans hs⟩
  | arguments hl ha hs iha ih =>
    rintro (_ | fuel) hf (_ | m) hm
    · cases hf
    · cases hf
    · cases hm
    simp only [List.length_cons] at hf hm
    have hlen := ha.length_le
    -- an argument does not open with the closing parenthesis
    obtain ⟨t, mid, rfl, ht⟩ := ha.opens
    have hhead : ∀ u ∈ (t :: mid).head?, u.kind ≠ .punct .rightParen := by
      rintro _ ⟨⟩
      exact opensExpression_ne_punct ht (by decide)
    obtain ⟨args, right, hr, rfl, hargs⟩ := iha fuel (by omega) (fuel + 2) (by omega)
    obtain ⟨m', hm', hs⟩ := ih (fuel + 1) (by omega) m (by omega)
    exact ⟨m', hm', (suffixes_call hl (callTail_arguments hhead hargs hr)).trans hs⟩
  | argument hcount ha hcomma hs iha ih =>
    rintro fuel hf (_ | m) hm
    · cases hm
    have hle := ha.length_le
    simp only [List.length_cons, Phrase.least] at hle
    have hin := iha fuel hf (notAhead_cons (by rw [hcomma]; decide))
    obtain ⟨args, right, hr, rfl, hargs⟩ := ih fuel (by omega) m (by omega)
    rw [List.length_append] at hargs
    exact ⟨_, right, hr, by rw [List.append_assoc]; rfl, arguments_more hcount hin hcomma hargs⟩
  | lastArgument hcount ha hr iha =>
    rintro fuel hf (_ | m) hm
    · cases hm
    have hin := iha fuel hf (notAhead_cons (by rw [hr]; decide))
    exact ⟨_, _, hr, rfl, arguments_last hcount hin hr⟩
  | call hp hs ihp ih =>
    intro fuel hf
    have hle := hp.length_le
    simp only [Phrase.least] at hle
    obtain ⟨m', hm', hs⟩ := ih fuel (by omega) (fuel + 1) (by omega)
    have hprim := ihp fuel hf
    exact ⟨m', hm', (bind_ok _ hprim).trans hs⟩
  | operator hop _ ih =>
    rintro fuel hf hr (_ | m) hm
    · cases hm
    simp only [List.length_cons] at hf hm
    exact unaryFrom_operator hop (ih fuel (by omega) hr m (by omega))
  | noOperator hc ih =>
    intro fuel hf hr m hm
    obtain ⟨t, mid, rfl, ht⟩ := hc.opens
    obtain ⟨m', hm', hc⟩ := ih fuel hf
    exact unaryFrom_of_call (by omega) (notAhead_cons (opensPrimary_not_operator ht))
      (hc.trans (suffixes_stop (by omega) hr))
  | noOperand =>
    rintro fuel hf hr (_ | m) hm
    · cases hm
    rw [continuations_level] at hr
    exact operands_stop hr.left
  | @operand _ _ _ _ _ _ _ l left right op hop hright hs ihr ih =>
    rintro fuel hf hr (_ | m) hm
    · cases hm
    have hle := hright.length_le
    rw [least_operand] at hle
    simp only [List.length_cons] at hf hm
    have hmid := hs.notAhead_operand hr
    have ho := operandParser_of_parses (ihr fuel (by omega)) hmid (by omega)
    exact (operands_more hop ho).trans (ih fuel (by omega) hr m (by omega))
  | @level _ _ _ _ _ _ _ _ l hl hs ihl ih =>
    intro fuel hf hr
    have hle := hl.length_le
    have hmid := hs.notAhead_operand hr
    have ho := operandParser_of_parses (ihl fuel hf) hmid hf
    exact leftAssoc_of_operands ho (ih fuel (by omega) hr (fuel + 1) (by omega))
  | value _ ih =>
    intro fuel hf hr
    refine assignment_value (ih fuel hf (NotAhead.right (a := [.punct .equal]) hr)) ?_
    exact fun t ht h => hr t ht (by simp [Phrase.continuations, h])
  | assignName hn heq hv ih =>
    rintro (_ | fuel) hf hr
    · cases hf
    simp only [List.length_cons] at hf
    exact assignment_name hn heq (ih fuel (by omega) hr)
  | assignProperty ho hdot hname heq hv iho ih =>
    intro fuel hf hr
    have hle := ho.length_le
    simp only [List.length_cons] at hle
    obtain ⟨fuel, rfl⟩ : ∃ k, fuel = k + 1 := ⟨fuel - 1, by omega⟩
    obtain ⟨t, mid, rfl, ht⟩ := ho.opens
    obtain ⟨m, hm, hcall⟩ := iho (fuel + 1) hf
    simp only [List.length_cons] at hm
    obtain ⟨m, rfl⟩ : ∃ k, m = k + 1 := ⟨m - 1, by omega⟩
    have hget := hcall.trans ((suffixes_property hdot hname).trans
      (suffixes_stop (by omega) (notAhead_cons (by rw [heq]; decide))))
    exact assignment_property (disjunction_of_call (notAhead_cons (opensPrimary_not_operator ht))
      (notAhead_cons (by rw [heq]; decide)) hget) heq (ih fuel (by omega) hr)

theorem expression_of_reads (h : ReadsExpr .assignment ts n e rest n₁)
    (hr : NotAhead Phrase.assignment.continuations rest) (hf : ts.length < fuel) :
    expression fuel ⟨ts, eof, n, fs⟩ = .ok e ⟨rest, eof, n₁, fs⟩ := by
  obtain ⟨fuel, rfl⟩ : ∃ k, fuel = k + 1 := ⟨fuel - 1, by omega⟩
  exact h.parses fuel (by omega) hr

theorem opensExpression_ne_keyword {kind : TokenKind} {word : Keyword} (h : opensExpression kind)
    (hw : word ∉ [.falseKw, .trueKw, .nilKw, .thisKw, .superKw]) : kind ≠ .keyword word := by
  rintro rfl
  cases word <;> revert h hw <;> decide

end Grammar

end Treewalk
