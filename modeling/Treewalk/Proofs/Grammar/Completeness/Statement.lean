import Treewalk.Proofs.Grammar.Completeness.Expression
import Treewalk.Proofs.Grammar.Soundness.Statement

namespace Treewalk

namespace Grammar

open Parse

theorem ReadsExpr.head_ne_punct {mark : Punctuator} (h : ReadsExpr .assignment ts n e rest n₁)
    (hm : mark ∉ [.leftParen, .bang, .minus]) : ∀ t ∈ ts.head?, t.kind ≠ .punct mark := by
  obtain ⟨t, mid, rfl, ht⟩ := h.opens
  rintro _ ⟨⟩
  exact opensExpression_ne_punct ht hm

theorem ReadsExpr.head_ne_keyword {word : Keyword} (h : ReadsExpr .assignment ts n e rest n₁)
    (hw : word ∉ [.falseKw, .trueKw, .nilKw, .thisKw, .superKw]) :
    ∀ t ∈ ts.head?, t.kind ≠ .keyword word := by
  obtain ⟨t, mid, rfl, ht⟩ := h.opens
  rintro _ ⟨⟩
  exact opensExpression_ne_keyword ht hw

theorem notAhead_of_kind {kind : TokenKind} (h : t.kind = kind)
    (hk : kind ∉ Phrase.assignment.continuations) :
    NotAhead Phrase.assignment.continuations (t :: ts) :=
  notAhead_cons (h ▸ hk)

def ParsesExpr (fuel : Nat) (eof : Token) (fs : List Diagnostic) (expr : Parse Expr) : Prop :=
  ∀ {ts n e rest n₁}, ReadsExpr .assignment ts n e rest n₁ →
    NotAhead Phrase.assignment.continuations rest → ts.length < fuel →
      expr ⟨ts, eof, n, fs⟩ = .ok e ⟨rest, eof, n₁, fs⟩

section Statements

variable {fuel : Nat} {eof : Token} {fs : List Diagnostic} {expr : Parse Expr} {stmt : Parse Stmt}
  {decl : Parse (Option Stmt)}

section

variable (he : ParsesExpr fuel eof fs expr)
include he

theorem unlessMark_of_reads {mark : Punctuator} (h : ReadsOption mark ts n v rest n₁)
    (hm : mark ∉ [.leftParen, .bang, .minus]) (hk : .punct mark ∉ Phrase.assignment.continuations)
    (hf : ts.length < fuel) : ∃ m : Token, m.kind = .punct mark ∧
      unlessMark expr mark ⟨ts, eof, n, fs⟩ = .ok v ⟨m :: rest, eof, n₁, fs⟩ := by
  cases h with
  | none h =>
    refine ⟨_, h, ?_⟩
    rw [unlessMark, bind_ok _ (check_cons h)]
    rfl
  | some h hmark =>
    refine ⟨_, hmark, ?_⟩
    rw [unlessMark, bind_ok _ (check_of_head (h.head_ne_punct hm))]
    simp only [Bool.false_eq_true, if_false]
    rw [bind_ok _ (he h (notAhead_of_kind hmark hk) hf)]
    rfl

theorem varDeclaration_of_reads (h : ReadsVariable ts n s rest n₁) (hf : ts.length < fuel) :
    varDeclaration expr ⟨ts, eof, n, fs⟩ = .ok s ⟨rest, eof, n₁, fs⟩ := by
  cases h with
  | plain hname hsemi =>
    rw [varDeclaration, expectName, bind_ok _ (expect_cons _ hname),
      bind_ok _ (accept_cons_ne (by rw [hsemi]; decide))]
    dsimp only
    rw [pure_bind, expectMark, bind_ok _ (expect_cons _ hsemi)]
    rfl
  | initialized hname heq h hsemi =>
    simp only [List.length_cons] at hf
    have hv := he h (notAhead_of_kind hsemi (by decide)) (by omega)
    rw [varDeclaration, expectName, bind_ok _ (expect_cons _ hname), bind_ok _ (accept_cons heq)]
    dsimp only
    rw [bind_ok _ (map_ok some hv), expectMark, bind_ok _ (expect_cons _ hsemi)]
    rfl

theorem expressionStatement_of_reads (h : ReadsExpr .assignment ts n e (semi :: rest) n₁)
    (hsemi : semi.kind = .punct .semicolon) (hf : ts.length < fuel) :
    expressionStatement expr ⟨ts, eof, n, fs⟩ = .ok (.expr e) ⟨rest, eof, n₁, fs⟩ := by
  rw [expressionStatement, bind_ok _ (he h (notAhead_of_kind hsemi (by decide)) hf), expectMark,
    bind_ok _ (expect_cons _ hsemi)]
  rfl

theorem printStatement_of_reads (h : ReadsExpr .assignment ts n e (semi :: rest) n₁)
    (hsemi : semi.kind = .punct .semicolon) (hf : ts.length < fuel) :
    printStatement expr ⟨ts, eof, n, fs⟩ = .ok (.print e) ⟨rest, eof, n₁, fs⟩ := by
  rw [printStatement, bind_ok _ (he h (notAhead_of_kind hsemi (by decide)) hf), expectMark,
    bind_ok _ (expect_cons _ hsemi)]
  rfl

theorem returnStatement_of_reads (h : ReadsOption .semicolon ts n v rest n₁)
    (hf : ts.length < fuel) :
    returnStatement expr kw ⟨ts, eof, n, fs⟩ = .ok (.ret kw v) ⟨rest, eof, n₁, fs⟩ := by
  obtain ⟨m, hm, hv⟩ := unlessMark_of_reads he h (by decide) (by decide) hf
  rw [returnStatement, bind_ok _ hv, expectMark, bind_ok _ (expect_cons _ hm)]
  rfl

theorem forStart_of_reads (h : ReadsStart ts n s rest n₁) (hf : ts.length < fuel) :
    forStart expr ⟨ts, eof, n, fs⟩ = .ok s ⟨rest, eof, n₁, fs⟩ := by
  cases h with
  | none hsemi =>
    rw [forStart, bind_ok _ (accept_cons hsemi)]
    rfl
  | «variable» hkw h =>
    simp only [List.length_cons] at hf
    rw [forStart, bind_ok _ (accept_cons_ne (by rw [hkw]; decide))]
    dsimp only
    rw [bind_ok _ (accept_cons hkw)]
    exact map_ok some (varDeclaration_of_reads he h (by omega))
  | expression h hsemi =>
    rw [forStart, bind_ok _ (accept_of_head (h.head_ne_punct (by decide)))]
    dsimp only
    rw [bind_ok _ (accept_of_head (h.head_ne_keyword (by decide)))]
    exact map_ok some (expressionStatement_of_reads he h hsemi hf)

end

theorem whileStatement_of_reads (he : ParsesExpr fuel eof fs expr)
    (hl : left.kind = .punct .leftParen) (hc : ReadsExpr .assignment ts n c (right :: mid) n₁)
    (hr : right.kind = .punct .rightParen) (hf : ts.length < fuel)
    (hb : stmt ⟨mid, eof, n₁, fs⟩ = .ok body ⟨rest, eof, n₂, fs⟩) :
    whileStatement expr stmt ⟨left :: ts, eof, n, fs⟩ =
      .ok (.loop c body) ⟨rest, eof, n₂, fs⟩ := by
  rw [whileStatement, expectMark, bind_ok _ (expect_cons _ hl),
    bind_ok _ (he hc (notAhead_of_kind hr (by decide)) hf), expectMark,
    bind_ok _ (expect_cons _ hr), bind_ok _ hb]
  rfl

theorem ifStatement_of_reads (he : ParsesExpr fuel eof fs expr)
    (hl : left.kind = .punct .leftParen) (hc : ReadsExpr .assignment ts n c (right :: mid) n₁)
    (hr : right.kind = .punct .rightParen) (hf : ts.length < fuel)
    (ht : stmt ⟨mid, eof, n₁, fs⟩ = .ok t ⟨rest, eof, n₂, fs⟩)
    (hrest : ∀ t ∈ rest.head?, t.kind ≠ .keyword .elseKw) :
    ifStatement expr stmt ⟨left :: ts, eof, n, fs⟩ =
      .ok (.ifThen c t) ⟨rest, eof, n₂, fs⟩ := by
  rw [ifStatement, expectMark, bind_ok _ (expect_cons _ hl),
    bind_ok _ (he hc (notAhead_of_kind hr (by decide)) hf), expectMark,
    bind_ok _ (expect_cons _ hr), bind_ok _ ht, bind_ok _ (accept_of_head hrest)]
  rfl

theorem ifElseStatement_of_reads (he : ParsesExpr fuel eof fs expr)
    (hl : left.kind = .punct .leftParen) (hc : ReadsExpr .assignment ts n c (right :: mid) n₁)
    (hr : right.kind = .punct .rightParen) (hf : ts.length < fuel)
    (ht : stmt ⟨mid, eof, n₁, fs⟩ = .ok t ⟨other :: mid₁, eof, n₂, fs⟩)
    (hother : other.kind = .keyword .elseKw)
    (hs : stmt ⟨mid₁, eof, n₂, fs⟩ = .ok e ⟨rest, eof, n₃, fs⟩) :
    ifStatement expr stmt ⟨left :: ts, eof, n, fs⟩ =
      .ok (.ifElse c t e) ⟨rest, eof, n₃, fs⟩ := by
  rw [ifStatement, expectMark, bind_ok _ (expect_cons _ hl),
    bind_ok _ (he hc (notAhead_of_kind hr (by decide)) hf), expectMark,
    bind_ok _ (expect_cons _ hr), bind_ok _ ht, bind_ok _ (accept_cons hother)]
  dsimp only
  rw [bind_ok _ hs]
  rfl

theorem ReadsOption.length_lt (h : ReadsOption mark ts n v rest n₁) : rest.length < ts.length := by
  cases h with
  | none => exact Nat.lt_succ_self _
  | some h =>
    have hle := h.length_le
    simp only [List.length_cons] at hle
    omega

theorem ReadsVariable.length_lt (h : ReadsVariable ts n s rest n₁) :
    rest.length < ts.length := by
  cases h with
  | plain =>
    simp only [List.length_cons]
    omega
  | initialized _ _ h =>
    have hle := h.length_le
    simp only [List.length_cons] at hle ⊢
    omega

theorem ReadsStart.length_lt (h : ReadsStart ts n s rest n₁) : rest.length < ts.length := by
  cases h with
  | none => exact Nat.lt_succ_self _
  | «variable» _ h => exact Nat.lt_succ_of_lt h.length_lt
  | expression h =>
    have hle := h.length_le
    simp only [List.length_cons] at hle
    omega

theorem ReadsParameters.length_le (h : ReadsParameters count ts names rest) :
    rest.length ≤ ts.length := by
  induction h with
  | last =>
    simp only [List.length_cons]
    omega
  | more _ _ _ _ ih =>
    simp only [List.length_cons]
    omega

theorem ReadsSignature.length_le (h : ReadsSignature ts names rest) : rest.length ≤ ts.length := by
  cases h with
  | none => exact Nat.le_succ _
  | some h => exact h.length_le

theorem forStatement_of_reads (he : ParsesExpr fuel eof fs expr)
    (hl : left.kind = .punct .leftParen) (hstart : ReadsStart ts n start ts₁ n₁)
    (hc : ReadsOption .semicolon ts₁ n₁ c ts₂ n₂) (hstep : ReadsOption .rightParen ts₂ n₂ step ts₃ n₃)
    (hf : ts.length < fuel) (hb : stmt ⟨ts₃, eof, n₃, fs⟩ = .ok body ⟨rest, eof, n₄, fs⟩) :
    forStatement expr stmt ⟨left :: ts, eof, n, fs⟩ =
      .ok (.counting start c step body) ⟨rest, eof, n₄, fs⟩ := by
  have hlt := hstart.length_lt
  have hlt₁ := hc.length_lt
  obtain ⟨semi, hsemi, hc⟩ := unlessMark_of_reads he hc (by decide) (by decide) (by omega)
  obtain ⟨right, hr, hstep⟩ := unlessMark_of_reads he hstep (by decide) (by decide) (by omega)
  rw [forStatement, expectMark, bind_ok _ (expect_cons _ hl),
    bind_ok _ (forStart_of_reads he hstart hf), bind_ok _ hc, expectMark,
    bind_ok _ (expect_cons _ hsemi), bind_ok _ hstep, expectMark, bind_ok _ (expect_cons _ hr),
    bind_ok _ hb]
  rfl

theorem parameters_of_reads (h : ReadsParameters count ts names rest) {m : Nat}
    (hm : ts.length < m) : ∃ right, right.kind = .punct .rightParen ∧
      parameters m count ⟨ts, eof, n, fs⟩ = .ok names ⟨right :: rest, eof, n, fs⟩ := by
  induction h generalizing m with
  | last hcount hname hr =>
    obtain ⟨m, rfl⟩ : ∃ k, m = k + 1 := ⟨m - 1, by omega⟩
    refine ⟨_, hr, ?_⟩
    rw [parameters, if_neg (by omega)]
    dsimp only
    rw [expectName, bind_ok _ (expect_cons _ hname),
      bind_ok _ (accept_cons_ne (by rw [hr]; decide))]
    rfl
  | more hcount hname hcomma _ ih =>
    obtain ⟨m, rfl⟩ : ∃ k, m = k + 1 := ⟨m - 1, by omega⟩
    simp only [List.length_cons] at hm
    obtain ⟨right, hr, hmore⟩ := ih (m := m) (by omega)
    refine ⟨right, hr, ?_⟩
    rw [parameters, if_neg (by omega)]
    dsimp only
    rw [expectName, bind_ok _ (expect_cons _ hname), bind_ok _ (accept_cons hcomma)]
    dsimp only
    rw [bind_ok _ hmore]
    rfl

theorem superclass_of_reads (h : ReadsSuperclass ts n v (left :: rest) n₁)
    (hl : left.kind = .punct .leftBrace) :
    superclass ⟨ts, eof, n, fs⟩ = .ok v ⟨left :: rest, eof, n₁, fs⟩ := by
  cases h with
  | none =>
    rw [superclass, bind_ok _ (accept_cons_ne (by rw [hl]; decide))]
    rfl
  | some hless hname =>
    rw [superclass, bind_ok _ (accept_cons hless)]
    dsimp only
    rw [expectName, bind_ok _ (expect_cons _ hname)]
    rfl

theorem block_of_declarations (hb : declarations decl fuel ⟨ts, eof, n, fs⟩ =
      .ok body ⟨right :: rest, eof, n₁, fs⟩) (hr : right.kind = .punct .rightBrace) :
    block fuel decl ⟨ts, eof, n, fs⟩ = .ok body ⟨rest, eof, n₁, fs⟩ := by
  rw [block, bind_ok _ hb, expectMark, bind_ok _ (expect_cons _ hr)]
  rfl

theorem function_of_signature {what : String} (hname : name.kind = .identifier)
    (hl : left.kind = .punct .leftParen) (hs : ReadsSignature ts names (brace :: mid))
    (hbrace : brace.kind = .punct .leftBrace) (hf : ts.length < fuel)
    (hb : block fuel decl ⟨mid, eof, n, fs⟩ = .ok body ⟨rest, eof, n₁, fs⟩) :
    function fuel decl what ⟨name :: left :: ts, eof, n, fs⟩ =
      .ok ⟨name, names, body⟩ ⟨rest, eof, n₁, fs⟩ := by
  rw [function, expectName, bind_ok _ (expect_cons _ hname), expectMark,
    bind_ok _ (expect_cons _ hl)]
  cases hs with
  | none hr =>
    rw [bind_ok _ (check_cons hr)]
    simp only [if_true]
    rw [pure_bind, expectMark, bind_ok _ (expect_cons _ hr), expectMark,
      bind_ok _ (expect_cons _ hbrace), bind_ok _ hb]
    rfl
  | some hp =>
    obtain ⟨right, hr, hparams⟩ : ∃ right, right.kind = .punct .rightParen ∧
        parameters fuel 0 ⟨ts, eof, n, fs⟩ = .ok names ⟨right :: brace :: mid, eof, n, fs⟩ :=
      parameters_of_reads hp hf
    have hhead : ∀ t ∈ ts.head?, t.kind ≠ .punct .rightParen := by
      cases hp <;> rintro _ ⟨⟩ <;> simp [*]
    rw [bind_ok _ (check_of_head hhead)]
    simp only [Bool.false_eq_true, if_false]
    rw [bind_ok _ hparams, expectMark, bind_ok _ (expect_cons _ hr), expectMark,
      bind_ok _ (expect_cons _ hbrace), bind_ok _ hb]
    rfl

def Stops (ts : List Token) : Prop := ∀ t ∈ ts.head?, t.kind = .punct .rightBrace

theorem stops_cons (h : right.kind = .punct .rightBrace) : Stops (right :: ts) := by
  rintro _ ⟨⟩
  exact h

theorem untilBrace_stop {α : Type} {p : Parse (List α)} (h : Stops ts) :
    (do
      if (← check (.punct .rightBrace)) || (← atEnd) then return []
      p : Parse (List α)) ⟨ts, eof, n, fs⟩ = .ok [] ⟨ts, eof, n, fs⟩ := by
  cases ts with
  | nil => rfl
  | cons t ts =>
    rw [bind_ok _ (check_cons (h t rfl))]
    rfl

theorem untilBrace_more {α : Type} {p : Parse (List α)} (h : t.kind ≠ .punct .rightBrace) :
    (do
      if (← check (.punct .rightBrace)) || (← atEnd) then return []
      p : Parse (List α)) ⟨t :: ts, eof, n, fs⟩ = p ⟨t :: ts, eof, n, fs⟩ := by
  have hhead : ∀ u ∈ (t :: ts).head?, u.kind ≠ .punct .rightBrace := by
    rintro _ ⟨⟩
    exact h
  rw [bind_ok _ (check_of_head hhead)]
  rfl

theorem declarations_stop {m : Nat} (hr : Stops ts) :
    declarations decl (m + 1) ⟨ts, eof, n, fs⟩ = .ok [] ⟨ts, eof, n, fs⟩ := by
  rw [declarations]
  exact untilBrace_stop hr

theorem declarations_more {m : Nat} (ht : t.kind ≠ .punct .rightBrace)
    (hd : decl ⟨t :: ts, eof, n, fs⟩ = .ok (some s) ⟨mid, eof, n₁, fs⟩)
    (hs : declarations decl m ⟨mid, eof, n₁, fs⟩ = .ok ss ⟨rest, eof, n₂, fs⟩) :
    declarations decl (m + 1) ⟨t :: ts, eof, n, fs⟩ = .ok (s :: ss) ⟨rest, eof, n₂, fs⟩ := by
  rw [declarations]
  refine (untilBrace_more ht).trans ?_
  rw [bind_ok _ hd]
  dsimp only
  rw [bind_ok _ hs]
  rfl

theorem methods_stop {m : Nat} (hr : Stops ts) :
    methods fuel decl (m + 1) ⟨ts, eof, n, fs⟩ = .ok [] ⟨ts, eof, n, fs⟩ := by
  rw [methods]
  exact untilBrace_stop hr

theorem methods_more {m : Nat} (ht : t.kind ≠ .punct .rightBrace)
    (hf : function fuel decl "method" ⟨t :: ts, eof, n, fs⟩ = .ok f ⟨mid, eof, n₁, fs⟩)
    (hs : methods fuel decl m ⟨mid, eof, n₁, fs⟩ = .ok ms ⟨rest, eof, n₂, fs⟩) :
    methods fuel decl (m + 1) ⟨t :: ts, eof, n, fs⟩ = .ok (f :: ms) ⟨rest, eof, n₂, fs⟩ := by
  rw [methods]
  refine (untilBrace_more ht).trans ?_
  rw [bind_ok _ hf, bind_ok _ hs]
  rfl

theorem classDeclaration_of_methods (hname : name.kind = .identifier)
    (hs : ReadsSuperclass ts n v (left :: mid) n₁) (hl : left.kind = .punct .leftBrace)
    (hm : methods fuel decl fuel ⟨mid, eof, n₁, fs⟩ = .ok ms ⟨right :: rest, eof, n₂, fs⟩)
    (hr : right.kind = .punct .rightBrace) :
    classDeclaration fuel decl ⟨name :: ts, eof, n, fs⟩ =
      .ok (.classDecl name v ms) ⟨rest, eof, n₂, fs⟩ := by
  rw [classDeclaration, expectName, bind_ok _ (expect_cons _ hname),
    bind_ok _ (superclass_of_reads hs hl), expectMark, bind_ok _ (expect_cons _ hl), bind_ok _ hm,
    expectMark, bind_ok _ (expect_cons _ hr)]
  rfl

theorem statementRule_of_expression (h : ReadsExpr .assignment ts n e (semi :: rest) n₁)
    (hsemi : semi.kind = .punct .semicolon) (he : ParsesExpr fuel eof fs expr)
    (hf : ts.length < fuel) :
    statementRule fuel expr stmt decl ⟨ts, eof, n, fs⟩ = .ok (.expr e) ⟨rest, eof, n₁, fs⟩ := by
  obtain ⟨t, mid, rfl, ht⟩ := h.opens
  rw [statementRule, bind_ok _ peek_cons]
  refine (congrFun ?_ _).trans (expressionStatement_of_reads he h hsemi hf)
  split
  · next hk => exact absurd hk (opensExpression_ne_keyword ht (by decide))
  · next hk => exact absurd hk (opensExpression_ne_keyword ht (by decide))
  · next hk => exact absurd hk (opensExpression_ne_keyword ht (by decide))
  · next hk => exact absurd hk (opensExpression_ne_keyword ht (by decide))
  · next hk => exact absurd hk (opensExpression_ne_keyword ht (by decide))
  · next hk => exact absurd hk (opensExpression_ne_punct ht (by decide))
  · rfl

theorem declaration_of_statement (hs : statement fuel ⟨t :: ts, eof, n, fs⟩ = .ok s d)
    (ht : t.kind ∉ [.keyword .classKw, .keyword .funKw, .keyword .varKw]) :
    declaration fuel ⟨t :: ts, eof, n, fs⟩ = .ok (some s) d := by
  simp only [List.mem_cons, List.not_mem_nil, or_false, not_or] at ht
  cases fuel with
  | zero => cases hs
  | succ fuel =>
    rw [statement] at hs
    have hrule : declarationRule (fuel + 1) (expression (fuel + 1)) (statement fuel)
        (declaration fuel) ⟨t :: ts, eof, n, fs⟩ = .ok s d := by
      rw [← hs]
      unfold declarationRule
      rw [bind_ok _ peek_cons]
      refine congrFun ?_ _
      split
      · next hk => exact absurd hk ht.1
      · next hk => exact absurd hk ht.2.1
      · next hk => exact absurd hk ht.2.2
      · rfl
    rw [declaration, recovering, hrule]

theorem declaration_of_rule (h : declarationRule (fuel + 1) (expression (fuel + 1)) (statement fuel)
    (declaration fuel) c = .ok s d) : declaration (fuel + 1) c = .ok (some s) d := by
  rw [declaration, recovering, h]

mutual

theorem ReadsStmt.length_lt : ReadsStmt isOpen ts n s rest n₁ → rest.length < ts.length
  | .expression h _ => by
    have hle := h.length_le
    simp only [List.length_cons] at hle
    omega
  | .print _ h _ => by
    have hle := h.length_le
    simp only [List.length_cons] at hle ⊢
    omega
  | .ret _ h => Nat.lt_succ_of_lt h.length_lt
  | .block _ h _ => by
    have hle := ReadsDecls.length_le h
    simp only [List.length_cons] at hle ⊢
    omega
  | .loop _ _ hc _ hb => by
    have hle := hc.length_le
    have hlt := ReadsStmt.length_lt hb
    simp only [List.length_cons] at hle ⊢
    omega
  | .counting _ _ hs hc hstep hb => by
    have h₁ := hs.length_lt
    have h₂ := hc.length_lt
    have h₃ := hstep.length_lt
    have hlt := ReadsStmt.length_lt hb
    simp only [List.length_cons]
    omega
  | .ifThen _ _ hc _ ht => by
    have hle := hc.length_le
    have hlt := ReadsStmt.length_lt ht
    simp only [List.length_cons] at hle ⊢
    omega
  | .ifElse _ _ hc _ ht _ he => by
    have hle := hc.length_le
    have hlt := ReadsStmt.length_lt ht
    have hlt' := ReadsStmt.length_lt he
    simp only [List.length_cons] at hle hlt ⊢
    omega

theorem ReadsDecl.length_lt : ReadsDecl ts n s rest n₁ → rest.length < ts.length
  | .classDecl _ _ hs _ hm _ => by
    have hle := ReadsMethods.length_le hm
    cases hs <;> simp only [List.length_cons] at hle ⊢ <;> omega
  | .function _ h => Nat.lt_succ_of_lt (ReadsFunction.length_lt h)
  | .variable _ h => Nat.lt_succ_of_lt h.length_lt
  | .statement h => ReadsStmt.length_lt h

theorem ReadsDecls.length_le : ReadsDecls ts n ss rest n₁ → rest.length ≤ ts.length
  | .nil => Nat.le_refl _
  | .cons h hs => Nat.le_trans (ReadsDecls.length_le hs) (Nat.le_of_lt (ReadsDecl.length_lt h))

theorem ReadsFunction.length_lt : ReadsFunction ts n f rest n₁ → rest.length < ts.length
  | .mk _ _ hs _ hb _ => by
    have hle := ReadsDecls.length_le hb
    have hle' := hs.length_le
    simp only [List.length_cons] at hle hle' ⊢
    omega

theorem ReadsMethods.length_le : ReadsMethods ts n ms rest n₁ → rest.length ≤ ts.length
  | .nil => Nat.le_refl _
  | .cons h hs => Nat.le_trans (ReadsMethods.length_le hs) (Nat.le_of_lt (ReadsFunction.length_lt h))

end

theorem ReadsDecl.opens (h : ReadsDecl ts n s rest n₁) : ∃ t mid, ts = t :: mid ∧
    t.kind ≠ .punct .rightBrace ∧ t.kind ≠ .keyword .elseKw := by
  cases h with
  | classDecl hkw => exact ⟨_, _, rfl, by simp [hkw], by simp [hkw]⟩
  | function hkw => exact ⟨_, _, rfl, by simp [hkw], by simp [hkw]⟩
  | «variable» hkw => exact ⟨_, _, rfl, by simp [hkw], by simp [hkw]⟩
  | statement h =>
    cases h with
    | expression h =>
      obtain ⟨t, mid, rfl, ht⟩ := h.opens
      exact ⟨t, mid, rfl, opensExpression_ne_punct ht (by decide),
        opensExpression_ne_keyword ht (by decide)⟩
    | print hkw | ret hkw | block hkw | loop hkw | counting hkw | ifThen hkw | ifElse hkw =>
      exact ⟨_, _, rfl, by simp [hkw], by simp [hkw]⟩

theorem ReadsStmt.opens (h : ReadsStmt isOpen ts n s rest n₁) : ∃ t mid, ts = t :: mid ∧
    t.kind ∉ [.keyword .classKw, .keyword .funKw, .keyword .varKw] := by
  cases h with
  | expression h =>
    obtain ⟨t, mid, rfl, ht⟩ := h.opens
    refine ⟨t, mid, rfl, ?_⟩
    simp only [List.mem_cons, List.not_mem_nil, or_false, not_or]
    exact ⟨opensExpression_ne_keyword ht (by decide), opensExpression_ne_keyword ht (by decide),
      opensExpression_ne_keyword ht (by decide)⟩
  | print hkw | ret hkw | block hkw | loop hkw | counting hkw | ifThen hkw | ifElse hkw =>
    exact ⟨_, _, rfl, by rw [hkw]; decide⟩

theorem ReadsFunction.opens (h : ReadsFunction ts n f rest n₁) : ∃ t mid, ts = t :: mid ∧
    t.kind ≠ .punct .rightBrace := by
  cases h with
  | mk hname => exact ⟨_, _, rfl, by simp [hname]⟩

theorem ReadsSuperclass.length_le (h : ReadsSuperclass ts n v rest n₁) :
    rest.length ≤ ts.length := by
  cases h with
  | none => exact Nat.le_refl _
  | some =>
    simp only [List.length_cons]
    omega

theorem Stops.ne_else (hr : Stops rest) : ∀ t ∈ rest.head?, t.kind ≠ .keyword .elseKw := by
  intro t ht
  rw [hr t ht]
  decide

theorem ReadsDecls.head_ne_else (h : ReadsDecls ts n ss rest n₁)
    (hr : ∀ t ∈ rest.head?, t.kind ≠ .keyword .elseKw) :
    ∀ t ∈ ts.head?, t.kind ≠ .keyword .elseKw := by
  cases h with
  | nil => exact hr
  | cons h =>
    obtain ⟨t, mid, rfl, -, ht⟩ := h.opens
    rintro _ ⟨⟩
    exact ht

theorem parsesExpr_expression : ParsesExpr fuel eof fs (expression fuel) :=
  fun h hr hf => expression_of_reads h hr hf

section Keywords

theorem statementRule_print (h : kw.kind = .keyword .printKw) :
    statementRule fuel expr stmt decl ⟨kw :: ts, eof, n, fs⟩ =
      printStatement expr ⟨ts, eof, n, fs⟩ := by
  rw [statementRule, bind_ok _ peek_cons, h]
  rfl

theorem statementRule_return (h : kw.kind = .keyword .returnKw) :
    statementRule fuel expr stmt decl ⟨kw :: ts, eof, n, fs⟩ =
      returnStatement expr kw ⟨ts, eof, n, fs⟩ := by
  rw [statementRule, bind_ok _ peek_cons, h]
  rfl

theorem statementRule_while (h : kw.kind = .keyword .whileKw) :
    statementRule fuel expr stmt decl ⟨kw :: ts, eof, n, fs⟩ =
      whileStatement expr stmt ⟨ts, eof, n, fs⟩ := by
  rw [statementRule, bind_ok _ peek_cons, h]
  rfl

theorem statementRule_for (h : kw.kind = .keyword .forKw) :
    statementRule fuel expr stmt decl ⟨kw :: ts, eof, n, fs⟩ =
      forStatement expr stmt ⟨ts, eof, n, fs⟩ := by
  rw [statementRule, bind_ok _ peek_cons, h]
  rfl

theorem statementRule_if (h : kw.kind = .keyword .ifKw) :
    statementRule fuel expr stmt decl ⟨kw :: ts, eof, n, fs⟩ =
      ifStatement expr stmt ⟨ts, eof, n, fs⟩ := by
  rw [statementRule, bind_ok _ peek_cons, h]
  rfl

theorem statementRule_block (h : left.kind = .punct .leftBrace)
    (hb : block fuel decl ⟨ts, eof, n, fs⟩ = .ok body ⟨rest, eof, n₁, fs⟩) :
    statementRule fuel expr stmt decl ⟨left :: ts, eof, n, fs⟩ =
      .ok (.block body) ⟨rest, eof, n₁, fs⟩ := by
  rw [statementRule, bind_ok _ peek_cons, h]
  dsimp only
  rw [bind_ok _ take_cons, bind_ok _ hb]
  rfl

theorem declarationRule_class (h : kw.kind = .keyword .classKw) :
    declarationRule fuel expr stmt decl ⟨kw :: ts, eof, n, fs⟩ =
      classDeclaration fuel decl ⟨ts, eof, n, fs⟩ := by
  rw [declarationRule, bind_ok _ peek_cons, h]
  rfl

theorem declarationRule_var (h : kw.kind = .keyword .varKw) :
    declarationRule fuel expr stmt decl ⟨kw :: ts, eof, n, fs⟩ =
      varDeclaration expr ⟨ts, eof, n, fs⟩ := by
  rw [declarationRule, bind_ok _ peek_cons, h]
  rfl

theorem declarationRule_fun (h : kw.kind = .keyword .funKw)
    (hf : function fuel decl "function" ⟨ts, eof, n, fs⟩ = .ok f ⟨rest, eof, n₁, fs⟩) :
    declarationRule fuel expr stmt decl ⟨kw :: ts, eof, n, fs⟩ =
      .ok (.function f) ⟨rest, eof, n₁, fs⟩ := by
  rw [declarationRule, bind_ok _ peek_cons, h]
  dsimp only
  rw [bind_ok _ take_cons, bind_ok _ hf]
  rfl

end Keywords

mutual

theorem ReadsStmt.parses : ReadsStmt isOpen ts n s rest n₁ → ∀ fuel ≥ ts.length,
    (isOpen = true → ∀ t ∈ rest.head?, t.kind ≠ .keyword .elseKw) →
      statement (fuel + 1) ⟨ts, eof, n, fs⟩ = .ok s ⟨rest, eof, n₁, fs⟩
  | .expression h hsemi, fuel, hf, _ => by
    rw [statement]
    exact statementRule_of_expression h hsemi parsesExpr_expression (by omega)
  | .print hkw h hsemi, fuel, hf, _ => by
    simp only [List.length_cons] at hf
    rw [statement]
    exact (statementRule_print hkw).trans
      (printStatement_of_reads parsesExpr_expression h hsemi (by omega))
  | .ret hkw h, fuel, hf, _ => by
    simp only [List.length_cons] at hf
    rw [statement]
    exact (statementRule_return hkw).trans
      (returnStatement_of_reads parsesExpr_expression h (by omega))
  | .block hl hb hr, fuel, hf, _ => by
    simp only [List.length_cons] at hf
    obtain ⟨fuel, rfl⟩ : ∃ k, fuel = k + 1 := ⟨fuel - 1, by omega⟩
    rw [statement]
    exact statementRule_block hl (block_of_declarations
      (ReadsDecls.parses hb fuel (by omega) (stops_cons hr) (fuel + 2) (by omega)) hr)
  | .loop hkw hl hc hr hb, fuel, hf, ho => by
    have hle := hc.length_le
    simp only [List.length_cons] at hf hle
    obtain ⟨fuel, rfl⟩ : ∃ k, fuel = k + 1 := ⟨fuel - 1, by omega⟩
    rw [statement]
    exact (statementRule_while hkw).trans (whileStatement_of_reads parsesExpr_expression hl hc hr
      (by omega) (ReadsStmt.parses hb fuel (by omega) ho))
  | .counting hkw hl hs hc hstep hb, fuel, hf, ho => by
    have h₁ := hs.length_lt
    have h₂ := hc.length_lt
    have h₃ := hstep.length_lt
    simp only [List.length_cons] at hf
    obtain ⟨fuel, rfl⟩ : ∃ k, fuel = k + 1 := ⟨fuel - 1, by omega⟩
    rw [statement]
    exact (statementRule_for hkw).trans (forStatement_of_reads parsesExpr_expression hl hs hc hstep
      (by omega) (ReadsStmt.parses hb fuel (by omega) ho))
  | .ifThen hkw hl hc hr ht, fuel, hf, ho => by
    have hle := hc.length_le
    simp only [List.length_cons] at hf hle
    obtain ⟨fuel, rfl⟩ : ∃ k, fuel = k + 1 := ⟨fuel - 1, by omega⟩
    rw [statement]
    exact (statementRule_if hkw).trans (ifStatement_of_reads parsesExpr_expression hl hc hr
      (by omega) (ReadsStmt.parses ht fuel (by omega) fun _ => ho rfl) (ho rfl))
  | .ifElse hkw hl hc hr ht hother he, fuel, hf, ho => by
    have hle := hc.length_le
    have hlt := ht.length_lt
    simp only [List.length_cons] at hf hle hlt
    obtain ⟨fuel, rfl⟩ : ∃ k, fuel = k + 1 := ⟨fuel - 1, by omega⟩
    rw [statement]
    exact (statementRule_if hkw).trans (ifElseStatement_of_reads parsesExpr_expression hl hc hr
      (by omega) (ReadsStmt.parses ht fuel (by omega) nofun) hother
      (ReadsStmt.parses he fuel (by omega) ho))

theorem ReadsDecl.parses : ReadsDecl ts n s rest n₁ → ∀ fuel ≥ ts.length,
    (∀ t ∈ rest.head?, t.kind ≠ .keyword .elseKw) →
      declaration (fuel + 1) ⟨ts, eof, n, fs⟩ = .ok (some s) ⟨rest, eof, n₁, fs⟩
  | .classDecl hkw hname hs hl hm hr, fuel, hf, _ => by
    have hle := hs.length_le
    simp only [List.length_cons] at hf hle
    exact declaration_of_rule ((declarationRule_class hkw).trans (classDeclaration_of_methods hname hs
      hl (ReadsMethods.parses hm fuel (by omega) (stops_cons hr) (fuel + 1) (by omega)) hr))
  | .function hkw h, fuel, hf, _ => by
    simp only [List.length_cons] at hf
    exact declaration_of_rule
      (declarationRule_fun hkw (ReadsFunction.parses h "function" fuel (by omega)))
  | .variable hkw h, fuel, hf, _ => by
    simp only [List.length_cons] at hf
    exact declaration_of_rule ((declarationRule_var hkw).trans
      (varDeclaration_of_reads parsesExpr_expression h (by omega)))
  | .statement h, fuel, hf, hr => by
    have hs := ReadsStmt.parses h fuel hf fun _ => hr
    obtain ⟨t, mid, rfl, ht⟩ := h.opens
    exact declaration_of_statement hs ht

theorem ReadsDecls.parses : ReadsDecls ts n ss rest n₁ → ∀ fuel ≥ ts.length, Stops rest →
    ∀ m > ts.length, declarations (declaration (fuel + 1)) m ⟨ts, eof, n, fs⟩ =
      .ok ss ⟨rest, eof, n₁, fs⟩
  | .nil, fuel, hf, hr, m, hm => by
    obtain ⟨m, rfl⟩ : ∃ k, m = k + 1 := ⟨m - 1, by omega⟩
    exact declarations_stop hr
  | .cons h hs, fuel, hf, hr, m, hm => by
    obtain ⟨m, rfl⟩ : ∃ k, m = k + 1 := ⟨m - 1, by omega⟩
    have hlt := h.length_lt
    have hd := ReadsDecl.parses h fuel hf (hs.head_ne_else hr.ne_else)
    obtain ⟨t, mid, rfl, ht, -⟩ := h.opens
    exact declarations_more ht hd (ReadsDecls.parses hs fuel (by omega) hr m (by omega))

theorem ReadsFunction.parses : ReadsFunction ts n f rest n₁ → ∀ what, ∀ fuel ≥ ts.length,
    function (fuel + 1) (declaration fuel) what ⟨ts, eof, n, fs⟩ = .ok f ⟨rest, eof, n₁, fs⟩
  | .mk hname hl hs hbrace hb hr, what, fuel, hf => by
    have hle := hs.length_le
    simp only [List.length_cons] at hf hle
    obtain ⟨fuel, rfl⟩ : ∃ k, fuel = k + 1 := ⟨fuel - 1, by omega⟩
    exact function_of_signature hname hl hs hbrace (by omega) (block_of_declarations
      (ReadsDecls.parses hb fuel (by omega) (stops_cons hr) (fuel + 2) (by omega)) hr)

theorem ReadsMethods.parses : ReadsMethods ts n ms rest n₁ → ∀ fuel ≥ ts.length, Stops rest →
    ∀ m > ts.length, methods (fuel + 1) (declaration fuel) m ⟨ts, eof, n, fs⟩ =
      .ok ms ⟨rest, eof, n₁, fs⟩
  | .nil, fuel, hf, hr, m, hm => by
    obtain ⟨m, rfl⟩ : ∃ k, m = k + 1 := ⟨m - 1, by omega⟩
    exact methods_stop hr
  | .cons h hs, fuel, hf, hr, m, hm => by
    obtain ⟨m, rfl⟩ : ∃ k, m = k + 1 := ⟨m - 1, by omega⟩
    have hlt := h.length_lt
    have hd := ReadsFunction.parses h "method" fuel hf
    obtain ⟨t, mid, rfl, ht⟩ := h.opens
    exact methods_more ht hd (ReadsMethods.parses hs fuel (by omega) hr m (by omega))

end

end Statements

theorem program_of_reads {m : Nat} (h : ReadsDecls ts n ss [] n₁) (hm : ts.length < m) :
    Parse.program m ⟨ts, eof, n, fs⟩ = .ok ss ⟨[], eof, n₁, fs⟩ := by
  induction m generalizing ts n ss with
  | zero => cases hm
  | succ m ih =>
    cases h with
    | nil => rfl
    | cons h hs =>
      have hlt := h.length_lt
      have hd := @ReadsDecl.parses eof fs _ _ _ _ _ h _ (Nat.le_refl _) (hs.head_ne_else nofun)
      obtain ⟨t, mid, rfl, -⟩ := h.opens
      rw [Parse.program]
      simp only [List.isEmpty_cons, Bool.false_eq_true, if_false, Cursor.fuel, hd,
        ih hs (by omega)]
      rfl

theorem readsDecls_iff_program {c : Cursor} (hc : c.eof.kind = .eof) :
    ReadsDecls c.rest c.nextId ss [] n₁ ↔
      c.program.2.faults = c.faults ∧ c.program.1 = ss ∧ c.program.2.nextId = n₁ := by
  constructor
  · intro h
    have hp : c.program = (ss, ⟨[], c.eof, n₁, c.faults⟩) := by
      simp only [Cursor.program]
      rw [show Parse.program c.fuel c = _ from program_of_reads h (Nat.lt_succ_self _)]
    rw [hp]
    exact ⟨rfl, rfl, rfl⟩
  · rintro ⟨hf, rfl, rfl⟩
    exact readsDecls_program hc hf

end Grammar

end Treewalk
