import Treewalk.Proofs.Grammar.Soundness.Expression

namespace Treewalk.Grammar

open Reading Parse

section Statements

def ReadsWhole : Reading Stmt := fun ts n s rest n₁ =>
  ∃ isOpen, ReadsStmt isOpen ts n s rest n₁ ∧
    (isOpen = true → ∀ t ∈ rest.head?, t.kind ≠ .keyword .elseKw)

variable {fuel k : Nat} {expr : Parse Expr} {stmt : Parse Stmt} {decl : Parse (Option Stmt)}

section

variable (he : Meets fuel 1 expr (ReadsExpr .assignment))
include he

theorem meets_unlessMark (mark : Punctuator) :
    Meets fuel 0 (unlessMark expr mark) fun ts n v rest n₁ => ∀ m mid, rest = m :: mid →
      m.kind = .punct mark → ReadsOption mark ts n v mid n₁ := by
  refine Meets.mono (Meets.check (meets_pure none) (he.bind fun e => meets_pure (some e))) ?_
    (by omega) (by omega)
  rintro ts n v rest n₁ (⟨-, rfl, rfl, rfl⟩ | ⟨-, e, _, _, he, rfl, rfl, rfl⟩) m mid rfl hm
  · exact .none hm
  · exact .some he hm

theorem meets_varDeclaration : Meets fuel 1 (varDeclaration expr) ReadsVariable := by
  refine Meets.mono (meets_expect.bind fun name => Meets.either
    (fun _ _ => (he.map some).bind fun init => meets_expect.bind fun _ =>
      meets_pure (Stmt.var name init))
    ((meets_pure none).bind fun init => meets_expect.bind fun _ => meets_pure (Stmt.var name init))) ?_
    (by omega) (by omega)
  rintro ts n s rest n₁ ⟨name, _, _, ⟨rfl, hname, rfl⟩,
    ⟨equals, mid, rfl, heq, _, _, _, ⟨e, rfl, hv⟩, _, _, _, ⟨rfl, hsemi, rfl⟩, rfl, rfl, rfl⟩ |
    ⟨-, _, _, _, ⟨rfl, rfl, rfl⟩, _, _, _, ⟨rfl, hsemi, rfl⟩, rfl, rfl, rfl⟩⟩
  · exact .initialized hname (by simpa using heq) hv hsemi
  · exact .plain hname hsemi

theorem meets_expressionStatement :
    Meets fuel 1 (expressionStatement expr) fun ts n s rest n₁ =>
      ∃ e semi, s = .expr e ∧ ReadsExpr .assignment ts n e (semi :: rest) n₁ ∧
        semi.kind = .punct .semicolon := by
  refine Meets.mono (he.bind fun e => meets_expect.bind fun _ => meets_pure (Stmt.expr e)) ?_
    (by omega) (by omega)
  rintro ts n s rest n₁ ⟨e, _, _, he, _, _, _, ⟨rfl, hsemi, rfl⟩, rfl, rfl, rfl⟩
  exact ⟨e, _, rfl, he, hsemi⟩

theorem meets_printStatement :
    Meets fuel 1 (printStatement expr) fun ts n s rest n₁ =>
      ∀ kw : Token, kw.kind = .keyword .printKw → ReadsStmt false (kw :: ts) n s rest n₁ := by
  refine Meets.mono (he.bind fun e => meets_expect.bind fun _ => meets_pure (Stmt.print e)) ?_
    (by omega) (by omega)
  rintro ts n s rest n₁ ⟨e, _, _, he, _, _, _, ⟨rfl, hsemi, rfl⟩, rfl, rfl, rfl⟩ kw hkw
  exact .print hkw he hsemi

theorem meets_returnStatement (kw : Token) (hkw : kw.kind = .keyword .returnKw) :
    Meets fuel 1 (returnStatement expr kw) fun ts n s rest n₁ =>
      ReadsStmt false (kw :: ts) n s rest n₁ := by
  refine Meets.mono ((meets_unlessMark he .semicolon).bind fun v => meets_expect.bind fun _ =>
    meets_pure (Stmt.ret kw v)) ?_ (by omega) (by omega)
  rintro ts n s rest n₁ ⟨v, _, _, hv, _, _, _, ⟨rfl, hsemi, rfl⟩, rfl, rfl, rfl⟩
  exact .ret hkw (hv _ _ rfl hsemi)

theorem meets_forStart : Meets fuel 1 (forStart expr) ReadsStart := by
  refine Meets.mono (Meets.either (fun _ _ => meets_pure none) (Meets.either
    (fun _ _ => (meets_varDeclaration he).map some) ((meets_expressionStatement he).map some))) ?_
    (by omega) (by omega)
  rintro ts n s rest n₁ (⟨semi, mid, rfl, hsemi, rfl, rfl, rfl⟩ |
    ⟨-, ⟨kw, mid, rfl, hkw, s, rfl, hs⟩ | ⟨-, _, rfl, e, semi, rfl, he, hsemi⟩⟩)
  · exact .none (by simpa using hsemi)
  · exact .variable (by simpa using hkw) hs
  · exact .expression he hsemi

end

section

variable (he : Meets (fuel + 1) 1 expr (ReadsExpr .assignment)) (hs : Meets fuel 1 stmt ReadsWhole)
include he hs

theorem meets_whileStatement :
    Meets fuel 1 (whileStatement expr stmt) fun ts n s rest n₁ =>
      ∀ kw : Token, kw.kind = .keyword .whileKw → ReadsWhole (kw :: ts) n s rest n₁ := by
  have he := he.weaken (Nat.le_succ fuel)
  refine Meets.mono (meets_expect.bind fun _ => he.bind fun c => meets_expect.bind fun _ =>
    hs.bind fun body => meets_pure (Stmt.loop c body)) ?_ (by omega) (by omega)
  rintro ts n s rest n₁ ⟨left, _, _, ⟨rfl, hl, rfl⟩, c, _, _, hc, right, _, _, ⟨rfl, hr, rfl⟩, body,
    _, _, ⟨isOpen, hb, ho⟩, rfl, rfl, rfl⟩ kw hkw
  exact ⟨isOpen, .loop hkw hl hc hr hb, ho⟩

theorem meets_forStatement :
    Meets fuel 1 (forStatement expr stmt) fun ts n s rest n₁ =>
      ∀ kw : Token, kw.kind = .keyword .forKw → ReadsWhole (kw :: ts) n s rest n₁ := by
  have he := he.weaken (Nat.le_succ fuel)
  refine Meets.mono (meets_expect.bind fun _ => (meets_forStart he).bind fun start =>
    (meets_unlessMark he .semicolon).bind fun c => meets_expect.bind fun _ =>
      (meets_unlessMark he .rightParen).bind fun step => meets_expect.bind fun _ =>
        hs.bind fun body => meets_pure (Stmt.counting start c step body)) ?_ (by omega) (by omega)
  rintro ts n s rest n₁ ⟨left, _, _, ⟨rfl, hl, rfl⟩, start, _, _, hstart, c, _, _, hc, semi, _, _,
    ⟨rfl, hsemi, rfl⟩, step, _, _, hstep, right, _, _, ⟨rfl, hr, rfl⟩, body, _, _, ⟨isOpen, hb, ho⟩,
    rfl, rfl, rfl⟩ kw hkw
  exact ⟨isOpen, .counting hkw hl hstart (hc _ _ rfl hsemi) (hstep _ _ rfl hr) hb, ho⟩

theorem meets_ifStatement :
    Meets fuel 1 (ifStatement expr stmt) fun ts n s rest n₁ =>
      ∀ kw : Token, kw.kind = .keyword .ifKw → ReadsWhole (kw :: ts) n s rest n₁ := by
  have he := he.weaken (Nat.le_succ fuel)
  refine Meets.mono (meets_expect.bind fun _ => he.bind fun c => meets_expect.bind fun _ =>
    hs.bind fun t => Meets.either (fun _ _ => hs.bind fun e => meets_pure (Stmt.ifElse c t e))
      (meets_pure (Stmt.ifThen c t))) ?_ (by omega) (by omega)
  rintro ts n s rest n₁ ⟨left, _, _, ⟨rfl, hl, rfl⟩, c, _, _, hc, right, _, _, ⟨rfl, hr, rfl⟩, t,
    _, _, ⟨isOpen, ht, ho⟩, ⟨other, mid, rfl, hother, e, _, _, ⟨isOpen', he, ho'⟩, rfl, rfl, rfl⟩ |
    ⟨hnone, rfl, rfl, rfl⟩⟩ kw hkw
  · have hother : other.kind = .keyword .elseKw := by simpa using hother
    -- an `else` ahead shows that the branch before it could take none
    obtain rfl : isOpen = false := by
      cases isOpen with
      | false => rfl
      | true => exact absurd hother (ho rfl other rfl)
    exact ⟨isOpen', .ifElse hkw hl hc hr ht hother he, ho'⟩
  · exact ⟨true, .ifThen hkw hl hc hr ht, fun _ t ht => by simpa using hnone t ht⟩

end

def ReadsRecovered : Reading (Option Stmt) := fun ts n o rest n₁ =>
  ∃ s, o = some s ∧ ReadsDecl ts n s rest n₁

theorem meets_untilBrace {α : Type} {p : Parse (List α)} {R : Reading (List α)}
    (hp : ∀ c : Cursor, c.eof.kind = .eof → c.rest ≠ [] → MeetsAt fuel 0 p R c)
    (hnil : ∀ ts n, R ts n [] ts n) :
    Meets fuel 0 (do
      if (← check (.punct .rightBrace)) || (← atEnd) then return []
      p) R := by
  intro c hc
  cases hstop : c.rest.head?.any (·.kind = .punct .rightBrace) || c.rest.isEmpty with
  | true =>
    simp only [MeetsAt, bind, EStateM.bind, check, atEnd, hstop, if_true]
    exact ⟨Cursor.Leads.refl c, Nat.le_refl _, fun _ => hnil _ _⟩
  | false =>
    simp only [MeetsAt, bind, EStateM.bind, check, atEnd, hstop]
    apply hp c hc
    intro hr
    simp [hr] at hstop

section

variable (hd : ∀ c : Cursor, c.eof.kind = .eof → c.rest ≠ [] → MeetsAt fuel 1 decl ReadsRecovered c)
include hd

theorem meets_declarations (m : Nat) :
    Meets (min fuel m) 0 (declarations decl m) ReadsDecls := by
  induction m with
  | zero => exact meets_exhausted.weaken (by omega)
  | succ m ih =>
    rw [declarations]
    apply meets_untilBrace
    · intro c hc hr
      have hmore {f : Option Stmt → Parse (List Stmt)}
          (hsome : ∀ s, f (some s) = do return s :: (← declarations decl m))
          (hnone : f none = declarations decl m) (o : Option Stmt) : Meets (min fuel m) 0 (f o)
          fun ts n ss rest n₁ => ∀ s, o = some s → ∃ ss', ss = s :: ss' ∧
            ReadsDecls ts n ss' rest n₁ := by
        cases o with
        | none =>
          rw [hnone]
          exact ih.mono (fun _ _ _ _ _ _ s hs => by cases hs) (Nat.le_refl _) (Nat.le_refl _)
        | some s =>
          rw [hsome]
          refine (ih.bind fun ss => meets_pure (s :: ss)).mono ?_ (by omega) (by omega)
          rintro ts n _ rest n₁ ⟨ss, _, _, hss, rfl, rfl, rfl⟩ _ ⟨⟩
          exact ⟨ss, rfl, hss⟩
      have hdc : MeetsAt (min fuel (m + 1)) 1 decl ReadsRecovered c :=
        Outcome.mono (hd c hc hr) (Nat.min_le_left _ _) (Nat.le_refl _) fun _ _ _ h => h
      refine Outcome.mono (hdc.bind hc (hmore (fun _ => rfl) rfl) (by omega)) (Nat.le_refl _)
        (Nat.zero_le _) ?_
      rintro ss rest n ⟨_, _, _, ⟨s, rfl, hs⟩, hss⟩
      obtain ⟨ss', rfl, hss'⟩ := hss s rfl
      exact .cons hs hss'
    · exact fun _ _ => .nil

theorem meets_block : Meets fuel 1 (block (fuel + 1) decl) fun ts n body rest n₁ =>
    ∃ right, ReadsDecls ts n body (right :: rest) n₁ ∧ right.kind = .punct .rightBrace := by
  refine Meets.mono (((meets_declarations hd (fuel + 1)).weaken (by omega)).bind fun body =>
    meets_expect.bind fun _ => meets_pure body) ?_ (Nat.le_refl fuel) (by omega)
  rintro ts n _ rest n₁ ⟨body, _, _, hb, right, _, _, ⟨rfl, hr, rfl⟩, rfl, rfl, rfl⟩
  exact ⟨right, hb, hr⟩

theorem meets_statementRule (he : Meets (fuel + 1) 1 expr (ReadsExpr .assignment))
    (hs : Meets fuel 1 stmt ReadsWhole) :
    Meets (fuel + 1) 1 (statementRule (fuel + 1) expr stmt decl) ReadsWhole := by
  have hexpr : Meets (fuel + 1) 1 (expressionStatement expr) ReadsWhole := by
    refine (meets_expressionStatement he).mono ?_ (by omega) (by omega)
    rintro ts n _ rest n₁ ⟨e, semi, rfl, he, hsemi⟩
    exact ⟨false, .expression he hsemi, fun h => by cases h⟩
  intro c hc
  rw [statementRule]
  apply MeetsAt.peek
  cases hr : c.rest with
  | nil =>
    rw [Cursor.current, hr, List.headD_nil, hc]
    exact hexpr c hc
  | cons t ts =>
    rw [Cursor.current, hr, List.headD_cons]
    split
    · next hk =>
      exact meetsAt_take hr hc (by omega) (meets_forStatement he hs) fun n s rest n₁ h => h t hk
    · next hk =>
      exact meetsAt_take hr hc (by omega) (meets_ifStatement he hs) fun n s rest n₁ h => h t hk
    · next hk =>
      exact meetsAt_take hr hc (by omega) (meets_printStatement (he.weaken (Nat.le_succ fuel)))
        fun n s rest n₁ h => ⟨false, h t hk, fun h => by cases h⟩
    · next hk =>
      exact meetsAt_take hr hc (by omega) (meets_returnStatement (he.weaken (Nat.le_succ fuel)) t hk)
        fun n s rest n₁ h => ⟨false, h, fun h => by cases h⟩
    · next hk =>
      exact meetsAt_take hr hc (by omega) (meets_whileStatement he hs) fun n s rest n₁ h => h t hk
    · next hk =>
      refine meetsAt_take hr hc (by omega) ((meets_block hd).bind fun body => meets_pure (Stmt.block body)) ?_
      rintro n _ rest n₁ ⟨body, _, _, ⟨right, hb, hright⟩, rfl, rfl, rfl⟩
      exact ⟨false, .block hk hb hright, fun h => by cases h⟩
    · exact hexpr c hc

end

theorem meets_parameters (m count : Nat) :
    Meets m 1 (parameters m count) fun ts n names rest n₁ => n₁ = n ∧ ∀ right mid,
      rest = right :: mid → right.kind = .punct .rightParen → ReadsParameters count ts names mid := by
  induction m generalizing count with
  | zero => exact meets_exhausted
  | succ m ih =>
    rw [parameters]
    refine Meets.mono (meets_limited (meets_expect.bind fun name => Meets.choice
      (fun _ _ => (ih (count + 1)).bind fun names => meets_pure (name :: names))
      (meets_pure [name]))) ?_ (by omega) (by omega)
    rintro ts n names rest n₁ ⟨hc, name, _, _, ⟨rfl, hname, rfl⟩,
      ⟨comma, _, rfl, hcomma, names, _, _, ⟨rfl, hn⟩, rfl, rfl, rfl⟩ | ⟨-, rfl, rfl, rfl⟩⟩
    · exact ⟨rfl, fun right mid hr hk =>
        .more (by omega) hname (by simpa using hcomma) (hn right mid hr hk)⟩
    · refine ⟨rfl, ?_⟩
      rintro right mid rfl hk
      exact .last (by omega) hname hk

theorem meets_superclass : Meets fuel 0 superclass ReadsSuperclass := by
  refine Meets.mono (Meets.either (fun _ _ => meets_expect.bind fun name =>
    (meets_number name).bind fun ref => meets_pure (some (Expr.name ref))) (meets_pure none)) ?_
    (Nat.le_refl fuel) (by omega)
  rintro ts n _ rest n₁ (⟨less, _, rfl, hless, name, _, _, ⟨rfl, hname, rfl⟩, _, _, _,
    ⟨rfl, rfl, rfl⟩, rfl, rfl, rfl⟩ | ⟨-, rfl, rfl, rfl⟩)
  · exact .some (by simpa using hless) hname
  · exact .none

section

variable (hd : ∀ c : Cursor, c.eof.kind = .eof → c.rest ≠ [] → MeetsAt fuel 1 decl ReadsRecovered c)
include hd

theorem meets_function (what : String) :
    Meets fuel 1 (function (fuel + 1) decl what) ReadsFunction := by
  have hparams := (meets_parameters (fuel + 1) 0).weaken (Nat.le_succ fuel)
  refine Meets.mono (meets_expect.bind fun name => meets_expect.bind fun _ =>
    Meets.check ((meets_pure []).bind fun names => meets_expect.bind fun _ =>
        meets_expect.bind fun _ => (meets_block hd).bind fun body =>
          meets_pure (⟨name, names, body⟩ : FunctionDecl Stmt))
      (hparams.bind fun names => meets_expect.bind fun _ => meets_expect.bind fun _ =>
        (meets_block hd).bind fun body => meets_pure (⟨name, names, body⟩ : FunctionDecl Stmt))) ?_
        (by omega) (by omega)
  rintro ts n _ rest n₁ ⟨name, _, _, ⟨rfl, hname, rfl⟩, left, _, _, ⟨rfl, hl, rfl⟩,
    ⟨-, names, _, _, hnames, right, _, _, ⟨rfl, hr, rfl⟩, brace, _, _, ⟨rfl, hbrace, rfl⟩, body, _, _,
      ⟨close, hb, hclose⟩, rfl, rfl, rfl⟩ |
    ⟨-, names, _, _, hnames, right, _, _, ⟨rfl, hr, rfl⟩, brace, _, _, ⟨rfl, hbrace, rfl⟩, body, _, _,
      ⟨close, hb, hclose⟩, rfl, rfl, rfl⟩⟩
  · obtain ⟨rfl, rfl, rfl⟩ := hnames
    exact .mk hname hl (.none hr) hbrace hb hclose
  · obtain ⟨rfl, hnames⟩ := hnames
    exact .mk hname hl (.some (hnames _ _ rfl hr)) hbrace hb hclose

theorem meets_methods (m : Nat) :
    Meets (min fuel m) 0 (methods (fuel + 1) decl m) ReadsMethods := by
  induction m with
  | zero => exact meets_exhausted.weaken (by omega)
  | succ m ih =>
    rw [methods]
    apply meets_untilBrace
    · intro c hc _
      have hf : MeetsAt (min fuel (m + 1)) 1 (function (fuel + 1) decl "method") ReadsFunction c :=
        (meets_function hd "method").weaken (Nat.min_le_left _ _) c hc
      refine Outcome.mono (hf.bind hc (fun f => ih.bind fun fs => meets_pure (f :: fs)) (by omega))
        (Nat.le_refl _) (Nat.zero_le _) ?_
      rintro _ rest n ⟨f, _, _, hf, fs, _, _, hfs, rfl, rfl, rfl⟩
      exact .cons hf hfs
    · exact fun _ _ => .nil

theorem meets_classDeclaration :
    Meets fuel 1 (classDeclaration (fuel + 1) decl) fun ts n s rest n₁ =>
      ∀ kw : Token, kw.kind = .keyword .classKw → ReadsDecl (kw :: ts) n s rest n₁ := by
  refine Meets.mono (meets_expect.bind fun name => meets_superclass.bind fun superclass =>
    meets_expect.bind fun _ => ((meets_methods hd (fuel + 1)).weaken (by omega)).bind fun methods =>
      meets_expect.bind fun _ => meets_pure (Stmt.classDecl name superclass methods)) ?_
    (Nat.le_refl fuel) (by omega)
  rintro ts n _ rest n₁ ⟨name, _, _, ⟨rfl, hname, rfl⟩, superclass, _, _, hsuper, left, _, _,
    ⟨rfl, hl, rfl⟩, methods, _, _, hm, right, _, _, ⟨rfl, hr, rfl⟩, rfl, rfl, rfl⟩ kw hkw
  exact .classDecl hkw hname hsuper hl hm hr

theorem meets_declarationRule (he : Meets (fuel + 1) 1 expr (ReadsExpr .assignment))
    (hs : Meets fuel 1 stmt ReadsWhole) :
    Meets (fuel + 1) 1 (declarationRule (fuel + 1) expr stmt decl) ReadsDecl := by
  have hstmt : Meets (fuel + 1) 1 (statementRule (fuel + 1) expr stmt decl) ReadsDecl :=
    (meets_statementRule hd he hs).mono (fun _ _ _ _ _ ⟨_, h, _⟩ => .statement h)
      (Nat.le_refl _) (Nat.le_refl _)
  intro c hc
  rw [declarationRule]
  apply MeetsAt.peek
  cases hr : c.rest with
  | nil =>
    rw [Cursor.current, hr, List.headD_nil, hc]
    exact hstmt c hc
  | cons t ts =>
    rw [Cursor.current, hr, List.headD_cons]
    split
    · next hk =>
      exact meetsAt_take hr hc (by omega) (meets_classDeclaration hd) fun n s rest n₁ h => h t hk
    · next hk =>
      refine meetsAt_take hr hc (by omega) ((meets_function hd "function").bind fun f =>
        meets_pure (Stmt.function f)) ?_
      rintro n _ rest n₁ ⟨f, _, _, hf, rfl, rfl, rfl⟩
      exact .function hk hf
    · next hk =>
      exact meetsAt_take hr hc (by omega) (meets_varDeclaration (he.weaken (Nat.le_succ fuel)))
        fun n s rest n₁ h => .variable hk h
    · exact hstmt c hc

end

theorem meetsAt_recovering {p : Parse Stmt} {c : Cursor} (hp : MeetsAt fuel 1 p ReadsDecl c)
    (hr : c.rest ≠ []) : MeetsAt fuel 1 (recovering p) ReadsRecovered c := by
  unfold MeetsAt recovering
  unfold MeetsAt at hp
  match p c, hp with
  | .ok s d, ⟨hl, hlen, hR⟩ => exact ⟨hl, hlen, fun hd => ⟨s, rfl, hR hd⟩⟩
  | .error .exhausted d, hp => exact hp
  | .error (.fault e) d, hl =>
    have hl' : c.Leads (d.report e).synchronize :=
      hl.trans ((d.leads_report e).trans (Cursor.leads_synchronize _))
    refine ⟨hl', ?_, fun hclean => ?_⟩
    · by_cases hd : d.rest = []
      · have hlen : (d.report e).synchronize.rest.length ≤ d.rest.length :=
          (Cursor.leads_synchronize (d.report e)).length_le
        have hpos : 0 < c.rest.length := List.length_pos_iff.mpr hr
        simp only [hd, List.length_nil] at hlen
        omega
      · have hlt := (d.report e).length_rest_synchronize_lt hd
        have hle : (d.report e).rest.length ≤ c.rest.length := hl.length_le
        omega
    · obtain ⟨_, h⟩ := (hl.trans (d.leads_report e)).clean (Cursor.leads_synchronize _) hclean
      obtain ⟨_, h⟩ := hl.clean (d.leads_report e) (h ▸ hclean)
      simp [Cursor.report] at h

end Statements

theorem meets_statement_declaration (fuel : Nat) :
    Meets fuel 1 (statement fuel) ReadsWhole ∧ ∀ c : Cursor, c.eof.kind = .eof → c.rest ≠ [] →
      MeetsAt fuel 1 (declaration fuel) ReadsRecovered c := by
  induction fuel with
  | zero => exact ⟨meets_exhausted, fun c hc _ => meets_exhausted c hc⟩
  | succ fuel ih =>
    obtain ⟨hs, hd⟩ := ih
    have he := meets_expression (fuel + 1)
    refine ⟨?_, fun c hc hr => ?_⟩
    · have h : statement (fuel + 1) = statementRule (fuel + 1) (expression (fuel + 1))
          (statement fuel) (declaration fuel) := by
        funext c
        rw [statement]
      rw [h]
      exact meets_statementRule hd he hs
    · have h : declaration (fuel + 1) = recovering (declarationRule (fuel + 1)
          (expression (fuel + 1)) (statement fuel) (declaration fuel)) := by
        funext c
        rw [declaration]
      rw [h]
      exact meetsAt_recovering (meets_declarationRule hd he hs c hc) hr

theorem declaration_ne_fault (fuel : Nat) (c d : Cursor) (e : Diagnostic) :
    declaration fuel c ≠ .error (.fault e) d := by
  intro h
  cases fuel with
  | zero => cases h
  | succ fuel =>
    rw [declaration, recovering] at h
    split at h <;> cases h

theorem declaration_ok {c : Cursor} (hc : c.eof.kind = .eof) (hr : c.rest ≠ []) :
    ∃ o d, declaration c.fuel c = .ok o d ∧ c.Leads d ∧ d.rest.length < c.rest.length ∧
      (d.faults = c.faults → ReadsRecovered c.rest c.nextId o d.rest d.nextId) := by
  have h : Outcome c.fuel 1 ReadsRecovered c (declaration c.fuel c) :=
    (meets_statement_declaration c.fuel).2 c hc hr
  match hd : declaration c.fuel c, h with
  | .ok o d, ⟨hl, hlen, hR⟩ => exact ⟨o, d, rfl, hl, hlen, hR⟩
  | .error (.fault e) d, _ => exact absurd hd (declaration_ne_fault _ _ _ _)
  | .error .exhausted d, ⟨_, hlen⟩ => exact absurd hlen (by simp [Cursor.fuel])

theorem program_ok {m : Nat} {c : Cursor} (hc : c.eof.kind = .eof) (hm : c.rest.length < m) :
    ∃ ss d, Parse.program m c = .ok ss d ∧ c.Leads d ∧ d.rest = [] ∧
      (d.faults = c.faults → ReadsDecls c.rest c.nextId ss [] d.nextId) := by
  induction m generalizing c with
  | zero => omega
  | succ m ih =>
    cases hr : c.rest.isEmpty with
    | true =>
      refine ⟨[], c, ?_, Cursor.Leads.refl c, List.isEmpty_iff.mp hr, fun _ => ?_⟩
      · rw [Parse.program, hr]
        rfl
      · rw [List.isEmpty_iff.mp hr]
        exact .nil
    | false =>
      have hne : c.rest ≠ [] := by simpa using hr
      obtain ⟨o, d, hd, hl, hlen, hR⟩ := declaration_ok hc hne
      obtain ⟨ss, e, he, hl', hnil, hR'⟩ := ih (hl.eof ▸ hc) (by omega)
      refine ⟨o.toList ++ ss, e, ?_, hl.trans hl', hnil, fun hclean => ?_⟩
      · simp only [Parse.program, hr, hd, he]
        rfl
      · obtain ⟨h₁, h₂⟩ := hl.clean hl' hclean
        obtain ⟨s, rfl, hs⟩ := hR h₁
        exact .cons hs (hR' h₂)

theorem readsDecls_program {c : Cursor} (hc : c.eof.kind = .eof)
    (hf : c.program.2.faults = c.faults) :
    ReadsDecls c.rest c.nextId c.program.1 [] c.program.2.nextId := by
  obtain ⟨ss, d, hd, -, -, hR⟩ := program_ok hc (Nat.lt_succ_self c.rest.length)
  have hp : c.program = (ss, d) := by
    simp only [Cursor.program, Cursor.fuel, hd]
  rw [hp] at hf ⊢
  exact hR hf

end Treewalk.Grammar
