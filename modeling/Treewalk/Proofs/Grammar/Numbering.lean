import Mathlib.Data.List.Perm.Subperm
import Treewalk.Proofs.Scoping.Shape

namespace Treewalk

theorem Numbered.subperm (h : Numbered n n₁ a) (hb : b.Subperm a) : Numbered n n₁ b := by
  obtain ⟨l, hl, hs⟩ := hb
  exact ⟨hl.nodup_iff.mp (hs.nodup h.1), fun i hi => h.2 i (hs.mem (hl.mem_iff.mpr hi))⟩

namespace Parse

def Draws (before : List Nat) (ids : α → List Nat) (p : Parse α) : Prop :=
  ∀ n c, n ≤ c.nextId → Numbered n c.nextId before → match p c with
    | .ok a c' => c.nextId ≤ c'.nextId ∧ Numbered n c'.nextId (ids a)
    | .error _ c' => c.nextId ≤ c'.nextId

def DrawsNone (p : Parse α) : Prop :=
  ∀ c, match p c with | .ok _ c' | .error _ c' => c'.nextId = c.nextId

variable {α β : Type} {before : List Nat} {ids : α → List Nat} {more : β → List Nat}
  {p : Parse α} {f : α → Parse β}

theorem Draws.bind (hp : Draws before ids p) (hf : ∀ a, Draws (ids a) more (f a)) :
    Draws before more (p >>= f) := by
  intro n c hn hb
  have h := hp n c hn hb
  simp only [Bind.bind, EStateM.bind]
  generalize p c = r at h ⊢
  cases r with
  | error => exact h
  | ok a c₁ =>
    have h₁ := hf a n c₁ (Nat.le_trans hn h.1) h.2
    dsimp only
    generalize f a c₁ = r₁ at h₁ ⊢
    cases r₁ with
    | error => exact Nat.le_trans h.1 h₁
    | ok b c₂ => exact ⟨Nat.le_trans h.1 h₁.1, h₁.2⟩

theorem Draws.after (hp : Draws [] ids p) (before : List Nat) :
    Draws before (fun a => before ++ ids a) p := by
  intro n c hn hb
  have h := hp c.nextId c (Nat.le_refl _) .nil
  generalize p c = r at h ⊢
  cases r with
  | error => exact h
  | ok a c₁ => exact ⟨h.1, hb.append h.2 hn h.1⟩

theorem Draws.then (hp : Draws [] ids p) (hf : ∀ a, Draws (before ++ ids a) more (f a)) :
    Draws before more (p >>= f) :=
  (hp.after before).bind hf

theorem DrawsNone.draws (hp : DrawsNone p) (before : List Nat) :
    Draws before (fun _ => before) p := by
  intro n c _ hb
  have h := hp c
  generalize p c = r at h ⊢
  cases r with
  | error => exact Nat.le_of_eq h.symm
  | ok a c₁ => exact ⟨Nat.le_of_eq h.symm, by rwa [h]⟩

theorem DrawsNone.then (hp : DrawsNone p) (hf : ∀ a, Draws before more (f a)) :
    Draws before more (p >>= f) :=
  (hp.draws before).bind hf

theorem Draws.map {g : α → β} (hp : Draws before ids p) (hg : ∀ a, more (g a) = ids a) :
    Draws before more (g <$> p) := by
  intro n c hn hb
  have h := hp n c hn hb
  simp only [Functor.map, EStateM.map]
  generalize p c = r at h ⊢
  cases r with
  | error => exact h
  | ok a c₁ => exact ⟨h.1, by rw [hg]; exact h.2⟩

theorem draws_pure {a : α} (h : (ids a).Subperm before) : Draws before ids (pure a) :=
  fun _ _ _ hb => ⟨Nat.le_refl _, hb.subperm h⟩

theorem draws_exhausted : Draws before ids (exhausted : Parse α) := fun _ _ _ _ => Nat.le_refl _

theorem draws_failHere {fault : SyntaxFault} : Draws before ids (failHere fault : Parse α) :=
  fun _ _ _ _ => Nat.le_refl _

theorem drawsNone_peek : DrawsNone peek := fun _ => rfl

theorem drawsNone_atEnd : DrawsNone atEnd := fun _ => rfl

theorem drawsNone_check {kind : TokenKind} : DrawsNone (check kind) := fun _ => rfl

theorem drawsNone_take : DrawsNone take := fun _ => rfl

theorem drawsNone_report {fault : SyntaxFault} {t : Token} : DrawsNone (report fault t) :=
  fun _ => rfl

theorem drawsNone_acceptIf {wanted : TokenKind → Bool} : DrawsNone (acceptIf wanted) := by
  intro c
  unfold acceptIf
  split <;> rename_i h
  · split at h
    · cases h
      rfl
    · split at h <;> cases h <;> rfl
  · split at h
    · cases h
    · split at h <;> cases h

theorem draws_number {t : Token} : Draws [] (fun ref => [ref.id]) (number t) :=
  fun _ c hn _ => ⟨Nat.le_succ _, .single hn (Nat.lt_succ_self c.nextId)⟩

theorem Draws.choice {wanted : TokenKind → Bool} {f : Option Token → Parse β}
    (hs : ∀ t, Draws before more (f (some t))) (hn : Draws before more (f none)) :
    Draws before more (acceptIf wanted >>= f) :=
  drawsNone_acceptIf.then fun t => by
    cases t with
    | none => exact hn
    | some t => exact hs t

theorem Draws.test {p : Parse Bool} {f : Bool → Parse β} (hp : DrawsNone p)
    (ht : Draws before more (f true)) (hf : Draws before more (f false)) :
    Draws before more (p >>= f) :=
  hp.then fun b => by
    cases b with
    | true => exact ht
    | false => exact hf

theorem Draws.unlessClosed {p q : Parse β} (hp : Draws before more p) (hq : Draws before more q) :
    Draws before more
      (do if (← check (.punct .rightBrace)) || (← atEnd) then p else q) :=
  .test drawsNone_check (drawsNone_atEnd.then fun _ => hp) (.test drawsNone_atEnd hp hq)

theorem Draws.expect {kind : TokenKind} {fault : SyntaxFault} {f : Token → Parse β}
    (hf : ∀ t, Draws before more (f t)) : Draws before more (expect kind fault >>= f) := by
  have he : Draws before (fun _ => before) (Parse.expect kind fault) :=
    .choice (fun _ => draws_pure (.refl _)) draws_failHere
  exact he.bind hf

def optional (ids : α → List Nat) (a : Option α) : List Nat := (a.map ids).getD []

theorem draws_recovering (hp : Draws [] ids p) : Draws [] (optional ids) (recovering p) := by
  intro n c hn hb
  have h := hp n c hn hb
  unfold recovering
  generalize p c = r at h ⊢
  cases r with
  | ok a c₁ => exact h
  | error e c₁ =>
    cases e with
    | exhausted => exact h
    | fault d =>
      have hs : (c₁.report d).synchronize.nextId = c₁.nextId := by
        unfold Cursor.synchronize
        split <;> rfl
      exact ⟨hs ▸ h, .nil⟩

section Expressions

variable {fuel : Nat} {nested : Parse Expr} (hn : Draws [] Expr.refs nested)
include hn

theorem draws_primary : Draws [] Expr.refs (primary nested) := by
  refine drawsNone_peek.then fun t => ?_
  -- a number is drawn for a name, a `this` and a `super`, and for nothing else
  split
  · exact drawsNone_take.then fun _ => draws_pure (.refl _)
  · exact drawsNone_take.then fun _ => draws_pure (.refl _)
  · exact drawsNone_take.then fun _ => draws_pure (.refl _)
  · exact drawsNone_take.then fun _ => draws_pure (.refl _)
  · exact drawsNone_take.then fun _ => draws_pure (.refl _)
  · exact drawsNone_take.then fun _ => draws_number.bind fun _ => draws_pure (.refl _)
  · exact drawsNone_take.then fun _ => draws_number.bind fun _ => draws_pure (.refl _)
  · exact drawsNone_take.then fun _ => .expect fun _ => .expect fun _ =>
      draws_number.bind fun _ => draws_pure (.refl _)
  · exact drawsNone_take.then fun _ => hn.bind fun _ => .expect fun _ => draws_pure (.refl _)
  · exact draws_failHere

theorem draws_arguments (m count : Nat) : Draws [] Expr.refsAll (arguments nested m count) := by
  induction m generalizing count with
  | zero => exact draws_exhausted
  | succ m ih =>
    rw [arguments]
    split
    on_goal 1 => refine drawsNone_peek.then fun _ => drawsNone_report.then fun _ => ?_
    all_goals
      exact hn.bind fun e => .choice (fun _ => (ih (count + 1)).then fun _ => draws_pure (.refl _))
        (draws_pure (List.append_nil e.refs ▸ .refl _))

theorem draws_callTail (callee : Expr) :
    Draws callee.refs Expr.refs (callTail fuel nested callee) := by
  have hrest (args : List Expr) : Draws (callee.refs ++ Expr.refsAll args) Expr.refs
      (do let paren ← expectMark .rightParen "after arguments"; return .call callee paren args) :=
    .expect fun _ => draws_pure (.refl _)
  refine .test drawsNone_check ?_ ((draws_arguments hn fuel 0).then hrest)
  have hnil : Draws callee.refs (fun args => callee.refs ++ Expr.refsAll args) (pure []) :=
    draws_pure (by simp [Expr.refsAll, List.Subperm.refl])
  exact hnil.bind hrest

theorem draws_suffixes (n : Nat) (e : Expr) :
    Draws e.refs Expr.refs (suffixes fuel nested n e) := by
  induction n generalizing e with
  | zero => exact draws_exhausted
  | succ n ih =>
    exact .choice (fun _ => (draws_callTail hn e).bind ih)
      (.choice (fun _ => .expect fun name => ih (.get e name)) (draws_pure (.refl _)))

theorem draws_call : Draws [] Expr.refs (call fuel nested) :=
  (draws_primary hn).bind (draws_suffixes hn fuel)

omit hn in
theorem draws_unaryOperators (n : Nat) : Draws [] (fun _ => []) (unaryOperators n) := by
  induction n with
  | zero => exact draws_exhausted
  | succ n ih =>
    exact .choice (fun _ => ih.bind fun _ => draws_pure (.refl _)) (draws_pure (.refl _))

theorem draws_unary : Draws [] Expr.refs (unary fuel nested) := by
  have hrefs (ops : List Token) (e : Expr) : (ops.foldr Expr.unary e).refs = e.refs := by
    induction ops with
    | nil => rfl
    | cons op ops ih => exact ih
  exact (draws_unaryOperators fuel).bind fun ops => (draws_call hn).bind fun e =>
    draws_pure (hrefs ops e ▸ .refl _)

omit hn in
theorem draws_leftAssoc {operand : Parse Expr} {ops : List TokenKind}
    {node : Expr → Token → Expr → Expr} (ho : Draws [] Expr.refs operand)
    (hnode : ∀ l op r, (node l op r).refs = l.refs ++ r.refs) :
    Draws [] Expr.refs (leftAssoc fuel ops node operand) := by
  have hmore (n : Nat) (l : Expr) : Draws l.refs Expr.refs (operands ops node operand n l) := by
    induction n generalizing l with
    | zero => exact draws_exhausted
    | succ n ih =>
      exact .choice (fun op => ho.then fun r => hnode l op r ▸ ih (node l op r))
        (draws_pure (.refl _))
  exact ho.bind (hmore fuel)

theorem draws_disjunction : Draws [] Expr.refs (disjunction fuel nested) :=
  draws_leftAssoc (draws_leftAssoc (draws_leftAssoc (draws_leftAssoc (draws_leftAssoc
    (draws_leftAssoc (draws_unary hn) fun _ _ _ => rfl) fun _ _ _ => rfl) fun _ _ _ => rfl)
    fun _ _ _ => rfl) fun _ _ _ => rfl) fun _ _ _ => rfl

omit hn in
theorem draws_assignTo (target : Expr) (equals : Token) (value : Expr) :
    Draws (target.refs ++ value.refs) Expr.refs (assignTo target equals value) := by
  unfold assignTo
  split
  · refine draws_number.then fun ref => draws_pure (List.Sublist.subperm ?_)
    exact (List.sublist_append_right _ _).append_right _
  · exact draws_pure (.refl _)
  · exact drawsNone_report.then fun _ => draws_pure (List.sublist_append_left _ _).subperm

theorem draws_assignment : Draws [] Expr.refs (assignment fuel nested) :=
  (draws_disjunction hn).bind fun target => .choice
    (fun equals => hn.then fun value => draws_assignTo target equals value) (draws_pure (.refl _))

omit hn in
theorem draws_expression (n : Nat) : Draws [] Expr.refs (expression n) := by
  induction n with
  | zero => exact draws_exhausted
  | succ n ih => exact draws_assignment ih

end Expressions

section Statements

variable {fuel : Nat} {expr : Parse Expr} {stmt : Parse Stmt} {decl : Parse (Option Stmt)}
  (he : Draws [] Expr.refs expr) (hs : Draws [] Stmt.refs stmt)
  (hd : Draws [] (optional Stmt.refs) decl)

include he in
theorem draws_unlessMark {mark : Punctuator} :
    Draws [] Expr.refsOption (unlessMark expr mark) :=
  .test drawsNone_check (draws_pure (.refl _)) (he.bind fun _ => draws_pure (.refl _))

include he in
theorem draws_varDeclaration : Draws [] Stmt.refs (varDeclaration expr) := by
  refine .expect fun name => ?_
  have hrest (init : Option Expr) : Draws (Expr.refsOption init) Stmt.refs
      (do let _ ← expectMark .semicolon "after variable declaration"; return .var name init) :=
    .expect fun _ => draws_pure (.refl _)
  have hsome : Draws [] Expr.refsOption (some <$> expr) := he.map fun _ => rfl
  have hnone : Draws [] Expr.refsOption (pure none) := draws_pure (.refl _)
  exact .choice (fun _ => hsome.bind hrest) (hnone.bind hrest)

include he in
theorem draws_expressionStatement : Draws [] Stmt.refs (expressionStatement expr) :=
  he.bind fun _ => .expect fun _ => draws_pure (.refl _)

include he in
theorem draws_printStatement : Draws [] Stmt.refs (printStatement expr) :=
  he.bind fun _ => .expect fun _ => draws_pure (.refl _)

include he in
theorem draws_returnStatement {keyword : Token} :
    Draws [] Stmt.refs (returnStatement expr keyword) :=
  (draws_unlessMark he).bind fun _ => .expect fun _ => draws_pure (.refl _)

include he hs in
theorem draws_whileStatement : Draws [] Stmt.refs (whileStatement expr stmt) :=
  .expect fun _ => he.bind fun _ => .expect fun _ => hs.then fun _ => draws_pure (.refl _)

include he hs in
theorem draws_ifStatement : Draws [] Stmt.refs (ifStatement expr stmt) :=
  .expect fun _ => he.bind fun _ => .expect fun _ => hs.then fun _ => .choice
    (fun _ => hs.then fun _ => draws_pure (by simp [Stmt.refs, List.Subperm.refl]))
    (draws_pure (.refl _))

include he in
theorem draws_forStart : Draws [] (optional Stmt.refs) (forStart expr) :=
  .choice (fun _ => draws_pure (.refl _)) (.choice
    (fun _ => (draws_varDeclaration he).map fun _ => rfl)
    ((draws_expressionStatement he).map fun _ => rfl))

theorem refs_counting (start : Option Stmt) (condition step : Option Expr) (body : Stmt) :
    (Stmt.counting start condition step body).refs.Perm
      (((optional Stmt.refs start ++ Expr.refsOption condition) ++ Expr.refsOption step) ++
        body.refs) := by
  have hcondition : (condition.getD (.literal (.bool true))).refs = Expr.refsOption condition := by
    cases condition <;> rfl
  have hmain : (Stmt.counting none condition step body).refs.Perm
      (Expr.refsOption condition ++ (Expr.refsOption step ++ body.refs)) := by
    simp only [Stmt.counting, Stmt.refs, hcondition]
    refine List.Perm.append_left _ ?_
    cases step with
    | none => exact .refl _
    | some e => simpa [Stmt.refs, Stmt.refsAll, Expr.refsOption] using List.perm_append_comm
  rw [List.append_assoc, List.append_assoc]
  cases start with
  | none => exact hmain
  | some s =>
    have hblock := hmain.append_left s.refs
    simpa [Stmt.counting, Stmt.refs, Stmt.refsAll, optional] using hblock

include he hs in
theorem draws_forStatement : Draws [] Stmt.refs (forStatement expr stmt) :=
  .expect fun _ => (draws_forStart he).bind fun _ => (draws_unlessMark he).then fun _ =>
    .expect fun _ => (draws_unlessMark he).then fun _ => .expect fun _ => hs.then fun _ =>
    draws_pure (refs_counting _ _ _ _).subperm

include hd in
theorem draws_declarations (n : Nat) : Draws [] Stmt.refsAll (declarations decl n) := by
  induction n with
  | zero => exact draws_exhausted
  | succ n ih =>
    refine .unlessClosed (draws_pure (.refl _)) (hd.bind fun s => ?_)
    cases s with
    | none => exact ih
    | some s => exact ih.then fun _ => draws_pure (.refl _)

include hd in
theorem draws_block : Draws [] Stmt.refsAll (block fuel decl) :=
  (draws_declarations hd fuel).bind fun _ => .expect fun _ => draws_pure (.refl _)

include he hs hd in
theorem draws_statementRule : Draws [] Stmt.refs (statementRule fuel expr stmt decl) := by
  refine drawsNone_peek.then fun t => ?_
  split
  · exact drawsNone_take.then fun _ => draws_forStatement he hs
  · exact drawsNone_take.then fun _ => draws_ifStatement he hs
  · exact drawsNone_take.then fun _ => draws_printStatement he
  · exact drawsNone_take.then fun _ => draws_returnStatement he
  · exact drawsNone_take.then fun _ => draws_whileStatement he hs
  · exact drawsNone_take.then fun _ => (draws_block hd).bind fun _ => draws_pure (.refl _)
  · exact draws_expressionStatement he

theorem draws_parameters (n count : Nat) : Draws [] (fun _ => []) (parameters n count) := by
  induction n generalizing count with
  | zero => exact draws_exhausted
  | succ n ih =>
    rw [parameters]
    split
    on_goal 1 => refine drawsNone_peek.then fun _ => drawsNone_report.then fun _ => ?_
    all_goals
      exact .expect fun _ => .choice
        (fun _ => (ih (count + 1)).bind fun _ => draws_pure (.refl _)) (draws_pure (.refl _))

include hd in
theorem draws_function {what : String} :
    Draws [] Stmt.refsFunction (function fuel decl what) := by
  refine .expect fun name => .expect fun _ => ?_
  have hrest (params : List Token) : Draws [] Stmt.refsFunction
      (do let _ ← expectMark .rightParen "after parameters"
          let _ ← expectMark .leftBrace ("before " ++ what ++ " body")
          return ⟨name, params, ← block fuel decl⟩) :=
    .expect fun _ => .expect fun _ => (draws_block hd).bind fun _ => draws_pure (.refl _)
  have hnil : Draws [] (fun _ => []) (pure [] : Parse (List Token)) := draws_pure (.refl _)
  exact .test drawsNone_check (hnil.bind hrest) ((draws_parameters fuel 0).bind hrest)

include hd in
theorem draws_methods (n : Nat) : Draws [] Stmt.refsMethods (methods fuel decl n) := by
  induction n with
  | zero => exact draws_exhausted
  | succ n ih =>
    exact .unlessClosed (draws_pure (.refl _)) ((draws_function hd).bind fun _ =>
      ih.then fun _ => draws_pure (.refl _))

theorem draws_superclass : Draws [] Expr.refsOption superclass :=
  .choice (fun _ => .expect fun _ => draws_number.bind fun _ => draws_pure (.refl _))
    (draws_pure (.refl _))

include hd in
theorem draws_classDeclaration : Draws [] Stmt.refs (classDeclaration fuel decl) :=
  .expect fun _ => draws_superclass.bind fun _ => .expect fun _ =>
    (draws_methods hd fuel).then fun _ => .expect fun _ => draws_pure (.refl _)

include he hs hd in
theorem draws_declarationRule : Draws [] Stmt.refs (declarationRule fuel expr stmt decl) := by
  refine drawsNone_peek.then fun t => ?_
  split
  · exact drawsNone_take.then fun _ => draws_classDeclaration hd
  · exact drawsNone_take.then fun _ => (draws_function hd).bind fun _ => draws_pure (.refl _)
  · exact drawsNone_take.then fun _ => draws_varDeclaration he
  · exact draws_statementRule he hs hd

theorem draws_statement_declaration (n : Nat) :
    Draws [] Stmt.refs (statement n) ∧ Draws [] (optional Stmt.refs) (declaration n) := by
  induction n with
  | zero => exact ⟨draws_exhausted, draws_exhausted⟩
  | succ n ih =>
    have he := draws_expression (n + 1)
    exact ⟨draws_statementRule he ih.1 ih.2,
      draws_recovering (draws_declarationRule he ih.1 ih.2)⟩

theorem refsAll_append (ss ts : List Stmt) :
    Stmt.refsAll (ss ++ ts) = Stmt.refsAll ss ++ Stmt.refsAll ts := by
  induction ss with
  | nil => rfl
  | cons s ss ih => rw [List.cons_append, Stmt.refsAll, ih, Stmt.refsAll, List.append_assoc]

theorem draws_program (n : Nat) : Draws [] Stmt.refsAll (program n) := by
  induction n with
  | zero => exact draws_exhausted
  | succ n ih =>
    intro first c hn _
    rw [program]
    by_cases hempty : c.rest.isEmpty
    · rw [if_pos hempty]
      exact ⟨Nat.le_refl _, .nil⟩
    rw [if_neg hempty]
    have h := (draws_statement_declaration c.fuel).2 first c hn .nil
    generalize declaration c.fuel c = r at h ⊢
    cases r with
    | error => exact h
    | ok s c₁ =>
      have hrest := ih.after (optional Stmt.refs s) first c₁ (Nat.le_trans hn h.1) h.2
      dsimp only
      generalize program n c₁ = r₁ at hrest ⊢
      cases r₁ with
      | error => exact Nat.le_trans h.1 hrest
      | ok ss c₂ =>
        refine ⟨Nat.le_trans h.1 hrest.1, ?_⟩
        rw [refsAll_append]
        cases s with
        | none => exact hrest.2
        | some s => simpa [Stmt.refsAll, optional] using hrest.2

end Statements

end Parse

theorem Session.numbered_parse (s : Session) (source : String) :
    Numbered s.nextId (s.parse source).2.2.nextId (Stmt.refsAll (s.parse source).1) := by
  let c := Cursor.ofTokens (Scanned.ofSource source).tokens s.nextId
  have h := Parse.draws_program c.fuel s.nextId c (Nat.le_refl _) .nil
  have hp : (s.parse source).1 = c.program.1 ∧ (s.parse source).2.2.nextId = c.program.2.nextId :=
    ⟨rfl, rfl⟩
  rw [hp.1, hp.2, Cursor.program]
  generalize Parse.program c.fuel c = r at h ⊢
  cases r with
  | ok ss c₁ => exact h.2
  | error => exact .nil

end Treewalk
