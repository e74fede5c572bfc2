import Treewalk.Proofs.Grammar.Indexed.Standing

/-!
What holds of every rule. A property of runs that the primitives have, and that sequences and
attempts keep, holds of each step of a rule whose calls have it, and so of whole runs.
-/

namespace Treewalk

namespace Parser

theorem bind_run_cases {α β : Type} {w : Run α} {f : α → Run β} {r : Except Diagnostic β}
    (h : (w >>= f) p = some (r, p'')) :
    (∃ e, w p = some (.error e, p'') ∧ r = .error e) ∨
      ∃ a p', w p = some (.ok a, p') ∧ f a p' = some (r, p'') := by
  change (w p).bind _ = _ at h
  obtain ⟨⟨r', p'⟩, hw, hrest⟩ := Option.bind_eq_some_iff.mp h
  cases r' with
  | ok a => exact .inr ⟨a, p', hw, hrest⟩
  | error e =>
    cases hrest
    exact .inl ⟨e, hw, rfl⟩

theorem attempt_run_cases {α : Type} {w : Run α} {r : Except Diagnostic (Except Diagnostic α)}
    (h : attempt w p = some (r, p')) : ∃ r', w p = some (r', p') ∧ r = .ok r' := by
  change (w p).bind _ = _ at h
  obtain ⟨⟨r', p''⟩, hw, hrest⟩ := Option.bind_eq_some_iff.mp h
  cases hrest
  exact ⟨r', hw, rfl⟩

theorem tokenAt_run_cases (h : tokenAt i p = some (r, p')) :
    ∃ t, p.tokens[i]? = some t ∧ r = .ok t ∧ p' = p := by
  obtain ⟨t, ht, h⟩ := Option.map_eq_some_iff.mp h
  cases h
  exact ⟨t, ht, rfl, rfl⟩

/-- A property that the primitives have, and every run that is put together of such runs. -/
structure Compositional (Q : (α : Type) → Run α → Prop) : Prop where
  never : ∀ {α}, Q α fun _ => none
  pure : ∀ {α} (a : α), Q α (pure a)
  bind : ∀ {α β} {w : Run α} {f : α → Run β}, Q α w → (∀ a, Q β (f a)) → Q β (w >>= f)
  attempt : ∀ {α} {w : Run α}, Q α w → Q _ (attempt w)
  peek : Q _ peek
  previous : Q _ previous
  advance : Q _ advance
  failHere : ∀ {α} (fault : SyntaxFault), Q α (failHere fault)
  keep : ∀ d, Q _ (keep d)
  number : ∀ t, Q _ (number t)

namespace Compositional

variable {Q : (α : Type) → Run α → Prop} (hQ : Compositional Q) {α β : Type}
include hQ

theorem map {w : Run α} (g : α → β) (hw : Q α w) : Q β (g <$> w) := by
  have hmap : g <$> w = w >>= fun a => Pure.pure (g a) := rfl
  rw [hmap]
  exact hQ.bind hw fun a => hQ.pure (g a)

omit hQ in
theorem ite {P : Prop} [Decidable P] {w w' : Run α} (hw : Q α w) (hw' : Q α w') :
    Q α (if P then w else w') := by
  split
  · exact hw
  · exact hw'

theorem atEnd : Q _ atEnd := hQ.bind hQ.peek fun _ => hQ.pure _

theorem check (kind : TokenKind) : Q _ (check kind) :=
  hQ.bind hQ.atEnd fun _ => ite (hQ.pure _) (hQ.bind hQ.peek fun _ => hQ.pure _)

theorem accept (kinds : List TokenKind) : Q _ (accept kinds) := by
  induction kinds with
  | nil => exact hQ.pure none
  | cons kind kinds ih =>
    exact hQ.bind (hQ.check kind) fun _ => ite (hQ.bind hQ.advance fun _ => hQ.pure _) ih

theorem choice {kinds : List TokenKind} {f : Option Token → Run α}
    (hs : ∀ t, Q α (f (some t))) (hn : Q α (f none)) : Q α (Parser.accept kinds >>= f) :=
  hQ.bind (hQ.accept kinds) fun
    | some t => hs t
    | none => hn

theorem expect (kind : TokenKind) (fault : SyntaxFault) : Q _ (expect kind fault) :=
  hQ.choice (fun _ => hQ.pure _) (hQ.failHere fault)

theorem superclass : Q _ superclass :=
  hQ.choice (fun _ => hQ.bind (hQ.expect _ _) fun _ => hQ.bind (hQ.number _) fun _ => hQ.pure _)
    (hQ.pure none)

theorem assignTo (target value : Expr) (equals : Token) : Q _ (assignTo target equals value) := by
  unfold Parser.assignTo
  cases target with
  | name ref => exact hQ.bind (hQ.number ref.token) fun _ => hQ.pure _
  | get object property => exact hQ.pure _
  | _ => exact hQ.bind (hQ.keep _) fun _ => hQ.pure _

theorem limited {P : Prop} [Decidable P] {fault : SyntaxFault} {w : Run α} (hw : Q α w) :
    Q α (if P then Parser.peek >>= fun t => report fault t >>= fun _ => w else w) :=
  ite (hQ.bind hQ.peek fun _ => hQ.bind (hQ.keep _) fun _ => hw) hw

theorem untilBrace {w : Run (List α)} (hw : Q _ w) :
    Q _ (Parser.check (.punct .rightBrace) >>= fun b => Parser.atEnd >>= fun b' =>
      if (b || b') = true then Pure.pure [] else w) :=
  hQ.bind (hQ.check _) fun _ => hQ.bind hQ.atEnd fun _ => ite (hQ.pure []) hw

section

variable {call : ∀ {β : Type}, Rule β → Run β}
  (hcall : ∀ {β : Type} (rule : Rule β), Q β (call rule))
include hcall

theorem step_callTail (callee : Expr) : Q _ (step call (.callTail callee)) := by
  have hrest (args : List Expr) : Q _
      (do
        let paren ← expectMark .rightParen "after arguments"
        return Expr.call callee paren args) :=
    hQ.bind (hQ.expect _ _) fun _ => hQ.pure _
  exact hQ.bind (hQ.check _) fun _ =>
    ite (hQ.bind (hQ.pure _) hrest) (hQ.bind (hcall _) hrest)

theorem step_primary : Q _ (step call .primary) := by
  have htake (e : Expr) : Q _ (do let _ ← Parser.advance; return e) :=
    hQ.bind hQ.advance fun _ => hQ.pure e
  refine hQ.bind hQ.peek fun t => ?_
  dsimp only
  split
  · exact htake _
  · exact htake _
  · exact htake _
  · exact htake _
  · exact htake _
  · exact hQ.bind hQ.advance fun _ => hQ.bind (hQ.number _) fun _ => hQ.pure _
  · exact hQ.bind hQ.advance fun _ => hQ.bind (hQ.number _) fun _ => hQ.pure _
  · exact hQ.bind hQ.advance fun _ => hQ.bind (hQ.expect _ _) fun _ =>
      hQ.bind (hQ.expect _ _) fun _ => hQ.bind (hQ.number _) fun _ => hQ.pure _
  · exact hQ.bind hQ.advance fun _ => hQ.bind (hcall _) fun _ =>
      hQ.bind (hQ.expect _ _) fun _ => hQ.pure _
  · exact hQ.failHere _

theorem step_varDeclaration : Q _ (step call .varDeclaration) := by
  refine hQ.bind (hQ.expect _ _) fun name => ?_
  have hrest (init : Option Expr) : Q _
      (do
        let _ ← expectMark .semicolon "after variable declaration"
        return Stmt.var name init) :=
    hQ.bind (hQ.expect _ _) fun _ => hQ.pure _
  exact hQ.choice (fun _ => hQ.bind (hQ.map some (hcall _)) hrest)
    (hQ.bind (hQ.pure none) hrest)

theorem step_statement : Q _ (step call .statement) := by
  have htake (rule : Rule Stmt) : Q _ (do let _ ← Parser.advance; call rule) :=
    hQ.bind hQ.advance fun _ => hcall rule
  refine hQ.bind hQ.peek fun t => ?_
  dsimp only
  split
  · exact htake _
  · exact htake _
  · exact htake _
  · exact hQ.bind hQ.advance fun _ => hcall _
  · exact htake _
  · exact hQ.bind hQ.advance fun _ => hQ.bind (hcall _) fun _ => hQ.pure _
  · exact hcall _

theorem step_function (what : String) : Q _ (step call (.function what)) := by
  refine hQ.bind (hQ.expect _ _) fun name => hQ.bind (hQ.expect _ _) fun _ => ?_
  have hrest (params : List Token) : Q _
      (do
        let _ ← expectMark .rightParen "after parameters"
        let _ ← expectMark .leftBrace ("before " ++ what ++ " body")
        return FunctionDecl.mk name params (← call .block)) :=
    hQ.bind (hQ.expect _ _) fun _ => hQ.bind (hQ.expect _ _) fun _ =>
      hQ.bind (hcall _) fun _ => hQ.pure _
  exact hQ.bind (hQ.check _) fun _ =>
    ite (hQ.bind (hQ.pure _) hrest) (hQ.bind (hcall _) hrest)

theorem step_unguarded : Q _ (step call .unguarded) := by
  refine hQ.bind hQ.peek fun t => ?_
  dsimp only
  split
  · exact hQ.bind hQ.advance fun _ => hcall _
  · exact hQ.bind hQ.advance fun _ => hQ.bind (hcall _) fun _ => hQ.pure _
  · exact hQ.bind hQ.advance fun _ => hcall _
  · exact hcall _

theorem step_resume : Q _ (step call .resume) :=
  hQ.bind hQ.atEnd fun _ => ite (hQ.pure ()) <| hQ.bind hQ.previous fun _ =>
    ite (hQ.pure ()) <| hQ.bind hQ.peek fun _ => ite (hQ.pure ()) <|
      hQ.bind hQ.advance fun _ => hcall _

theorem step (rule : Rule α) : Q α (Parser.step call rule) := by
  cases rule with
  | expression =>
    exact hQ.bind (hcall _) fun _ => hQ.choice
      (fun _ => hQ.bind (hcall _) fun _ => hQ.assignTo _ _ _) (hQ.pure _)
  | binary levels =>
    cases levels with
    | nil => exact hcall _
    | cons level tighter => exact hQ.bind (hcall _) fun _ => hcall _
  | operands level tighter left =>
    exact hQ.choice (fun _ => hQ.bind (hcall _) fun _ => hcall _) (hQ.pure _)
  | unary =>
    exact hQ.choice (fun _ => hQ.bind (hcall _) fun _ => hQ.pure _)
      (hQ.bind (hcall _) fun _ => hcall _)
  | suffixes e =>
    exact hQ.choice (fun _ => hQ.bind (hcall _) fun _ => hcall _) <| hQ.choice
      (fun _ => hQ.bind (hQ.expect _ _) fun _ => hcall _) (hQ.pure _)
  | callTail callee => exact hQ.step_callTail hcall callee
  | arguments count =>
    exact hQ.limited <| hQ.bind (hcall _) fun _ => hQ.choice
      (fun _ => hQ.bind (hcall _) fun _ => hQ.pure _) (hQ.pure _)
  | primary => exact hQ.step_primary hcall
  | unlessMark mark =>
    exact hQ.bind (hQ.check _) fun _ => ite (hQ.pure _) (hQ.bind (hcall _) fun _ => hQ.pure _)
  | varDeclaration => exact hQ.step_varDeclaration hcall
  | expressionStatement =>
    exact hQ.bind (hcall _) fun _ => hQ.bind (hQ.expect _ _) fun _ => hQ.pure _
  | printStatement =>
    exact hQ.bind (hcall _) fun _ => hQ.bind (hQ.expect _ _) fun _ => hQ.pure _
  | returnStatement keyword =>
    exact hQ.bind (hcall _) fun _ => hQ.bind (hQ.expect _ _) fun _ => hQ.pure _
  | forStart =>
    exact hQ.choice (fun _ => hQ.pure _) <| hQ.choice
      (fun _ => hQ.map some (hcall _)) (hQ.map some (hcall _))
  | forStatement =>
    exact hQ.bind (hQ.expect _ _) fun _ => hQ.bind (hcall _) fun _ => hQ.bind (hcall _) fun _ =>
      hQ.bind (hQ.expect _ _) fun _ => hQ.bind (hcall _) fun _ => hQ.bind (hQ.expect _ _) fun _ =>
      hQ.bind (hcall _) fun _ => hQ.pure _
  | ifStatement =>
    exact hQ.bind (hQ.expect _ _) fun _ => hQ.bind (hcall _) fun _ =>
      hQ.bind (hQ.expect _ _) fun _ => hQ.bind (hcall _) fun _ => hQ.choice
      (fun _ => hQ.bind (hcall _) fun _ => hQ.pure _) (hQ.pure _)
  | whileStatement =>
    exact hQ.bind (hQ.expect _ _) fun _ => hQ.bind (hcall _) fun _ =>
      hQ.bind (hQ.expect _ _) fun _ => hQ.bind (hcall _) fun _ => hQ.pure _
  | statement => exact hQ.step_statement hcall
  | block => exact hQ.bind (hcall _) fun _ => hQ.bind (hQ.expect _ _) fun _ => hQ.pure _
  | declarations =>
    exact hQ.untilBrace <| hQ.bind (hcall _) fun
      | some _ => hQ.bind (hcall _) fun _ => hQ.pure _
      | none => hcall _
  | parameters count =>
    exact hQ.limited <| hQ.bind (hQ.expect _ _) fun _ => hQ.choice
      (fun _ => hQ.bind (hcall _) fun _ => hQ.pure _) (hQ.pure _)
  | function what => exact hQ.step_function hcall what
  | methods =>
    exact hQ.untilBrace <| hQ.bind (hcall _) fun _ => hQ.bind (hcall _) fun _ => hQ.pure _
  | classDeclaration =>
    exact hQ.bind (hQ.expect _ _) fun _ => hQ.bind hQ.superclass fun _ =>
      hQ.bind (hQ.expect _ _) fun _ => hQ.bind (hcall _) fun _ =>
      hQ.bind (hQ.expect _ _) fun _ => hQ.pure _
  | unguarded => exact hQ.step_unguarded hcall
  | declaration =>
    exact hQ.bind (hQ.attempt (hcall _)) fun
      | .ok _ => hQ.pure _
      | .error _ => hQ.bind (hQ.keep _) fun _ => hQ.bind (hcall _) fun _ => hQ.pure _
  | synchronize => exact hQ.bind hQ.advance fun _ => hcall _
  | resume => exact hQ.step_resume hcall
  | program =>
    exact hQ.bind hQ.atEnd fun _ => ite (hQ.pure _) <| hQ.bind (hcall _) fun
      | some _ => hQ.bind (hcall _) fun _ => hQ.pure _
      | none => hcall _

omit hcall in
theorem run (depth : Nat) (rule : Rule α) : Q α (Parser.run depth rule) := by
  induction depth generalizing α with
  | zero => exact hQ.never
  | succ depth ih => exact hQ.step (fun rule => ih rule) rule

end

end Compositional

end Parser

end Treewalk
