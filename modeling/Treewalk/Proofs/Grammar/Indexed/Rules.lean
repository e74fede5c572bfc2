import Treewalk.Proofs.Grammar.Indexed.Standing

namespace Treewalk

namespace Parser

variable {l : Layout} {α : Type}

theorem mirrorsAt_take {f : Nat → Token → Run α} {g : Token → Parse α} (h : Stands l c p)
    (hk : c.current.kind = kind) (hne : kind ≠ .eof) (hf : ∀ t, Mirrors l (f · t) (g t)) :
    MirrorsAt l (fun depth => advance >>= f depth) (Parse.take >>= g) c p :=
  (mirrorsAt_advance h fun hr => hne (hk ▸ h.kind_current.mpr hr)).bind hf

theorem mirrorsAt_peek {f : Nat → Token → Run α} {g : Token → Parse α} (h : Stands l c p)
    (hf : MirrorsAt l (f · c.current) (g c.current) c p) :
    MirrorsAt l (fun depth => peek >>= f depth) (Parse.peek >>= g) c p := by
  unfold MirrorsAt
  simp only [bind_run_ok _ (peek_eq h)]
  exact hf

theorem mirrors_limited {P : Prop} [Decidable P] {fault : SyntaxFault} {w : Nat → Run α}
    {q : Parse α} (h : Mirrors l w q) :
    Mirrors l
      (fun depth => if P then peek >>= fun t => report fault t >>= fun _ => w depth else w depth)
      (if P then Parse.peek >>= fun t => Parse.report fault t >>= fun _ => q else q) := by
  split
  · exact mirrors_peek.bind fun t => (mirrors_report fault t).bind fun _ => h
  · exact h

section Expressions

variable {fuel : Nat} {nested : Parse Expr} (hn : Mirrors l (run · .expression) nested)
include hn

theorem mirrors_primary : Mirrors l (run · .primary) (Parse.primary nested) := by
  intro c p h
  rw [Parse.primary]
  apply MirrorsAt.rule
  apply mirrorsAt_peek h
  cases hk : c.current.kind with
  | number x => exact mirrorsAt_take h hk nofun fun _ => mirrors_pure _
  | string s => exact mirrorsAt_take h hk nofun fun _ => mirrors_pure _
  | identifier =>
    exact mirrorsAt_take h hk nofun fun t => (mirrors_number t).bind fun _ => mirrors_pure _
  | keyword k =>
    cases k with
    | falseKw => exact mirrorsAt_take h hk nofun fun _ => mirrors_pure _
    | trueKw => exact mirrorsAt_take h hk nofun fun _ => mirrors_pure _
    | nilKw => exact mirrorsAt_take h hk nofun fun _ => mirrors_pure _
    | thisKw =>
      exact mirrorsAt_take h hk nofun fun t => (mirrors_number t).bind fun _ => mirrors_pure _
    | superKw =>
      exact mirrorsAt_take h hk nofun fun t => (mirrors_expect _ _).bind fun _ =>
        (mirrors_expect _ _).bind fun _ => (mirrors_number t).bind fun _ => mirrors_pure _
    | _ => exact mirrors_failHere _ c p h
  | punct mark =>
    cases mark with
    | leftParen =>
      exact mirrorsAt_take h hk nofun fun _ => hn.bind fun _ => (mirrors_expect _ _).bind fun _ =>
        mirrors_pure _
    | _ => exact mirrors_failHere _ c p h
  | eof => exact mirrors_failHere _ c p h

theorem mirrors_arguments (m count : Nat) :
    Mirrors l (run · (.arguments count)) (Parse.arguments nested m count) := by
  induction m generalizing count with
  | zero => exact mirrors_exhausted
  | succ m ih =>
    rw [Parse.arguments]
    exact .rule (mirrors_limited (hn.bind fun _ => .choice_one
      (fun _ => (ih (count + 1)).bind fun _ => mirrors_pure _) (mirrors_pure _)))

theorem mirrors_callTail (callee : Expr) :
    Mirrors l (run · (.callTail callee)) (Parse.callTail fuel nested callee) := by
  rw [Parse.callTail]
  have hrest (args : List Expr) : Mirrors l
      (fun _ => do
        let paren ← expectMark .rightParen "after arguments"
        return Expr.call callee paren args)
      (do let paren ← Parse.expectMark .rightParen "after arguments"
          return Expr.call callee paren args) :=
    (mirrors_expect _ _).bind fun _ => mirrors_pure _
  exact .rule (.test (mirrors_check _) ((mirrors_pure _).bind hrest)
    ((mirrors_arguments hn fuel 0).bind hrest))

theorem mirrors_suffixes (n : Nat) (e : Expr) :
    Mirrors l (run · (.suffixes e)) (Parse.suffixes fuel nested n e) := by
  induction n generalizing e with
  | zero => exact mirrors_exhausted
  | succ n ih =>
    rw [Parse.suffixes]
    refine .rule (.choice_one (fun _ => (mirrors_callTail hn e).bind ih)
      (.choice_one ?_ (mirrors_pure e)))
    exact fun _ => (mirrors_expect _ _).bind fun _ => ih _

omit hn in
theorem unaryOperators_bind (q : Parse Expr) (n : Nat) :
    (Parse.unaryOperators (n + 1) >>= fun ops => q >>= fun e => pure (ops.foldr .unary e)) =
      (Parse.acceptIf (· ∈ [.punct .bang, .punct .minus]) >>= fun
        | some op => Expr.unary op <$>
            (Parse.unaryOperators n >>= fun ops => q >>= fun e => pure (ops.foldr .unary e))
        | none => q) := by
  rw [Parse.unaryOperators, bind_assoc]
  congr 1
  funext op?
  cases op? with
  | none => simp
  | some op => simp

omit hn in
theorem mirrors_unaryOperators {q : Parse Expr}
    (hq : Mirrors l (fun depth => run depth .primary >>= fun e => run depth (.suffixes e)) q)
    (n : Nat) :
    Mirrors l (run · .unary)
      (Parse.unaryOperators n >>= fun ops => q >>= fun e => pure (ops.foldr .unary e)) := by
  induction n with
  | zero => exact fun _ _ _ => trivial
  | succ n ih =>
    rw [unaryOperators_bind]
    exact .rule (.choice (fun op => ih.map (Expr.unary op)) hq)

theorem mirrors_unary : Mirrors l (run · .unary) (Parse.unary fuel nested) :=
  mirrors_unaryOperators ((mirrors_primary hn).bind (mirrors_suffixes hn fuel)) fuel

omit hn in
theorem mirrors_leftAssoc {level : Level} {tighter : List Level} {operand : Parse Expr}
    (ho : Mirrors l (run · (.binary tighter)) operand) :
    Mirrors l (run · (.binary (level :: tighter)))
      (Parse.leftAssoc fuel level.ops level.node operand) := by
  have hmore (n : Nat) (left : Expr) : Mirrors l (run · (.operands level tighter left))
      (Parse.operands level.ops level.node operand n left) := by
    induction n generalizing left with
    | zero => exact mirrors_exhausted
    | succ n ih =>
      rw [Parse.operands]
      exact .rule (.choice (fun op => ho.bind fun _ => ih _) (mirrors_pure left))
  exact .rule (ho.bind (hmore fuel))

theorem mirrors_disjunction :
    Mirrors l (run · (.binary levels)) (Parse.disjunction fuel nested) := by
  have hunary : Mirrors l (run · (.binary [])) (Parse.unary fuel nested) := .rule (mirrors_unary hn)
  exact mirrors_leftAssoc (mirrors_leftAssoc (mirrors_leftAssoc (mirrors_leftAssoc
    (mirrors_leftAssoc (mirrors_leftAssoc hunary)))))

omit hn in
theorem mirrors_assignTo (target value : Expr) (equals : Token) :
    Mirrors l (fun _ => assignTo target equals value) (Parse.assignTo target equals value) := by
  unfold assignTo Parse.assignTo
  cases target with
  | name ref => exact (mirrors_number ref.token).bind fun _ => mirrors_pure _
  | get object property => exact mirrors_pure _
  | _ => exact (mirrors_report _ _).bind fun _ => mirrors_pure _

theorem mirrors_assignment : Mirrors l (run · .expression) (Parse.assignment fuel nested) :=
  .rule ((mirrors_disjunction hn).bind fun target => .choice_one
    (fun equals => hn.bind fun value => mirrors_assignTo target value equals) (mirrors_pure target))

omit hn in
theorem mirrors_expression (n : Nat) : Mirrors l (run · .expression) (Parse.expression n) := by
  induction n with
  | zero => exact mirrors_exhausted
  | succ n ih => exact mirrors_assignment ih

end Expressions

section Statements

variable {fuel : Nat} {expr : Parse Expr} {stmt : Parse Stmt} {decl : Parse (Option Stmt)}
  (he : Mirrors l (run · .expression) expr) (hs : Mirrors l (run · .statement) stmt)
  (hd : Mirrors l (run · .declaration) decl)

include he in
theorem mirrors_unlessMark (mark : Punctuator) :
    Mirrors l (run · (.unlessMark mark)) (Parse.unlessMark expr mark) :=
  .rule (.test (mirrors_check _) (mirrors_pure _) (he.bind fun _ => mirrors_pure _))

include he in
theorem mirrors_varDeclaration :
    Mirrors l (run · .varDeclaration) (Parse.varDeclaration expr) := by
  refine .rule ((mirrors_expect _ _).bind fun name => ?_)
  have hrest (init : Option Expr) : Mirrors l
      (fun _ => do
        let _ ← expectMark .semicolon "after variable declaration"
        return Stmt.var name init)
      (do let _ ← Parse.expectMark .semicolon "after variable declaration"
          return Stmt.var name init) :=
    (mirrors_expect _ _).bind fun _ => mirrors_pure _
  exact .choice_one (fun _ => (he.map some).bind hrest) ((mirrors_pure none).bind hrest)

include he in
theorem mirrors_expressionStatement :
    Mirrors l (run · .expressionStatement) (Parse.expressionStatement expr) :=
  .rule (he.bind fun _ => (mirrors_expect _ _).bind fun _ => mirrors_pure _)

include he in
theorem mirrors_printStatement :
    Mirrors l (run · .printStatement) (Parse.printStatement expr) :=
  .rule (he.bind fun _ => (mirrors_expect _ _).bind fun _ => mirrors_pure _)

include he in
theorem mirrors_returnStatement (keyword : Token) :
    Mirrors l (run · (.returnStatement keyword)) (Parse.returnStatement expr keyword) :=
  .rule ((mirrors_unlessMark he _).bind fun _ => (mirrors_expect _ _).bind fun _ => mirrors_pure _)

include he in
theorem mirrors_forStart : Mirrors l (run · .forStart) (Parse.forStart expr) :=
  .rule <| .choice_one (fun _ => mirrors_pure none) <| .choice_one
    (fun _ => (mirrors_varDeclaration he).map some) ((mirrors_expressionStatement he).map some)

include he hs in
theorem mirrors_forStatement :
    Mirrors l (run · .forStatement) (Parse.forStatement expr stmt) :=
  .rule <| (mirrors_expect _ _).bind fun _ => (mirrors_forStart he).bind fun _ =>
    (mirrors_unlessMark he _).bind fun _ => (mirrors_expect _ _).bind fun _ =>
    (mirrors_unlessMark he _).bind fun _ => (mirrors_expect _ _).bind fun _ =>
    hs.bind fun _ => mirrors_pure _

include he hs in
theorem mirrors_ifStatement :
    Mirrors l (run · .ifStatement) (Parse.ifStatement expr stmt) :=
  .rule <| (mirrors_expect _ _).bind fun _ => he.bind fun _ => (mirrors_expect _ _).bind fun _ =>
    hs.bind fun _ => .choice_one (fun _ => hs.bind fun _ => mirrors_pure _) (mirrors_pure _)

include he hs in
theorem mirrors_whileStatement :
    Mirrors l (run · .whileStatement) (Parse.whileStatement expr stmt) :=
  .rule <| (mirrors_expect _ _).bind fun _ => he.bind fun _ => (mirrors_expect _ _).bind fun _ =>
    hs.bind fun _ => mirrors_pure _

theorem mirrors_untilBrace {w : Nat → Run (List α)} {q : Parse (List α)} (h : Mirrors l w q) :
    Mirrors l
      (fun depth => check (.punct .rightBrace) >>= fun b => atEnd >>= fun b' =>
        if (b || b') = true then pure [] else w depth)
      (Parse.check (.punct .rightBrace) >>= fun b => Parse.atEnd >>= fun b' =>
        if (b || b') = true then pure [] else q) := by
  refine (mirrors_check _).bind fun b => mirrors_atEnd.bind fun b' => ?_
  split
  · exact mirrors_pure []
  · exact h

include hd in
theorem mirrors_declarations (n : Nat) :
    Mirrors l (run · .declarations) (Parse.declarations decl n) := by
  induction n with
  | zero => exact mirrors_exhausted
  | succ n ih =>
    rw [Parse.declarations]
    exact .rule <| mirrors_untilBrace <| hd.bind fun
      | some s => ih.bind fun _ => mirrors_pure _
      | none => ih

include hd in
theorem mirrors_block : Mirrors l (run · .block) (Parse.block fuel decl) :=
  .rule <| (mirrors_declarations hd fuel).bind fun _ => (mirrors_expect _ _).bind fun _ =>
    mirrors_pure _

include he hs hd in
theorem mirrors_statementRule :
    Mirrors l (run · .statement) (Parse.statementRule fuel expr stmt decl) := by
  intro c p h
  rw [Parse.statementRule]
  apply MirrorsAt.rule
  apply mirrorsAt_peek h
  cases hk : c.current.kind with
  | keyword k =>
    cases k with
    | forKw => exact mirrorsAt_take h hk nofun fun _ => mirrors_forStatement he hs
    | ifKw => exact mirrorsAt_take h hk nofun fun _ => mirrors_ifStatement he hs
    | printKw => exact mirrorsAt_take h hk nofun fun _ => mirrors_printStatement he
    | returnKw => exact mirrorsAt_take h hk nofun fun t => mirrors_returnStatement he t
    | whileKw => exact mirrorsAt_take h hk nofun fun _ => mirrors_whileStatement he hs
    | _ => exact mirrors_expressionStatement he c p h
  | punct mark =>
    cases mark with
    | leftBrace =>
      exact mirrorsAt_take h hk nofun fun _ => (mirrors_block hd).bind fun _ => mirrors_pure _
    | _ => exact mirrors_expressionStatement he c p h
  | _ => exact mirrors_expressionStatement he c p h

theorem mirrors_parameters (n count : Nat) :
    Mirrors l (run · (.parameters count)) (Parse.parameters n count) := by
  induction n generalizing count with
  | zero => exact mirrors_exhausted
  | succ n ih =>
    rw [Parse.parameters]
    exact .rule (mirrors_limited ((mirrors_expect _ _).bind fun _ => .choice_one
      (fun _ => (ih (count + 1)).bind fun _ => mirrors_pure _) (mirrors_pure _)))

include hd in
theorem mirrors_function (what : String) :
    Mirrors l (run · (.function what)) (Parse.function fuel decl what) := by
  refine .rule ((mirrors_expect _ _).bind fun name => (mirrors_expect _ _).bind fun _ => ?_)
  have hrest (params : List Token) : Mirrors l
      (fun depth => do
        let _ ← expectMark .rightParen "after parameters"
        let _ ← expectMark .leftBrace ("before " ++ what ++ " body")
        return FunctionDecl.mk name params (← run depth .block))
      (do
        let _ ← Parse.expectMark .rightParen "after parameters"
        let _ ← Parse.expectMark .leftBrace ("before " ++ what ++ " body")
        return FunctionDecl.mk name params (← Parse.block fuel decl)) :=
    (mirrors_expect _ _).bind fun _ => (mirrors_expect _ _).bind fun _ =>
      (mirrors_block hd).bind fun _ => mirrors_pure _
  exact .test (mirrors_check _) ((mirrors_pure _).bind hrest)
    ((mirrors_parameters fuel 0).bind hrest)

include hd in
theorem mirrors_methods (n : Nat) :
    Mirrors l (run · .methods) (Parse.methods fuel decl n) := by
  induction n with
  | zero => exact mirrors_exhausted
  | succ n ih =>
    rw [Parse.methods]
    exact .rule <| mirrors_untilBrace <| (mirrors_function hd _).bind fun _ => ih.bind fun _ =>
      mirrors_pure _

theorem mirrors_superclass : Mirrors l (fun _ => superclass) Parse.superclass :=
  .choice_one (fun _ => (mirrors_expect _ _).bind fun t => (mirrors_number t).bind fun _ =>
    mirrors_pure _) (mirrors_pure none)

include hd in
theorem mirrors_classDeclaration :
    Mirrors l (run · .classDeclaration) (Parse.classDeclaration fuel decl) :=
  .rule <| (mirrors_expect _ _).bind fun _ => mirrors_superclass.bind fun _ =>
    (mirrors_expect _ _).bind fun _ => (mirrors_methods hd fuel).bind fun _ =>
    (mirrors_expect _ _).bind fun _ => mirrors_pure _

include he hs hd in
theorem mirrors_unguarded :
    Mirrors l (run · .unguarded) (Parse.declarationRule fuel expr stmt decl) := by
  intro c p h
  rw [Parse.declarationRule]
  apply MirrorsAt.rule
  apply mirrorsAt_peek h
  cases hk : c.current.kind with
  | keyword k =>
    cases k with
    | classKw => exact mirrorsAt_take h hk nofun fun _ => mirrors_classDeclaration hd
    | funKw =>
      exact mirrorsAt_take h hk nofun fun _ => (mirrors_function hd _).bind fun _ =>
        mirrors_pure _
    | varKw => exact mirrorsAt_take h hk nofun fun _ => mirrors_varDeclaration he
    | _ => exact mirrors_statementRule he hs hd c p h
  | _ => exact mirrors_statementRule he hs hd c p h

theorem mirrors_recovering {q : Parse Stmt} (hq : Mirrors l (run · .unguarded) q) :
    Mirrors l (run · .declaration) (Parse.recovering q) := by
  intro c p h
  apply MirrorsAt.rule
  have hcp := hq c p h
  unfold MirrorsAt at hcp ⊢
  rw [Parse.recovering]
  cases hc : q c with
  | ok s d =>
    rw [hc] at hcp
    obtain ⟨p', hp, hs⟩ := hcp
    exact ⟨p', .bind hp.attempt (.of_eq rfl), hs⟩
  | error e d =>
    rw [hc] at hcp
    cases e with
    | fault e =>
      obtain ⟨p', hp, hs⟩ := hcp
      obtain ⟨p'', hsync, hs'⟩ := synchronize_returns (hs.keep e)
      exact ⟨p'', .bind hp.attempt (.bind (.of_eq rfl) (.bind hsync (.of_eq rfl))), hs'⟩
    | exhausted => trivial

theorem mirrors_statement_declaration (n : Nat) :
    Mirrors l (run · .statement) (Parse.statement n) ∧
      Mirrors l (run · .declaration) (Parse.declaration n) := by
  induction n with
  | zero => exact ⟨mirrors_exhausted, fun _ _ _ => trivial⟩
  | succ n ih =>
    obtain ⟨hs, hd⟩ := ih
    have he := mirrors_expression (l := l) (n + 1)
    exact ⟨mirrors_statementRule he hs hd, mirrors_recovering (mirrors_unguarded he hs hd)⟩

end Statements

end Parser

end Treewalk
