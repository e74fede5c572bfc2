import Treewalk.Grammar.Statement
import Treewalk.Proofs.SideBySide.Tree

namespace Treewalk

inductive Wording.SameFault (w : Wording) : Diagnostic → Diagnostic → Prop
  | syntactic : w.Same t t' → w.SameFault (.syntactic fault t) (.syntactic fault t')

structure Wording.KeepsNames (w : Wording) : Prop where
  known (name : String) : w.Known name
  word (marked : Bool) (name : String) : w.word marked name = name

structure Wording.IsPlain (w : Wording) : Prop extends w.KeepsNames where
  refl (t : Token) : w.Same t t

namespace Wording.KeepsNames

variable {w : Wording} {t t' : Token}

theorem named (hw : w.KeepsNames) (h : w.Same t t') (marked : Bool) : w.Named marked t t' := by
  refine ⟨hw.known _, ?_⟩
  rw [token, hw.word]
  exact h

theorem shown (hw : w.KeepsNames) (h : w.Same t t') (marked : Bool) : w.Shown marked t t' :=
  ⟨hw.known _, hw.word _ _, h⟩

theorem same (hw : w.KeepsNames) (h : w.Named marked t t') : w.Same t t' := by
  have ht := h.same
  rwa [token, hw.word] at ht

end Wording.KeepsNames

theorem Wording.IsPlain.exact : Wording.exact.IsPlain :=
  ⟨⟨fun _ => trivial, fun _ _ => rfl⟩, fun _ => rfl⟩

structure Cursor.Alike (w : Wording) (P : Pairing) (c c' : Cursor) : Prop where
  rest : List.Forall₂ w.Same c.rest c'.rest
  eof : w.Same c.eof c'.eof
  faults : List.Forall₂ w.SameFault c.faults c'.faults
  numbers : ∀ k, ∃ d, P (c.nextId + k) (c'.nextId + k) d

namespace Cursor.Alike

variable {w : Wording} {P : Pairing} {c c' : Cursor}

theorem current (h : c.Alike w P c') : w.Same c.current c'.current := by
  obtain ⟨rest, eof, n, faults⟩ := c
  obtain ⟨rest', eof', n', faults'⟩ := c'
  cases h.rest with
  | nil => exact h.eof
  | cons ht _ => exact ht

theorem isEmpty_rest (h : c.Alike w P c') : c'.rest.isEmpty = c.rest.isEmpty := by
  obtain ⟨rest, eof, n, faults⟩ := c
  obtain ⟨rest', eof', n', faults'⟩ := c'
  cases h.rest <;> rfl

theorem fuel (h : c.Alike w P c') : c'.fuel = c.fuel := by
  rw [Cursor.fuel, Cursor.fuel, h.rest.length_eq]

theorem report (h : c.Alike w P c') (hd : w.SameFault d d') :
    (c.report d).Alike w P (c'.report d') :=
  ⟨h.rest, h.eof, List.rel_append h.faults (.cons hd .nil), h.numbers⟩

theorem resume {last last' : Token} (hl : w.Same last last') {ts ts' : List Token}
    (h : List.Forall₂ w.Same ts ts') :
    List.Forall₂ w.Same (Cursor.resume last ts) (Cursor.resume last' ts') := by
  induction h generalizing last last' with
  | nil => exact .nil
  | cons ht hts ih =>
    rw [Cursor.resume, Cursor.resume, w.kind_eq hl, w.kind_eq ht]
    split
    · exact .cons ht hts
    · exact ih ht

theorem synchronize (h : c.Alike w P c') : c.synchronize.Alike w P c'.synchronize := by
  obtain ⟨rest, eof, n, faults⟩ := c
  obtain ⟨rest', eof', n', faults'⟩ := c'
  cases h.rest with
  | nil => exact h
  | cons ht hts => exact ⟨resume ht hts, h.eof, h.faults, h.numbers⟩

end Cursor.Alike

namespace Parse

variable {α β : Type}

inductive Agrees (w : Wording) (P : Pairing) (R : α → α → Prop) :
    EStateM.Result Halt Cursor α → EStateM.Result Halt Cursor α → Prop
  | ok : R a a' → c.Alike w P c' → Agrees w P R (.ok a c) (.ok a' c')
  | fault : w.SameFault d d' → c.Alike w P c' →
      Agrees w P R (.error (.fault d) c) (.error (.fault d') c')
  | exhausted : c.Alike w P c' → Agrees w P R (.error .exhausted c) (.error .exhausted c')

def Agree (w : Wording) (P : Pairing) (R : α → α → Prop) (p p' : Parse α) : Prop :=
  ∀ c c', c.Alike w P c' → Agrees w P R (p c) (p' c')

variable {w : Wording} {P : Pairing} {R : α → α → Prop} {S : β → β → Prop}

theorem Agree.bind {p p' : Parse α} {f f' : α → Parse β} (hp : Agree w P R p p')
    (hf : ∀ a a', R a a' → Agree w P S (f a) (f' a')) :
    Agree w P S (p >>= f) (p' >>= f') := by
  intro c c' hc
  simp only [Bind.bind, EStateM.bind]
  have h := hp c c' hc
  generalize p c = r, p' c' = r' at h ⊢
  cases h with
  | ok ha hd => exact hf _ _ ha _ _ hd
  | fault hd hc => exact .fault hd hc
  | exhausted hc => exact .exhausted hc

theorem Agree.map {p p' : Parse α} {g g' : α → β} (hp : Agree w P R p p')
    (hg : ∀ a a', R a a' → S (g a) (g' a')) : Agree w P S (g <$> p) (g' <$> p') := by
  intro c c' hc
  simp only [Functor.map, EStateM.map]
  have h := hp c c' hc
  generalize p c = r, p' c' = r' at h ⊢
  cases h with
  | ok ha hd => exact .ok (hg _ _ ha) hd
  | fault hd hc => exact .fault hd hc
  | exhausted hc => exact .exhausted hc

theorem agree_pure {a a' : α} (h : R a a') : Agree w P R (pure a) (pure a') :=
  fun _ _ hc => .ok h hc

theorem agree_exhausted : Agree w P R exhausted exhausted := fun _ _ hc => .exhausted hc

theorem agree_failHere {fault : SyntaxFault} : Agree w P R (failHere fault) (failHere fault) :=
  fun _ _ hc => .fault (.syntactic hc.current) hc

theorem agree_report {fault : SyntaxFault} {t t' : Token} (h : w.Same t t') :
    Agree w P (fun _ _ => True) (report fault t) (report fault t') :=
  fun _ _ hc => .ok trivial (hc.report (.syntactic h))

theorem agree_peek : Agree w P w.Same peek peek := fun _ _ hc => .ok hc.current hc

theorem agree_take : Agree w P w.Same take take := by
  intro c c' hc
  refine .ok hc.current ⟨?_, hc.eof, hc.faults, hc.numbers⟩
  obtain ⟨rest, eof, n, faults⟩ := c
  obtain ⟨rest', eof', n', faults'⟩ := c'
  cases hc.rest with
  | nil => exact .nil
  | cons _ hts => exact hts

theorem agree_atEnd : Agree w P (fun b b' => b' = b) atEnd atEnd :=
  fun _ _ hc => .ok hc.isEmpty_rest hc

theorem agree_check {kind : TokenKind} :
    Agree w P (fun b b' => b' = b) (check kind) (check kind) := by
  intro c c' hc
  refine .ok ?_ hc
  obtain ⟨rest, eof, n, faults⟩ := c
  obtain ⟨rest', eof', n', faults'⟩ := c'
  cases hc.rest with
  | nil => rfl
  | cons ht _ => simp [w.kind_eq ht]

theorem agree_acceptIf {wanted : TokenKind → Bool} :
    Agree w P (Option.Rel w.Same) (acceptIf wanted) (acceptIf wanted) := by
  intro c c' hc
  obtain ⟨rest, eof, n, faults⟩ := c
  obtain ⟨rest', eof', n', faults'⟩ := c'
  cases hc.rest with
  | nil => exact .ok .none hc
  | cons ht hts =>
    simp only [acceptIf, w.kind_eq ht]
    split
    · exact .ok (.some ht) ⟨hts, hc.eof, hc.faults, hc.numbers⟩
    · exact .ok .none hc

theorem Agree.choice {wanted : TokenKind → Bool} {f f' : Option Token → Parse β}
    (hs : ∀ t t', w.Same t t' → Agree w P S (f (some t)) (f' (some t')))
    (hn : Agree w P S (f none) (f' none)) :
    Agree w P S (acceptIf wanted >>= f) (acceptIf wanted >>= f') := by
  refine agree_acceptIf.bind ?_
  rintro _ _ (h | _)
  · exact hs _ _ h
  · exact hn

theorem Agree.test {p p' : Parse Bool} {f f' : Bool → Parse β}
    (hp : Agree w P (fun b b' => b' = b) p p') (ht : Agree w P S (f true) (f' true))
    (hf : Agree w P S (f false) (f' false)) : Agree w P S (p >>= f) (p' >>= f') := by
  refine hp.bind fun b b' hb => ?_
  subst hb
  cases b' with
  | true => exact ht
  | false => exact hf

theorem agree_expect {kind : TokenKind} {fault : SyntaxFault} :
    Agree w P w.Same (expect kind fault) (expect kind fault) :=
  .choice (fun _ _ h => agree_pure h) agree_failHere

theorem agree_number {t t' : Token} (h : w.Same t t') :
    Agree w P (fun ref ref' => (∃ d, P ref.id ref'.id d) ∧ w.Same ref.token ref'.token)
      (number t) (number t') := by
  intro c c' hc
  refine .ok ⟨hc.numbers 0, h⟩ ⟨hc.rest, hc.eof, hc.faults, fun k => ?_⟩
  have hk := hc.numbers (k + 1)
  rwa [Nat.add_comm k 1, ← Nat.add_assoc, ← Nat.add_assoc] at hk

theorem agree_recovering {p p' : Parse α} (hp : Agree w P R p p') :
    Agree w P (Option.Rel R) (recovering p) (recovering p') := by
  intro c c' hc
  unfold recovering
  have h := hp c c' hc
  generalize p c = r, p' c' = r' at h ⊢
  cases h with
  | ok ha hd => exact .ok (.some ha) hd
  | fault hd hc => exact .ok .none (hc.report hd).synchronize
  | exhausted hc => exact .exhausted hc

section Expressions

variable (w P)

def ExprPair (e e' : Expr) : Prop := ∀ marks, e.Alike w P marks e'

def ExprsPair (es es' : List Expr) : Prop := ∀ marks, Expr.AlikeAll w P marks es es'

variable {w P}

theorem alikeOption_of_rel (h : Option.Rel (ExprPair w P) e e') (marks : List Bool) :
    Expr.AlikeOption w P marks e e' := by
  cases h with
  | none => exact .none
  | some h => exact .some (h marks)

theorem occurs_of_number (hw : w.KeepsNames)
    (h : (∃ d, P ref.id ref'.id d) ∧ w.Same ref.token ref'.token) (marks : List Bool) :
    w.Occurs P marks ref ref' := by
  obtain ⟨⟨d, hd⟩, ht⟩ := h
  exact ⟨d, hd, hw.named ht _⟩

variable {fuel : Nat} {nested nested' : Parse Expr} (hw : w.KeepsNames)
  (hn : Agree w P (ExprPair w P) nested nested')
include hw hn

theorem agree_primary : Agree w P (ExprPair w P) (primary nested) (primary nested') := by
  refine agree_peek.bind fun t t' ht => ?_
  rw [w.kind_eq ht]
  split
  · exact agree_take.bind fun _ _ _ => agree_pure fun _ => .literal
  · exact agree_take.bind fun _ _ _ => agree_pure fun _ => .literal
  · exact agree_take.bind fun _ _ _ => agree_pure fun _ => .literal
  · exact agree_take.bind fun _ _ _ => agree_pure fun _ => .literal
  · exact agree_take.bind fun _ _ _ => agree_pure fun _ => .literal
  · exact agree_take.bind fun _ _ ht => (agree_number ht).bind fun _ _ h =>
      agree_pure fun marks => .name (occurs_of_number hw h marks)
  · exact agree_take.bind fun _ _ ht => (agree_number ht).bind fun _ _ h =>
      agree_pure fun marks => .receiver (occurs_of_number hw h marks)
  · refine agree_take.bind fun _ _ ht => agree_expect.bind fun _ _ _ => agree_expect.bind
      fun _ _ hm => (agree_number ht).bind fun _ _ h => agree_pure fun marks => ?_
    obtain ⟨⟨d, hd⟩, hk⟩ := h
    exact .inherited hd hk hm
  · exact agree_take.bind fun _ _ _ => hn.bind fun _ _ he => agree_expect.bind fun _ _ _ =>
      agree_pure fun marks => .group (he marks)
  · exact agree_failHere

omit hw in
theorem agree_arguments (m count : Nat) :
    Agree w P (ExprsPair w P) (arguments nested m count) (arguments nested' m count) := by
  induction m generalizing count with
  | zero => exact agree_exhausted
  | succ m ih =>
    rw [arguments, arguments]
    split
    -- Too many arguments are reported, and the rest of the list is read all the same.
    on_goal 1 => refine agree_peek.bind fun _ _ ht => (agree_report ht).bind fun _ _ _ => ?_
    all_goals
      exact hn.bind fun _ _ he => .choice
        (fun _ _ _ => (ih (count + 1)).bind fun _ _ hes =>
          agree_pure fun marks => .cons (he marks) (hes marks))
        (agree_pure fun marks => .cons (he marks) .nil)

omit hw in
theorem agree_callTail (hc : ExprPair w P callee callee') :
    Agree w P (ExprPair w P) (callTail fuel nested callee) (callTail fuel nested' callee') := by
  have hrest {args args' : List Expr} (ha : ExprsPair w P args args') : Agree w P (ExprPair w P)
      (do let paren ← expectMark .rightParen "after arguments"; return .call callee paren args)
      (do let paren ← expectMark .rightParen "after arguments"; return .call callee' paren args') :=
    agree_expect.bind fun _ _ hp => agree_pure fun marks => .call (hc marks) hp (ha marks)
  exact .test agree_check ((agree_pure fun _ => .nil).bind fun _ _ ha => hrest ha)
    ((agree_arguments hn fuel 0).bind fun _ _ ha => hrest ha)

omit hw in
theorem agree_suffixes (n : Nat) (he : ExprPair w P e e') :
    Agree w P (ExprPair w P) (suffixes fuel nested n e) (suffixes fuel nested' n e') := by
  induction n generalizing e e' with
  | zero => exact agree_exhausted
  | succ n ih =>
    refine .choice (fun _ _ _ => (agree_callTail hn he).bind fun _ _ hcall => ih hcall) ?_
    refine .choice (fun _ _ _ => agree_expect.bind fun _ _ hname => ih ?_) (agree_pure he)
    exact fun marks => .get (he marks) hname

theorem agree_call : Agree w P (ExprPair w P) (call fuel nested) (call fuel nested') :=
  (agree_primary hw hn).bind fun _ _ he => agree_suffixes hn fuel he

omit hw hn in
theorem agree_unaryOperators (n : Nat) :
    Agree w P (List.Forall₂ w.Same) (unaryOperators n) (unaryOperators n) := by
  induction n with
  | zero => exact agree_exhausted
  | succ n ih =>
    exact .choice (fun _ _ hop => ih.bind fun _ _ hops => agree_pure (.cons hop hops))
      (agree_pure .nil)

theorem agree_unary : Agree w P (ExprPair w P) (unary fuel nested) (unary fuel nested') := by
  refine (agree_unaryOperators fuel).bind fun ops ops' hops =>
    (agree_call hw hn).bind fun e e' he => agree_pure ?_
  induction hops with
  | nil => exact he
  | cons hop _ ih => exact fun marks => .unary hop (ih marks)

omit hw hn in
theorem agree_leftAssoc {operand operand' : Parse Expr} {ops : List TokenKind}
    {node : Expr → Token → Expr → Expr} (ho : Agree w P (ExprPair w P) operand operand')
    (hnode : ∀ {l l' op op' r r'}, ExprPair w P l l' → w.Same op op' → ExprPair w P r r' →
      ExprPair w P (node l op r) (node l' op' r')) :
    Agree w P (ExprPair w P) (leftAssoc fuel ops node operand)
      (leftAssoc fuel ops node operand') := by
  have hmore (n : Nat) {l l' : Expr} (hl : ExprPair w P l l') : Agree w P (ExprPair w P)
      (operands ops node operand n l) (operands ops node operand' n l') := by
    induction n generalizing l l' with
    | zero => exact agree_exhausted
    | succ n ih =>
      exact .choice (fun _ _ hop => ho.bind fun _ _ hr => ih (hnode hl hop hr)) (agree_pure hl)
  exact ho.bind fun _ _ hl => hmore fuel hl

theorem agree_disjunction :
    Agree w P (ExprPair w P) (disjunction fuel nested) (disjunction fuel nested') := by
  have hbinary {l l' op op' r r'} (hl : ExprPair w P l l') (hop : w.Same op op')
      (hr : ExprPair w P r r') : ExprPair w P (.binary l op r) (.binary l' op' r') :=
    fun marks => .binary (hl marks) hop (hr marks)
  have hlogical {l l' op op' r r'} (hl : ExprPair w P l l') (hop : w.Same op op')
      (hr : ExprPair w P r r') : ExprPair w P (.logical l op r) (.logical l' op' r') :=
    fun marks => .logical (hl marks) hop (hr marks)
  exact agree_leftAssoc (agree_leftAssoc (agree_leftAssoc (agree_leftAssoc (agree_leftAssoc
    (agree_leftAssoc (agree_unary hw hn) hbinary) hbinary) hbinary) hbinary) hlogical) hlogical

omit hn in
theorem agree_assignTo (ht : ExprPair w P target target') (heq : w.Same equals equals')
    (hv : ExprPair w P value value') :
    Agree w P (ExprPair w P) (assignTo target equals value) (assignTo target' equals' value') := by
  -- the shape of the target decides, and both targets have the same one
  cases ht [] with
  | name h =>
    obtain ⟨_, -, hname⟩ := h
    exact (agree_number (hw.same hname)).bind fun _ _ hr => agree_pure fun marks =>
      .assign (occurs_of_number hw hr marks) (hv marks)
  | get _ hname =>
    refine agree_pure fun marks => ?_
    cases ht marks with
    | get ho _ => exact .set ho hname (hv marks)
  | _ => exact (agree_report heq).bind fun _ _ _ => agree_pure ht

theorem agree_assignment :
    Agree w P (ExprPair w P) (assignment fuel nested) (assignment fuel nested') :=
  (agree_disjunction hw hn).bind fun _ _ ht => .choice
    (fun _ _ heq => hn.bind fun _ _ hv => agree_assignTo hw ht heq hv) (agree_pure ht)

omit hn in
theorem agree_expression (n : Nat) :
    Agree w P (ExprPair w P) (expression n) (expression n) := by
  induction n with
  | zero => exact agree_exhausted
  | succ n ih => exact agree_assignment hw ih

end Expressions

section Statements

variable (w P)

def StmtPair (s s' : Stmt) : Prop := ∀ marks, s.Alike w P marks s'

def StmtsPair (ss ss' : List Stmt) : Prop := ∀ marks, Stmt.AlikeAll w P marks ss ss'

def FunctionPair (f f' : FunctionDecl Stmt) : Prop :=
  w.Same f.name f'.name ∧ ∀ marks, Stmt.AlikeFunction w P marks f f'

def MethodsPair (ms ms' : List (FunctionDecl Stmt)) : Prop :=
  ∀ marks, Stmt.AlikeMethods w P marks ms ms'

variable {w P} {fuel : Nat} {expr expr' : Parse Expr} {stmt stmt' : Parse Stmt}
  {decl decl' : Parse (Option Stmt)} (hw : w.KeepsNames) (he : Agree w P (ExprPair w P) expr expr')
  (hs : Agree w P (StmtPair w P) stmt stmt')
  (hd : Agree w P (Option.Rel (StmtPair w P)) decl decl')

include he in
theorem agree_unlessMark {mark : Punctuator} :
    Agree w P (Option.Rel (ExprPair w P)) (unlessMark expr mark) (unlessMark expr' mark) :=
  .test agree_check (agree_pure .none) (he.bind fun _ _ h => agree_pure (.some h))

include hw he in
theorem agree_varDeclaration :
    Agree w P (StmtPair w P) (varDeclaration expr) (varDeclaration expr') := by
  refine agree_expect.bind fun name name' hname => ?_
  have hrest {init init' : Option Expr} (hi : Option.Rel (ExprPair w P) init init') :
      Agree w P (StmtPair w P)
        (do let _ ← expectMark .semicolon "after variable declaration"; return .var name init)
        (do let _ ← expectMark .semicolon "after variable declaration"; return .var name' init') :=
    agree_expect.bind fun _ _ _ => agree_pure fun marks => .var (hw.named hname _)
      (alikeOption_of_rel hi marks)
  have hsome : Agree w P (Option.Rel (ExprPair w P)) (some <$> expr) (some <$> expr') :=
    he.map fun _ _ h => .some h
  exact .choice (fun _ _ _ => hsome.bind fun _ _ hi => hrest hi)
    ((agree_pure .none).bind fun _ _ hi => hrest hi)

include he in
theorem agree_expressionStatement :
    Agree w P (StmtPair w P) (expressionStatement expr) (expressionStatement expr') :=
  he.bind fun _ _ h => agree_expect.bind fun _ _ _ => agree_pure fun marks => .expr (h marks)

include he in
theorem agree_printStatement :
    Agree w P (StmtPair w P) (printStatement expr) (printStatement expr') :=
  he.bind fun _ _ h => agree_expect.bind fun _ _ _ => agree_pure fun marks => .print (h marks)

include he in
theorem agree_returnStatement (hk : w.Same keyword keyword') :
    Agree w P (StmtPair w P) (returnStatement expr keyword) (returnStatement expr' keyword') :=
  (agree_unlessMark he).bind fun _ _ h => agree_expect.bind fun _ _ _ =>
    agree_pure fun marks => .ret hk (alikeOption_of_rel h marks)

include he hs in
theorem agree_whileStatement :
    Agree w P (StmtPair w P) (whileStatement expr stmt) (whileStatement expr' stmt') :=
  agree_expect.bind fun _ _ _ => he.bind fun _ _ hc => agree_expect.bind fun _ _ _ =>
    hs.bind fun _ _ hb => agree_pure fun marks => .loop (hc marks) (hb marks)

include he hs in
theorem agree_ifStatement :
    Agree w P (StmtPair w P) (ifStatement expr stmt) (ifStatement expr' stmt') :=
  agree_expect.bind fun _ _ _ => he.bind fun _ _ hc => agree_expect.bind fun _ _ _ =>
    hs.bind fun _ _ ht => .choice
      (fun _ _ _ => hs.bind fun _ _ hf =>
        agree_pure fun marks => .ifElse (hc marks) (ht marks) (hf marks))
      (agree_pure fun marks => .ifThen (hc marks) (ht marks))

include hw he in
theorem agree_forStart :
    Agree w P (Option.Rel (StmtPair w P)) (forStart expr) (forStart expr') :=
  .choice (fun _ _ _ => agree_pure .none) (.choice
    (fun _ _ _ => (agree_varDeclaration hw he).map fun _ _ h => .some h)
    ((agree_expressionStatement he).map fun _ _ h => .some h))

theorem stmtPair_counting (hstart : Option.Rel (StmtPair w P) start start')
    (hc : Option.Rel (ExprPair w P) condition condition')
    (hstep : Option.Rel (ExprPair w P) step step')
    (hb : StmtPair w P body body') :
    StmtPair w P (.counting start condition step body)
      (.counting start' condition' step' body') := by
  have hcond (marks : List Bool) : (condition.getD (.literal (.bool true))).Alike w P marks
      (condition'.getD (.literal (.bool true))) := by
    cases hc with
    | none => exact .literal
    | some h => exact h marks
  have hmain {round round' : Stmt} (hr : StmtPair w P round round') :
      StmtPair w P (.counting start condition none round)
        (.counting start' condition' none round') := by
    intro marks
    cases hstart with
    | none => exact .loop (hcond marks) (hr marks)
    | some h =>
      have hall : Stmt.AlikeAll w P (false :: marks) _ _ :=
        .cons (h _) (.cons (.loop (hcond _) (hr _)) .nil)
      exact .block hall
  cases hstep with
  | none => exact hmain hb
  | some h =>
    refine hmain fun marks => ?_
    have hall : Stmt.AlikeAll w P (false :: marks) _ _ := .cons (hb _) (.cons (.expr (h _)) .nil)
    exact .block hall

include hw he hs in
theorem agree_forStatement :
    Agree w P (StmtPair w P) (forStatement expr stmt) (forStatement expr' stmt') :=
  agree_expect.bind fun _ _ _ => (agree_forStart hw he).bind fun _ _ hstart =>
    (agree_unlessMark he).bind fun _ _ hc => agree_expect.bind fun _ _ _ =>
    (agree_unlessMark he).bind fun _ _ hstep => agree_expect.bind fun _ _ _ =>
    hs.bind fun _ _ hb => agree_pure (stmtPair_counting hstart hc hstep hb)

theorem Agree.unlessClosed {β : Type} {S : β → β → Prop} {p p' q q' : Parse β}
    (hp : Agree w P S p p') (hq : Agree w P S q q') :
    Agree w P S
      (do if (← check (.punct .rightBrace)) || (← atEnd) then p else q)
      (do if (← check (.punct .rightBrace)) || (← atEnd) then p' else q') :=
  .test agree_check (agree_atEnd.bind fun _ _ _ => hp) (.test agree_atEnd hp hq)

include hd in
theorem agree_declarations (n : Nat) :
    Agree w P (StmtsPair w P) (declarations decl n) (declarations decl' n) := by
  induction n with
  | zero => exact agree_exhausted
  | succ n ih =>
    refine .unlessClosed (agree_pure fun _ => .nil) (hd.bind ?_)
    rintro _ _ (h | _)
    · exact ih.bind fun _ _ hss => agree_pure fun marks => .cons (h marks) (hss marks)
    · exact ih

include hd in
theorem agree_block : Agree w P (StmtsPair w P) (block fuel decl) (block fuel decl') :=
  (agree_declarations hd fuel).bind fun _ _ h => agree_expect.bind fun _ _ _ => agree_pure h

include hw he hs hd in
theorem agree_statementRule : Agree w P (StmtPair w P) (statementRule fuel expr stmt decl)
    (statementRule fuel expr' stmt' decl') := by
  refine agree_peek.bind fun t t' ht => ?_
  rw [w.kind_eq ht]
  split
  · exact agree_take.bind fun _ _ _ => agree_forStatement hw he hs
  · exact agree_take.bind fun _ _ _ => agree_ifStatement he hs
  · exact agree_take.bind fun _ _ _ => agree_printStatement he
  · exact agree_take.bind fun _ _ hk => agree_returnStatement he hk
  · exact agree_take.bind fun _ _ _ => agree_whileStatement he hs
  · exact agree_take.bind fun _ _ _ => (agree_block hd).bind fun _ _ h =>
      agree_pure fun marks => .block (h (false :: marks))
  · exact agree_expressionStatement he

theorem agree_parameters (n count : Nat) :
    Agree w P (List.Forall₂ w.Same) (parameters n count) (parameters n count) := by
  induction n generalizing count with
  | zero => exact agree_exhausted
  | succ n ih =>
    rw [parameters]
    split
    on_goal 1 => refine agree_peek.bind fun _ _ ht => (agree_report ht).bind fun _ _ _ => ?_
    all_goals
      exact agree_expect.bind fun _ _ hname => .choice
        (fun _ _ _ => (ih (count + 1)).bind fun _ _ hs => agree_pure (.cons hname hs))
        (agree_pure (.cons hname .nil))

include hw hd in
theorem agree_function {what : String} :
    Agree w P (FunctionPair w P) (function fuel decl what) (function fuel decl' what) := by
  refine agree_expect.bind fun name name' hname => agree_expect.bind fun _ _ _ => ?_
  have hrest {params params' : List Token} (hp : List.Forall₂ w.Same params params') :
      Agree w P (FunctionPair w P)
        (do let _ ← expectMark .rightParen "after parameters"
            let _ ← expectMark .leftBrace ("before " ++ what ++ " body")
            return ⟨name, params, ← block fuel decl⟩)
        (do let _ ← expectMark .rightParen "after parameters"
            let _ ← expectMark .leftBrace ("before " ++ what ++ " body")
            return ⟨name', params', ← block fuel decl'⟩) :=
    agree_expect.bind fun _ _ _ => agree_expect.bind fun _ _ _ => (agree_block hd).bind
      fun _ _ hb => agree_pure ⟨hname, fun marks =>
        .mk hname (hp.imp fun _ _ h => hw.named h false) (hb (false :: marks))⟩
  exact .test agree_check ((agree_pure .nil).bind fun _ _ hp => hrest hp)
    ((agree_parameters fuel 0).bind fun _ _ hp => hrest hp)

include hw hd in
theorem agree_methods (n : Nat) :
    Agree w P (MethodsPair w P) (methods fuel decl n) (methods fuel decl' n) := by
  induction n with
  | zero => exact agree_exhausted
  | succ n ih =>
    exact .unlessClosed (agree_pure fun _ => .nil) ((agree_function hw hd).bind fun _ _ hm =>
      ih.bind fun _ _ hms => agree_pure fun marks => .cons (hm.2 marks) (hms marks))

include hw hd in
theorem agree_classDeclaration :
    Agree w P (StmtPair w P) (classDeclaration fuel decl) (classDeclaration fuel decl') := by
  refine agree_expect.bind fun name name' hname => ?_
  have hrest {super super' : Option Expr}
      (hc : ∀ {ms ms'}, MethodsPair w P ms ms' →
        StmtPair w P (.classDecl name super ms) (.classDecl name' super' ms')) :
      Agree w P (StmtPair w P)
        (do let _ ← expectMark .leftBrace "before class body"
            let body ← methods fuel decl fuel
            let _ ← expectMark .rightBrace "after class body"
            return .classDecl name super body)
        (do let _ ← expectMark .leftBrace "before class body"
            let body ← methods fuel decl' fuel
            let _ ← expectMark .rightBrace "after class body"
            return .classDecl name' super' body) :=
    agree_expect.bind fun _ _ _ => (agree_methods hw hd fuel).bind fun _ _ hm =>
      agree_expect.bind fun _ _ _ => agree_pure (hc hm)
  have hsuper : Agree w P (fun super super' => ∀ {ms ms'}, MethodsPair w P ms ms' →
      StmtPair w P (.classDecl name super ms) (.classDecl name' super' ms'))
      superclass superclass :=
    .choice
      (fun _ _ _ => agree_expect.bind fun _ _ ht => (agree_number ht).bind fun _ _ h =>
        agree_pure fun hms marks =>
          .derived (hw.shown hname _) (occurs_of_number hw h marks) (hms _))
      (agree_pure fun hms marks => .base (hw.shown hname _) (hms _))
  exact hsuper.bind fun _ _ hc => hrest hc

include hw he hs hd in
theorem agree_declarationRule : Agree w P (StmtPair w P) (declarationRule fuel expr stmt decl)
    (declarationRule fuel expr' stmt' decl') := by
  refine agree_peek.bind fun t t' ht => ?_
  rw [w.kind_eq ht]
  split
  · exact agree_take.bind fun _ _ _ => agree_classDeclaration hw hd
  · exact agree_take.bind fun _ _ _ => (agree_function hw hd).bind fun _ _ hf =>
      agree_pure fun marks => .function (hw.shown hf.1 _) (hf.2 marks)
  · exact agree_take.bind fun _ _ _ => agree_varDeclaration hw he
  · exact agree_statementRule hw he hs hd

include hw in
theorem agree_statement_declaration (n : Nat) :
    Agree w P (StmtPair w P) (statement n) (statement n) ∧
      Agree w P (Option.Rel (StmtPair w P)) (declaration n) (declaration n) := by
  induction n with
  | zero => exact ⟨agree_exhausted, agree_exhausted⟩
  | succ n ih =>
    have he := agree_expression (P := P) hw (n + 1)
    exact ⟨agree_statementRule hw he ih.1 ih.2,
      agree_recovering (agree_declarationRule hw he ih.1 ih.2)⟩

include hw in
theorem agree_program (n : Nat) :
    Agree w P (StmtsPair w P) (program n) (program n) := by
  induction n with
  | zero => exact agree_exhausted
  | succ n ih =>
    intro c c' hc
    rw [program, program, hc.isEmpty_rest, hc.fuel]
    split
    · exact .ok (fun _ => .nil) hc
    · have h := (agree_statement_declaration hw c.fuel).2 c c' hc
      generalize declaration c.fuel c = r, declaration c.fuel c' = r' at h ⊢
      cases h with
      | fault hd hc => exact .fault hd hc
      | exhausted hc => exact .exhausted hc
      | @ok s s' d d' hs hd =>
        have hrest := ih d d' hd
        dsimp only
        generalize program n d = r, program n d' = r' at hrest ⊢
        cases hrest with
        | fault hd hc => exact .fault hd hc
        | exhausted hc => exact .exhausted hc
        | ok hss hc =>
          refine .ok (fun marks => ?_) hc
          cases hs with
          | none => exact hss marks
          | some h => exact .cons (h marks) (hss marks)

end Statements

end Parse

theorem Cursor.alike_program {w : Wording} {P : Pairing} (hw : w.KeepsNames) {c c' : Cursor}
    (hc : c.Alike w P c') :
    (∀ marks, Stmt.AlikeAll w P marks c.program.1 c'.program.1) ∧
      c.program.2.Alike w P c'.program.2 := by
  have h := Parse.agree_program (P := P) hw c.fuel c c' hc
  unfold Cursor.program
  rw [hc.fuel]
  generalize Parse.program c.fuel c = r, Parse.program c.fuel c' = r' at h ⊢
  cases h with
  | ok hs hc => exact ⟨hs, hc⟩
  | fault _ hc => exact ⟨fun _ => .nil, hc⟩
  | exhausted hc => exact ⟨fun _ => .nil, hc⟩

theorem Cursor.alike_expression {w : Wording} {P : Pairing} (hw : w.KeepsNames) {c c' : Cursor}
    (hc : c.Alike w P c') :
    Option.Rel (Parse.ExprPair w P) c.expression.1 c'.expression.1 ∧
      c.expression.2.Alike w P c'.expression.2 := by
  have hwhole : Parse.Agree w P (Parse.ExprPair w P)
      (do let e ← Parse.expression c.fuel
          if ← Parse.atEnd then return e else Parse.failHere .expectedEnd)
      (do let e ← Parse.expression c.fuel
          if ← Parse.atEnd then return e else Parse.failHere .expectedEnd) :=
    (Parse.agree_expression hw c.fuel).bind fun _ _ he =>
      .test Parse.agree_atEnd (Parse.agree_pure he) Parse.agree_failHere
  have h := hwhole c c' hc
  unfold Cursor.expression
  rw [hc.fuel]
  dsimp only
  generalize (do
    let e ← Parse.expression c.fuel
    if ← Parse.atEnd then return e else Parse.failHere .expectedEnd : Parse Expr) = whole at h ⊢
  generalize whole c = r, whole c' = r' at h ⊢
  cases h with
  | ok he hc => exact ⟨.some he, hc⟩
  | fault hd hc => exact ⟨.none, hc.report hd⟩
  | exhausted hc => exact ⟨.none, hc⟩

end Treewalk
