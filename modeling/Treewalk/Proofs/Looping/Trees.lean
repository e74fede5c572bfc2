import Mathlib.Data.List.Forall2
import Treewalk.Proofs.Looping.Counting
import Treewalk.Proofs.Scoping.History

namespace Treewalk

section Renumber

variable (k : Nat)

mutual

theorem Expr.refs_renumber : (e : Expr) → (e.renumber k).refs = e.refs.map (· + k)
  | .literal _ => rfl
  | .group e | .unary _ e | .get e _ => Expr.refs_renumber e
  | .binary l _ r | .logical l _ r | .set l _ r => by
    simp [Expr.renumber, Expr.refs, Expr.refs_renumber l, Expr.refs_renumber r]
  | .name _ | .receiver _ | .inherited _ _ => rfl
  | .assign ref e => by simp [Expr.renumber, Expr.refs, Expr.refs_renumber e, Ref.renumber]
  | .call callee _ args => by
    simp [Expr.renumber, Expr.refs, Expr.refs_renumber callee, Expr.refsAll_renumber args]

theorem Expr.refsAll_renumber : (es : List Expr) →
    Expr.refsAll (Expr.renumberAll k es) = (Expr.refsAll es).map (· + k)
  | [] => rfl
  | e :: es => by
    simp [Expr.renumberAll, Expr.refsAll, Expr.refs_renumber e, Expr.refsAll_renumber es]

end

theorem Expr.refsOption_renumber (e : Option Expr) :
    Expr.refsOption (e.map (·.renumber k)) = (Expr.refsOption e).map (· + k) := by
  cases e with
  | none => rfl
  | some e => exact e.refs_renumber k

mutual

theorem Stmt.refs_renumber : (s : Stmt) → (s.renumber k).refs = s.refs.map (· + k)
  | .expr e | .print e => e.refs_renumber k
  | .var _ init | .ret _ init => Expr.refsOption_renumber k init
  | .block body => Stmt.refsAll_renumber body
  | .ifThen c t | .loop c t => by
    simp [Stmt.renumber, Stmt.refs, c.refs_renumber, Stmt.refs_renumber t]
  | .ifElse c t e => by
    simp [Stmt.renumber, Stmt.refs, c.refs_renumber, Stmt.refs_renumber t, Stmt.refs_renumber e]
  | .function decl => Stmt.refsFunction_renumber decl
  | .classDecl _ superclass ms => by
    simp [Stmt.renumber, Stmt.refs, Expr.refsOption_renumber, Stmt.refsMethods_renumber ms]

theorem Stmt.refsAll_renumber : (ss : List Stmt) →
    Stmt.refsAll (Stmt.renumberAll k ss) = (Stmt.refsAll ss).map (· + k)
  | [] => rfl
  | s :: ss => by
    simp [Stmt.renumberAll, Stmt.refsAll, Stmt.refs_renumber s, Stmt.refsAll_renumber ss]

theorem Stmt.refsFunction_renumber : (decl : FunctionDecl Stmt) →
    Stmt.refsFunction (Stmt.renumberFunction k decl) = (Stmt.refsFunction decl).map (· + k)
  | ⟨_, _, body⟩ => Stmt.refsAll_renumber body

theorem Stmt.refsMethods_renumber : (ms : List (FunctionDecl Stmt)) →
    Stmt.refsMethods (Stmt.renumberMethods k ms) = (Stmt.refsMethods ms).map (· + k)
  | [] => rfl
  | m :: ms => by
    simp [Stmt.renumberMethods, Stmt.refsMethods, Stmt.refsFunction_renumber m,
      Stmt.refsMethods_renumber ms]

end

mutual

theorem Expr.proper_renumber : (e : Expr) → e.Proper → (e.renumber k).Proper
  | .literal _, h => h
  | .group e, h | .unary _ e, h | .get e _, h => Expr.proper_renumber e h
  | .binary l _ r, h | .logical l _ r, h | .set l _ r, h =>
    ⟨Expr.proper_renumber l h.1, Expr.proper_renumber r h.2⟩
  | .name _, h | .receiver _, h | .inherited _ _, h => h
  | .assign _ e, h => ⟨h.1, Expr.proper_renumber e h.2⟩
  | .call callee _ args, h =>
    ⟨Expr.proper_renumber callee h.1, Expr.properAll_renumber args h.2⟩

theorem Expr.properAll_renumber : (es : List Expr) → Expr.ProperAll es →
    Expr.ProperAll (Expr.renumberAll k es)
  | [], h => h
  | e :: es, h => ⟨Expr.proper_renumber e h.1, Expr.properAll_renumber es h.2⟩

end

theorem Expr.properOption_renumber {e : Option Expr} (h : Expr.ProperOption e) :
    Expr.ProperOption (e.map (·.renumber k)) := by
  cases e with
  | none => trivial
  | some e => exact e.proper_renumber k h

mutual

theorem Stmt.proper_renumber : (s : Stmt) → s.Proper → (s.renumber k).Proper
  | .expr e, h | .print e, h => e.proper_renumber k h
  | .var _ _, h => ⟨h.1, Expr.properOption_renumber k h.2⟩
  | .block body, h => Stmt.properAll_renumber body h
  | .ifThen c t, h | .loop c t, h => ⟨c.proper_renumber k h.1, Stmt.proper_renumber t h.2.1,
      (Stmt.declared?_renumber k t).trans h.2.2⟩
  | .ifElse c t e, h => ⟨c.proper_renumber k h.1,
      ⟨Stmt.proper_renumber t h.2.1.1, (Stmt.declared?_renumber k t).trans h.2.1.2⟩,
      Stmt.proper_renumber e h.2.2.1, (Stmt.declared?_renumber k e).trans h.2.2.2⟩
  | .function decl, h => Stmt.properFunction_renumber decl h
  | .ret _ _, h => Expr.properOption_renumber k h
  | .classDecl _ superclass ms, h => by
    refine ⟨h.1, Expr.properOption_renumber k h.2.1, fun e he => ?_,
      Stmt.properMethods_renumber ms h.2.2.2⟩
    obtain ⟨e₀, he₀, rfl⟩ := Option.map_eq_some_iff.mp he
    obtain ⟨ref, rfl⟩ := h.2.2.1 e₀ he₀
    exact ⟨_, rfl⟩

theorem Stmt.properAll_renumber : (ss : List Stmt) → Stmt.ProperAll ss →
    Stmt.ProperAll (Stmt.renumberAll k ss)
  | [], h => h
  | s :: ss, h => ⟨Stmt.proper_renumber s h.1, Stmt.properAll_renumber ss h.2⟩

theorem Stmt.properFunction_renumber : (decl : FunctionDecl Stmt) → Stmt.ProperFunction decl →
    Stmt.ProperFunction (Stmt.renumberFunction k decl)
  | ⟨_, _, body⟩, h => ⟨h.1, h.2.1, Stmt.properAll_renumber body h.2.2⟩

theorem Stmt.properMethods_renumber : (ms : List (FunctionDecl Stmt)) → Stmt.ProperMethods ms →
    Stmt.ProperMethods (Stmt.renumberMethods k ms)
  | [], h => h
  | m :: ms, h => ⟨Stmt.properFunction_renumber m h.1, Stmt.properMethods_renumber ms h.2⟩

end

end Renumber

/-- Of the scopes around a place some are left out, which are marked, innermost first; no scope is
beyond the marks. A scope that stays is `d` scopes out, and `d'` of those that stay. -/
inductive Passes : List Bool → Nat → Nat → Prop
  | plain : Passes [] d d
  | here : Passes (false :: gaps) 0 0
  | kept : Passes gaps d d' → Passes (false :: gaps) (d + 1) (d' + 1)
  | gap : Passes gaps d d' → Passes (true :: gaps) (d + 1) d'

inductive PassesAround (gaps : List Bool) : Nat → Nat → Prop
  | zero : PassesAround gaps 0 0
  | succ : Passes gaps d d' → Passes gaps (d + 1) (d' + 1) → PassesAround gaps (d + 1) (d' + 1)

namespace Passes

variable {gaps : List Bool} {d d' : Nat}

theorem self (hg : true ∉ gaps) (d : Nat) : Passes gaps d d := by
  induction gaps generalizing d with
  | nil => exact .plain
  | cons b gaps ih =>
    cases b with
    | true => exact absurd List.mem_cons_self hg
    | false =>
      cases d with
      | zero => exact .here
      | succ d => exact .kept (ih (fun h => hg (List.mem_cons_of_mem _ h)) d)

theorem zero (h : Passes gaps 0 d) : d = 0 := by
  cases h <;> rfl

end Passes

theorem PassesAround.self (hg : true ∉ gaps) (d : Nat) : PassesAround gaps d d := by
  cases d with
  | zero => exact .zero
  | succ d => exact .succ (.self hg d) (.self hg (d + 1))

section Lifted

variable (D D' : Distances)

structure Ref.Lifted (gaps : List Bool) (ref ref' : Ref) : Prop where
  token : ref'.token = ref.token
  distance : Option.Rel (Passes gaps) D[ref.id]? D'[ref'.id]?

structure Ref.LiftedSuper (gaps : List Bool) (ref ref' : Ref) : Prop where
  token : ref'.token = ref.token
  distance : Option.Rel (PassesAround gaps) D[ref.id]? D'[ref'.id]?

mutual

inductive Expr.Lifted (gaps : List Bool) : Expr → Expr → Prop
  | literal : Expr.Lifted gaps (.literal v) (.literal v)
  | group : Expr.Lifted gaps e e' → Expr.Lifted gaps (.group e) (.group e')
  | unary : Expr.Lifted gaps e e' → Expr.Lifted gaps (.unary op e) (.unary op e')
  | binary : Expr.Lifted gaps l l' → Expr.Lifted gaps r r' →
      Expr.Lifted gaps (.binary l op r) (.binary l' op r')
  | logical : Expr.Lifted gaps l l' → Expr.Lifted gaps r r' →
      Expr.Lifted gaps (.logical l op r) (.logical l' op r')
  | name : ref.Lifted D D' gaps ref' → Expr.Lifted gaps (.name ref) (.name ref')
  | assign : ref.Lifted D D' gaps ref' → Expr.Lifted gaps e e' →
      Expr.Lifted gaps (.assign ref e) (.assign ref' e')
  | call : Expr.Lifted gaps callee callee' → Expr.LiftedAll gaps args args' →
      Expr.Lifted gaps (.call callee paren args) (.call callee' paren args')
  | get : Expr.Lifted gaps o o' → Expr.Lifted gaps (.get o property) (.get o' property)
  | set : Expr.Lifted gaps o o' → Expr.Lifted gaps e e' →
      Expr.Lifted gaps (.set o property e) (.set o' property e')
  | receiver : ref.Lifted D D' gaps ref' → Expr.Lifted gaps (.receiver ref) (.receiver ref')
  | inherited : ref.LiftedSuper D D' gaps ref' →
      Expr.Lifted gaps (.inherited ref method) (.inherited ref' method)

inductive Expr.LiftedAll (gaps : List Bool) : List Expr → List Expr → Prop
  | nil : Expr.LiftedAll gaps [] []
  | cons : Expr.Lifted gaps e e' → Expr.LiftedAll gaps es es' →
      Expr.LiftedAll gaps (e :: es) (e' :: es')

end

abbrev Expr.LiftedOption (gaps : List Bool) : Option Expr → Option Expr → Prop :=
  Option.Rel (Expr.Lifted D D' gaps)

mutual

inductive Stmt.Lifted : List Bool → Stmt → Stmt → Prop
  | expr : e.Lifted D D' gaps e' → Stmt.Lifted gaps (.expr e) (.expr e')
  | print : e.Lifted D D' gaps e' → Stmt.Lifted gaps (.print e) (.print e')
  | var : gaps.headD false = false → Expr.LiftedOption D D' gaps init init' →
      Stmt.Lifted gaps (.var name init) (.var name init')
  | block : Stmt.LiftedAll (false :: gaps) body body' → Stmt.Lifted gaps (.block body) (.block body')
  | ifThen : c.Lifted D D' gaps c' → Stmt.Lifted gaps t t' →
      Stmt.Lifted gaps (.ifThen c t) (.ifThen c' t')
  | ifElse : c.Lifted D D' gaps c' → Stmt.Lifted gaps t t' → Stmt.Lifted gaps e e' →
      Stmt.Lifted gaps (.ifElse c t e) (.ifElse c' t' e')
  | loop : c.Lifted D D' gaps c' → Stmt.Lifted gaps body body' →
      Stmt.Lifted gaps (.loop c body) (.loop c' body')
  | function : gaps.headD false = false → Stmt.LiftedFunction gaps decl decl' →
      Stmt.Lifted gaps (.function decl) (.function decl')
  | ret : Expr.LiftedOption D D' gaps value value' →
      Stmt.Lifted gaps (.ret keyword value) (.ret keyword value')
  | base : gaps.headD false = false → Stmt.LiftedMethods (false :: gaps) ms ms' →
      Stmt.Lifted gaps (.classDecl name none ms) (.classDecl name none ms')
  | derived : gaps.headD false = false → e.Lifted D D' gaps e' →
      Stmt.LiftedMethods (false :: false :: gaps) ms ms' →
      Stmt.Lifted gaps (.classDecl name (some e) ms) (.classDecl name (some e') ms')

inductive Stmt.LiftedAll : List Bool → List Stmt → List Stmt → Prop
  | nil : Stmt.LiftedAll gaps [] []
  | cons : Stmt.Lifted gaps s s' → Stmt.LiftedAll gaps ss ss' →
      Stmt.LiftedAll gaps (s :: ss) (s' :: ss')

inductive Stmt.LiftedFunction : List Bool → FunctionDecl Stmt → FunctionDecl Stmt → Prop
  | mk : Stmt.LiftedAll (false :: gaps) body body' →
      Stmt.LiftedFunction gaps ⟨name, params, body⟩ ⟨name, params, body'⟩

inductive Stmt.LiftedMethods : List Bool → List (FunctionDecl Stmt) → List (FunctionDecl Stmt) → Prop
  | nil : Stmt.LiftedMethods gaps [] []
  | cons : Stmt.LiftedFunction gaps m m' → Stmt.LiftedMethods gaps ms ms' →
      Stmt.LiftedMethods gaps (m :: ms) (m' :: ms')

end

end Lifted

section Self

variable {D D' : Distances} {gaps : List Bool} {f f' : FunctionDecl Stmt}

theorem Stmt.LiftedFunction.name_eq (h : Stmt.LiftedFunction D D' gaps f f') : f'.name = f.name := by
  cases h
  rfl

theorem Stmt.LiftedFunction.params_eq (h : Stmt.LiftedFunction D D' gaps f f') :
    f'.params = f.params := by
  cases h
  rfl

theorem Expr.Lifted.superclassToken_eq {e e' : Expr} (h : e.Lifted D D' gaps e') (name : Token) :
    Run.superclassToken name e' = Run.superclassToken name e := by
  cases h with
  | name ho => exact ho.token
  | _ => rfl

theorem headD_of_no_gap (hg : true ∉ gaps) : gaps.headD false = false := by
  cases gaps with
  | nil => rfl
  | cons b gaps =>
    cases b with
    | true => exact absurd List.mem_cons_self hg
    | false => rfl

theorem no_gap_cons (hg : true ∉ gaps) : true ∉ false :: gaps := by simpa using hg

theorem rel_self {R : Nat → Nat → Prop} {i : Nat} (hR : ∀ d, R d d) (h : D'[i]? = D[i]?) :
    Option.Rel R D[i]? D'[i]? := by
  rw [h]
  cases D[i]? with
  | none => exact .none
  | some d => exact .some (hR d)

theorem Ref.lifted_self (hg : true ∉ gaps) {ref : Ref} (h : Agree [ref.id] D D') :
    ref.Lifted D D' gaps ref :=
  ⟨rfl, rel_self (.self hg) (h _ (List.mem_singleton_self _))⟩

mutual

theorem Expr.lifted_self (hg : true ∉ gaps) : (e : Expr) → Agree e.refs D D' → e.Lifted D D' gaps e
  | .literal _, _ => .literal
  | .group e, h => .group (Expr.lifted_self hg e h)
  | .unary _ e, h => .unary (Expr.lifted_self hg e h)
  | .binary l _ r, h => .binary (Expr.lifted_self hg l h.left) (Expr.lifted_self hg r h.right)
  | .logical l _ r, h => .logical (Expr.lifted_self hg l h.left) (Expr.lifted_self hg r h.right)
  | .name _, h => .name (Ref.lifted_self hg h)
  | .assign _ e, h => .assign (Ref.lifted_self hg h.right) (Expr.lifted_self hg e h.left)
  | .call callee _ args, h =>
    .call (Expr.lifted_self hg callee h.left) (Expr.liftedAll_self hg args h.right)
  | .get o _, h => .get (Expr.lifted_self hg o h)
  | .set o _ e, h => .set (Expr.lifted_self hg o h.left) (Expr.lifted_self hg e h.right)
  | .receiver _, h => .receiver (Ref.lifted_self hg h)
  | .inherited _ _, h =>
    .inherited ⟨rfl, rel_self (.self hg) (h _ (List.mem_singleton_self _))⟩

theorem Expr.liftedAll_self (hg : true ∉ gaps) : (es : List Expr) → Agree (Expr.refsAll es) D D' →
    Expr.LiftedAll D D' gaps es es
  | [], _ => .nil
  | e :: es, h => .cons (Expr.lifted_self hg e h.left) (Expr.liftedAll_self hg es h.right)

end

theorem Expr.liftedOption_self (hg : true ∉ gaps) (e : Option Expr)
    (h : Agree (Expr.refsOption e) D D') : Expr.LiftedOption D D' gaps e e := by
  cases e with
  | none => exact .none
  | some e => exact .some (Expr.lifted_self hg e h)

mutual

theorem Stmt.lifted_self : {gaps : List Bool} → true ∉ gaps → (s : Stmt) → Agree s.refs D D' →
    s.Lifted D D' gaps s
  | _, hg, .expr e, h => .expr (Expr.lifted_self hg e h)
  | _, hg, .print e, h => .print (Expr.lifted_self hg e h)
  | _, hg, .var _ init, h => .var (headD_of_no_gap hg) (Expr.liftedOption_self hg init h)
  | _, hg, .block body, h => .block (Stmt.liftedAll_self (no_gap_cons hg) body h)
  | _, hg, .ifThen c t, h =>
    .ifThen (Expr.lifted_self hg c h.left) (Stmt.lifted_self hg t h.right)
  | _, hg, .ifElse c t e, h => .ifElse (Expr.lifted_self hg c h.left)
      (Stmt.lifted_self hg t h.right.left) (Stmt.lifted_self hg e h.right.right)
  | _, hg, .loop c body, h =>
    .loop (Expr.lifted_self hg c h.left) (Stmt.lifted_self hg body h.right)
  | _, hg, .function decl, h =>
    .function (headD_of_no_gap hg) (Stmt.liftedFunction_self hg decl h)
  | _, hg, .ret _ value, h => .ret (Expr.liftedOption_self hg value h)
  | _, hg, .classDecl _ none ms, h =>
    .base (headD_of_no_gap hg) (Stmt.liftedMethods_self (no_gap_cons hg) ms h.right)
  | _, hg, .classDecl _ (some e) ms, h => .derived (headD_of_no_gap hg)
      (Expr.lifted_self hg e h.left)
      (Stmt.liftedMethods_self (no_gap_cons (no_gap_cons hg)) ms h.right)

theorem Stmt.liftedAll_self : {gaps : List Bool} → true ∉ gaps → (ss : List Stmt) →
    Agree (Stmt.refsAll ss) D D' → Stmt.LiftedAll D D' gaps ss ss
  | _, _, [], _ => .nil
  | _, hg, s :: ss, h => .cons (Stmt.lifted_self hg s h.left) (Stmt.liftedAll_self hg ss h.right)

theorem Stmt.liftedFunction_self : {gaps : List Bool} → true ∉ gaps →
    (decl : FunctionDecl Stmt) → Agree (Stmt.refsFunction decl) D D' →
    Stmt.LiftedFunction D D' gaps decl decl
  | _, hg, ⟨_, _, body⟩, h => .mk (Stmt.liftedAll_self (no_gap_cons hg) body h)

theorem Stmt.liftedMethods_self : {gaps : List Bool} → true ∉ gaps →
    (ms : List (FunctionDecl Stmt)) → Agree (Stmt.refsMethods ms) D D' →
    Stmt.LiftedMethods D D' gaps ms ms
  | _, _, [], _ => .nil
  | _, hg, m :: ms, h =>
    .cons (Stmt.liftedFunction_self hg m h.left) (Stmt.liftedMethods_self hg ms h.right)

end

end Self

end Treewalk
