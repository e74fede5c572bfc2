import Mathlib.Data.List.Forall2
import Treewalk.Proofs.Scoping.Shape

/-!
Two programs side by side: trees of one shape, whose tokens stand for the same and whose occurrences
are paired. In scopes that are marked the second program may call a variable by another name.
-/

namespace Treewalk

/-- How the second of two programs is written. -/
structure Wording where
  /-- Tokens that stand for the same. -/
  Same : Token → Token → Prop
  /-- The names of the first program. -/
  Known : String → Prop
  /-- What a name is called in a scope that is marked, and in one that is not. -/
  word : Bool → String → String
  kind_eq : Same t t' → t'.kind = t.kind
  lexeme_eq : Same t t' → t'.lexeme = t.lexeme
  word_false (name : String) : word false name = name
  word_inj : Known a → Known b → word marked a = word marked b → a = b
  known_keyword (k : Keyword) : Known k.spelling
  word_keyword (marked : Bool) (k : Keyword) : word marked k.spelling = k.spelling

/-- Occurrences of the first and of the second program, and how far out both are bound. -/
abbrev Pairing := Nat → Nat → Option Nat → Prop

def Pairing.Within (ids : List Nat) (P Q : Pairing) : Prop := ∀ i ∈ ids, ∀ i' d, P i i' d → Q i i' d

namespace Pairing.Within

variable {P Q : Pairing}

theorem left (h : Pairing.Within (a ++ b) P Q) : Pairing.Within a P Q :=
  fun i hi => h i (List.mem_append_left b hi)

theorem right (h : Pairing.Within (a ++ b) P Q) : Pairing.Within b P Q :=
  fun i hi => h i (List.mem_append_right a hi)

end Pairing.Within

namespace Wording

def plain (Same : Token → Token → Prop) (kind_eq : ∀ {t t'}, Same t t' → t'.kind = t.kind)
    (lexeme_eq : ∀ {t t'}, Same t t' → t'.lexeme = t.lexeme) : Wording where
  Same
  Known _ := True
  word _ name := name
  kind_eq
  lexeme_eq
  word_false _ := rfl
  word_inj _ _ h := h
  known_keyword _ := trivial
  word_keyword _ _ := rfl

def exact : Wording := plain (· = ·) (fun h => h ▸ rfl) (fun h => h ▸ rfl)

variable (w : Wording)

def token (marked : Bool) (t : Token) : Token := { t with lexeme := w.word marked t.lexeme }

/-- The name of a variable of a scope. -/
structure Named (marked : Bool) (t t' : Token) : Prop where
  known : w.Known t.lexeme
  same : w.Same (w.token marked t) t'

/-- A name that is shown and therefore never changed. -/
structure Shown (marked : Bool) (t t' : Token) : Prop where
  known : w.Known t.lexeme
  word : w.word marked t.lexeme = t.lexeme
  same : w.Same t t'

def markAt (marks : List Bool) : Option Nat → Bool
  | none => false
  | some d => marks.getD d false

def Occurs (P : Pairing) (marks : List Bool) (ref ref' : Ref) : Prop :=
  ∃ d, P ref.id ref'.id d ∧ w.Named (markAt marks d) ref.token ref'.token

variable {w} {marked : Bool} {t t' : Token}

theorem Named.lexeme_eq (h : w.Named marked t t') : t'.lexeme = w.word marked t.lexeme :=
  w.lexeme_eq h.same

theorem Shown.named (h : w.Shown marked t t') : w.Named marked t t' := by
  refine ⟨h.known, ?_⟩
  rw [token, h.word]
  exact h.same

theorem Occurs.mono {P Q : Pairing} (hPQ : Pairing.Within [ref.id] P Q)
    (h : w.Occurs P marks ref ref') : w.Occurs Q marks ref ref' := by
  obtain ⟨d, hp, hn⟩ := h
  exact ⟨d, hPQ _ (List.mem_singleton_self _) _ d hp, hn⟩

end Wording

section Alike

variable (w : Wording) (P : Pairing)

mutual

/-- Expressions side by side, among scopes with the given marks, innermost first. -/
inductive Expr.Alike (marks : List Bool) : Expr → Expr → Prop
  | literal : Expr.Alike marks (.literal v) (.literal v)
  | group : Expr.Alike marks e e' → Expr.Alike marks (.group e) (.group e')
  | unary : w.Same op op' → Expr.Alike marks e e' → Expr.Alike marks (.unary op e) (.unary op' e')
  | binary : Expr.Alike marks l l' → w.Same op op' → Expr.Alike marks r r' →
      Expr.Alike marks (.binary l op r) (.binary l' op' r')
  | logical : Expr.Alike marks l l' → w.Same op op' → Expr.Alike marks r r' →
      Expr.Alike marks (.logical l op r) (.logical l' op' r')
  | name : w.Occurs P marks ref ref' → Expr.Alike marks (.name ref) (.name ref')
  | assign : w.Occurs P marks ref ref' → Expr.Alike marks e e' →
      Expr.Alike marks (.assign ref e) (.assign ref' e')
  | call : Expr.Alike marks callee callee' → w.Same paren paren' →
      Expr.AlikeAll marks args args' →
      Expr.Alike marks (.call callee paren args) (.call callee' paren' args')
  | get : Expr.Alike marks o o' → w.Same property property' →
      Expr.Alike marks (.get o property) (.get o' property')
  | set : Expr.Alike marks o o' → w.Same property property' → Expr.Alike marks e e' →
      Expr.Alike marks (.set o property e) (.set o' property' e')
  | receiver : w.Occurs P marks ref ref' → Expr.Alike marks (.receiver ref) (.receiver ref')
  | inherited : P ref.id ref'.id d → w.Same ref.token ref'.token → w.Same method method' →
      Expr.Alike marks (.inherited ref method) (.inherited ref' method')

inductive Expr.AlikeAll (marks : List Bool) : List Expr → List Expr → Prop
  | nil : Expr.AlikeAll marks [] []
  | cons : Expr.Alike marks e e' → Expr.AlikeAll marks es es' →
      Expr.AlikeAll marks (e :: es) (e' :: es')

end

inductive Expr.AlikeOption (marks : List Bool) : Option Expr → Option Expr → Prop
  | none : Expr.AlikeOption marks none none
  | some : e.Alike w P marks e' → Expr.AlikeOption marks (some e) (some e')

mutual

inductive Stmt.Alike : List Bool → Stmt → Stmt → Prop
  | expr : e.Alike w P marks e' → Stmt.Alike marks (.expr e) (.expr e')
  | print : e.Alike w P marks e' → Stmt.Alike marks (.print e) (.print e')
  | var : w.Named (marks.headD false) name name' → Expr.AlikeOption w P marks init init' →
      Stmt.Alike marks (.var name init) (.var name' init')
  | block : Stmt.AlikeAll (marked :: marks) body body' →
      Stmt.Alike marks (.block body) (.block body')
  | ifThen : c.Alike w P marks c' → Stmt.Alike marks t t' →
      Stmt.Alike marks (.ifThen c t) (.ifThen c' t')
  | ifElse : c.Alike w P marks c' → Stmt.Alike marks t t' → Stmt.Alike marks e e' →
      Stmt.Alike marks (.ifElse c t e) (.ifElse c' t' e')
  | loop : c.Alike w P marks c' → Stmt.Alike marks body body' →
      Stmt.Alike marks (.loop c body) (.loop c' body')
  | function : w.Shown (marks.headD false) decl.name decl'.name →
      Stmt.AlikeFunction marks decl decl' → Stmt.Alike marks (.function decl) (.function decl')
  | ret : w.Same keyword keyword' → Expr.AlikeOption w P marks value value' →
      Stmt.Alike marks (.ret keyword value) (.ret keyword' value')
  | base : w.Shown (marks.headD false) name name' → Stmt.AlikeMethods (false :: marks) ms ms' →
      Stmt.Alike marks (.classDecl name none ms) (.classDecl name' none ms')
  | derived : w.Shown (marks.headD false) name name' → w.Occurs P marks ref ref' →
      Stmt.AlikeMethods (false :: false :: marks) ms ms' →
      Stmt.Alike marks (.classDecl name (some (.name ref)) ms)
        (.classDecl name' (some (.name ref')) ms')

inductive Stmt.AlikeAll : List Bool → List Stmt → List Stmt → Prop
  | nil : Stmt.AlikeAll marks [] []
  | cons : Stmt.Alike marks s s' → Stmt.AlikeAll marks ss ss' →
      Stmt.AlikeAll marks (s :: ss) (s' :: ss')

inductive Stmt.AlikeFunction : List Bool → FunctionDecl Stmt → FunctionDecl Stmt → Prop
  | mk : w.Same name name' → List.Forall₂ (w.Named marked) params params' →
      Stmt.AlikeAll (marked :: marks) body body' →
      Stmt.AlikeFunction marks ⟨name, params, body⟩ ⟨name', params', body'⟩

inductive Stmt.AlikeMethods : List Bool → List (FunctionDecl Stmt) → List (FunctionDecl Stmt) → Prop
  | nil : Stmt.AlikeMethods marks [] []
  | cons : Stmt.AlikeFunction marks m m' → Stmt.AlikeMethods marks ms ms' →
      Stmt.AlikeMethods marks (m :: ms) (m' :: ms')

end

end Alike

theorem Stmt.AlikeFunction.lexeme_name {w : Wording} {P : Pairing}
    (h : Stmt.AlikeFunction w P marks f f') : f'.name.lexeme = f.name.lexeme := by
  cases h with
  | mk hn _ _ => exact w.lexeme_eq hn

theorem Stmt.AlikeFunction.length_params {w : Wording} {P : Pairing}
    (h : Stmt.AlikeFunction w P marks f f') : f'.params.length = f.params.length := by
  cases h with
  | mk _ hp _ => exact hp.length_eq.symm

theorem Expr.AlikeOption.isSome_eq {w : Wording} {P : Pairing}
    (h : Expr.AlikeOption w P marks e e') : e'.isSome = e.isSome := by
  cases h <;> rfl

section Mono

variable {w : Wording} {P Q : Pairing}

mutual

theorem Expr.Alike.mono : {e e' : Expr} → Pairing.Within e.refs P Q → e.Alike w P marks e' →
    e.Alike w Q marks e'
  | _, _, _, .literal => .literal
  | _, _, h, .group he => .group (Expr.Alike.mono h he)
  | _, _, h, .unary hop he => .unary hop (Expr.Alike.mono h he)
  | _, _, h, .binary hl hop hr =>
    .binary (Expr.Alike.mono h.left hl) hop (Expr.Alike.mono h.right hr)
  | _, _, h, .logical hl hop hr =>
    .logical (Expr.Alike.mono h.left hl) hop (Expr.Alike.mono h.right hr)
  | _, _, h, .name ho => .name (ho.mono h)
  | _, _, h, .assign ho he => .assign (ho.mono h.right) (Expr.Alike.mono h.left he)
  | _, _, h, .call hc hp ha => .call (Expr.Alike.mono h.left hc) hp (Expr.AlikeAll.mono h.right ha)
  | _, _, h, .get ho hn => .get (Expr.Alike.mono h ho) hn
  | _, _, h, .set ho hn he => .set (Expr.Alike.mono h.left ho) hn (Expr.Alike.mono h.right he)
  | _, _, h, .receiver ho => .receiver (ho.mono h)
  | _, _, h, .inherited hp ht hm =>
    .inherited (h _ (List.mem_singleton_self _) _ _ hp) ht hm

theorem Expr.AlikeAll.mono : {es es' : List Expr} → Pairing.Within (Expr.refsAll es) P Q →
    Expr.AlikeAll w P marks es es' → Expr.AlikeAll w Q marks es es'
  | _, _, _, .nil => .nil
  | _, _, h, .cons he hes => .cons (Expr.Alike.mono h.left he) (Expr.AlikeAll.mono h.right hes)

end

theorem Expr.AlikeOption.mono {e e' : Option Expr} (h : Pairing.Within (Expr.refsOption e) P Q)
    (he : Expr.AlikeOption w P marks e e') : Expr.AlikeOption w Q marks e e' := by
  cases he with
  | none => exact .none
  | some he => exact .some (he.mono h)

mutual

theorem Stmt.Alike.mono : {marks : List Bool} → {s s' : Stmt} → Pairing.Within s.refs P Q →
    s.Alike w P marks s' → s.Alike w Q marks s'
  | _, _, _, h, .expr he => .expr (he.mono h)
  | _, _, _, h, .print he => .print (he.mono h)
  | _, _, _, h, .var hn hi => .var hn (hi.mono h)
  | _, _, _, h, .block hb => .block (Stmt.AlikeAll.mono h hb)
  | _, _, _, h, .ifThen hc ht => .ifThen (hc.mono h.left) (Stmt.Alike.mono h.right ht)
  | _, _, _, h, .ifElse hc ht he => .ifElse (hc.mono h.left) (Stmt.Alike.mono h.right.left ht)
      (Stmt.Alike.mono h.right.right he)
  | _, _, _, h, .loop hc hb => .loop (hc.mono h.left) (Stmt.Alike.mono h.right hb)
  | _, _, _, h, .function hn hf => .function hn (Stmt.AlikeFunction.mono h hf)
  | _, _, _, h, .ret hk hv => .ret hk (hv.mono h)
  | _, _, _, h, .base hn hms => .base hn (Stmt.AlikeMethods.mono h.right hms)
  | _, _, _, h, .derived hn ho hms =>
    .derived hn (ho.mono h.left) (Stmt.AlikeMethods.mono h.right hms)

theorem Stmt.AlikeAll.mono : {marks : List Bool} → {ss ss' : List Stmt} →
    Pairing.Within (Stmt.refsAll ss) P Q → Stmt.AlikeAll w P marks ss ss' →
    Stmt.AlikeAll w Q marks ss ss'
  | _, _, _, _, .nil => .nil
  | _, _, _, h, .cons hs hss => .cons (Stmt.Alike.mono h.left hs) (Stmt.AlikeAll.mono h.right hss)

theorem Stmt.AlikeFunction.mono : {marks : List Bool} → {f f' : FunctionDecl Stmt} →
    Pairing.Within (Stmt.refsFunction f) P Q → Stmt.AlikeFunction w P marks f f' →
    Stmt.AlikeFunction w Q marks f f'
  | _, _, _, h, .mk hn hp hb => .mk hn hp (Stmt.AlikeAll.mono h hb)

theorem Stmt.AlikeMethods.mono : {marks : List Bool} → {ms ms' : List (FunctionDecl Stmt)} →
    Pairing.Within (Stmt.refsMethods ms) P Q → Stmt.AlikeMethods w P marks ms ms' →
    Stmt.AlikeMethods w Q marks ms ms'
  | _, _, _, _, .nil => .nil
  | _, _, _, h, .cons hf hms =>
    .cons (Stmt.AlikeFunction.mono h.left hf) (Stmt.AlikeMethods.mono h.right hms)

end

end Mono

end Treewalk
