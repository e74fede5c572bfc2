import Treewalk.Proofs.Printing.Expressions

namespace Treewalk

def Token.ofWord? : Term → Option Token
  | .word w => some (.ofText w)
  | .list _ => none

mutual

def Stmt.ofTerm : Term → Option Stmt
  | .list (.word head :: parts) =>
    match (Token.ofText head).kind, parts with
    | .punct .semicolon, [e] => return .expr (← Expr.ofTerm e)
    | .keyword .printKw, [e] => return .print (← Expr.ofTerm e)
    | .keyword .varKw, [.word x] => return .var (.ofText x) none
    | .keyword .varKw, [.word x, e] => return .var (.ofText x) (some (← Expr.ofTerm e))
    | .identifier, body => return .block (← Stmt.ofTerms body)
    | .keyword .ifKw, [c, t] => return .ifThen (← Expr.ofTerm c) (← Stmt.ofTerm t)
    | .keyword .ifKw, [c, t, e] =>
      return .ifElse (← Expr.ofTerm c) (← Stmt.ofTerm t) (← Stmt.ofTerm e)
    | .keyword .whileKw, [c, body] => return .loop (← Expr.ofTerm c) (← Stmt.ofTerm body)
    | .keyword .funKw, .word name :: .list params :: body =>
      return .function ⟨.ofText name, params.filterMap Token.ofWord?, ← Stmt.ofTerms body⟩
    | .keyword .returnKw, [] => return .ret (.ofText head) none
    | .keyword .returnKw, [e] => return .ret (.ofText head) (some (← Expr.ofTerm e))
    | .keyword .classKw, .word name :: .word _ :: s :: methods =>
      return .classDecl (.ofText name) (some (← Expr.ofTerm s)) (← Stmt.ofMethods methods)
    | .keyword .classKw, .word name :: methods =>
      return .classDecl (.ofText name) none (← Stmt.ofMethods methods)
    | _, _ => none
  | _ => none

def Stmt.ofTerms : List Term → Option (List Stmt)
  | [] => some []
  | t :: ts => do return (← Stmt.ofTerm t) :: (← Stmt.ofTerms ts)

def Stmt.ofMethods : List Term → Option (List (FunctionDecl Stmt))
  | [] => some []
  | .list (_ :: .word name :: .list params :: body) :: ms => do
    return ⟨.ofText name, params.filterMap Token.ofWord?, ← Stmt.ofTerms body⟩ ::
      (← Stmt.ofMethods ms)
  | _ => none

end

attribute [simp] Stmt.ofTerm Stmt.ofTerms Stmt.ofMethods

namespace Stmt

theorem legible_block : Token.Legible ⟨.identifier, "block", 0⟩ :=
  ⟨'b', ['l', 'o', 'c', 'k'], rfl, rfl⟩

theorem legible_method : Token.Legible ⟨.identifier, "method", 0⟩ :=
  ⟨'m', ['e', 't', 'h', 'o', 'd'], rfl, rfl⟩

end Stmt

def Stmt.Readable (s : Stmt) : Prop :=
  (∀ v ∈ s.literals, v.isPlain) → s.term.Clean ∧ Stmt.ofTerm s.term = some s.unplaced

def Stmt.ReadableAll (ss : List Stmt) : Prop :=
  (∀ v ∈ Stmt.literalsAll ss, v.isPlain) →
    Term.CleanAll (Stmt.terms ss) ∧ Stmt.ofTerms (Stmt.terms ss) = some (Stmt.unplacedAll ss)

structure FunctionDecl.Readable (decl : FunctionDecl Stmt) : Prop where
  name : decl.name.Legible ∧ decl.name.kind = .identifier
  params : ∀ p ∈ decl.params, p.Legible ∧ p.kind = .identifier
  body : Stmt.ReadableAll decl.body

def Stmt.ReadableMethods (ms : List (FunctionDecl Stmt)) : Prop :=
  (∀ v ∈ Stmt.literalsMethods ms, v.isPlain) → Term.CleanAll (Stmt.termsMethods ms) ∧
    Stmt.ofMethods (Stmt.termsMethods ms) = some (Stmt.unplacedMethods ms)

variable {s t b : Stmt} {ss : List Stmt} {e c : Expr} {v : Option Expr} {x keyword : Token}

namespace Stmt.Readable

theorem expr (he : e.Readable) : (Stmt.expr e).Readable := by
  intro hplain
  obtain ⟨hclean, hterm⟩ := he hplain
  refine ⟨⟨Term.isWord_mark rfl, hclean, trivial⟩, ?_⟩
  simp only [term, ofTerm, Token.ofText_mark, hterm]
  rfl

theorem print (he : e.Readable) : (Stmt.print e).Readable := by
  intro hplain
  obtain ⟨hclean, hterm⟩ := he hplain
  refine ⟨⟨Term.isWord_keyword .printKw, hclean, trivial⟩, ?_⟩
  simp only [term, ofTerm, Token.ofText_keyword, hterm]
  rfl

theorem var (hx : x.Legible) (hk : x.kind = .identifier) (hv : ∀ e ∈ v, e.Readable) :
    (Stmt.var x v).Readable := by
  intro hplain
  have hvar := Term.isWord_keyword .varKw
  cases v with
  | none =>
    refine ⟨⟨hvar, hx.isWord_name hk, trivial⟩, ?_⟩
    simp only [term, Expr.termsOption, ofTerm, Token.ofText_keyword, hx.ofText]
    rfl
  | some e =>
    obtain ⟨hclean, hterm⟩ := hv e rfl hplain
    refine ⟨⟨hvar, hx.isWord_name hk, hclean, trivial⟩, ?_⟩
    simp only [term, Expr.termsOption, ofTerm, Token.ofText_keyword, hx.ofText, hterm]
    rfl

theorem ret (hkeyword : keyword.Legible) (hk : keyword.kind = .keyword .returnKw)
    (hv : ∀ e ∈ v, e.Readable) : (Stmt.ret keyword v).Readable := by
  intro hplain
  have hreturn := Term.isWord_keyword .returnKw
  have htext := hkeyword.ofText
  rw [hkeyword.keyword hk] at htext
  cases v with
  | none =>
    refine ⟨⟨hreturn, trivial⟩, ?_⟩
    simp only [term, Expr.termsOption, ofTerm, Token.ofText_keyword]
    rw [unplaced, ← htext, Token.ofText_keyword]
    rfl
  | some e =>
    obtain ⟨hclean, hterm⟩ := hv e rfl hplain
    refine ⟨⟨hreturn, hclean, trivial⟩, ?_⟩
    simp only [term, Expr.termsOption, ofTerm, Token.ofText_keyword, hterm]
    rw [unplaced, ← htext, Token.ofText_keyword]
    rfl

theorem ifThen (hc : c.Readable) (ht : t.Readable) : (Stmt.ifThen c t).Readable := by
  intro hplain
  rw [literals, List.forall_mem_append] at hplain
  obtain ⟨hclean, hterm⟩ := hc hplain.1
  obtain ⟨hclean', hterm'⟩ := ht hplain.2
  refine ⟨⟨Term.isWord_keyword .ifKw, hclean, hclean', trivial⟩, ?_⟩
  simp only [term, ofTerm, Token.ofText_keyword, hterm, hterm']
  rfl

theorem ifElse (hc : c.Readable) (ht : t.Readable) (hb : b.Readable) :
    (Stmt.ifElse c t b).Readable := by
  intro hplain
  rw [literals, List.forall_mem_append, List.forall_mem_append] at hplain
  obtain ⟨hclean, hterm⟩ := hc hplain.1
  obtain ⟨hclean₁, hterm₁⟩ := ht hplain.2.1
  obtain ⟨hclean₂, hterm₂⟩ := hb hplain.2.2
  refine ⟨⟨Term.isWord_keyword .ifKw, hclean, hclean₁, hclean₂, trivial⟩, ?_⟩
  simp only [term, ofTerm, Token.ofText_keyword, hterm, hterm₁, hterm₂]
  rfl

theorem loop (hc : c.Readable) (hb : b.Readable) : (Stmt.loop c b).Readable := by
  intro hplain
  rw [literals, List.forall_mem_append] at hplain
  obtain ⟨hclean, hterm⟩ := hc hplain.1
  obtain ⟨hclean', hterm'⟩ := hb hplain.2
  refine ⟨⟨Term.isWord_keyword .whileKw, hclean, hclean', trivial⟩, ?_⟩
  simp only [term, ofTerm, Token.ofText_keyword, hterm, hterm']
  rfl

theorem block (hb : ReadableAll ss) : (Stmt.block ss).Readable := by
  intro hplain
  obtain ⟨hclean, hterms⟩ := hb hplain
  refine ⟨⟨legible_block.isWord rfl, hclean⟩, ?_⟩
  simp only [term, ofTerm, legible_block.ofText, Token.unplaced, hterms]
  rfl

end Stmt.Readable

namespace Stmt

theorem readableAll_nil : ReadableAll [] := fun _ => ⟨trivial, rfl⟩

theorem readableAll_cons (hs : s.Readable) (hss : ReadableAll ss) : ReadableAll (s :: ss) := by
  intro hplain
  rw [literalsAll, List.forall_mem_append] at hplain
  obtain ⟨hclean, hterm⟩ := hs hplain.1
  obtain ⟨hclean', hterms⟩ := hss hplain.2
  exact ⟨⟨hclean, hclean'⟩, by rw [terms, ofTerms, hterm, hterms]; rfl⟩

end Stmt

theorem Token.filterMap_ofWord? {params : List Token} (h : ∀ p ∈ params, p.Legible) :
    ((params.map Token.lexeme).map Term.word).filterMap ofWord? = params.map unplaced := by
  induction params with
  | nil => rfl
  | cons p params ih =>
    rw [List.forall_mem_cons] at h
    have hp : ofWord? (.word p.lexeme) = some p.unplaced := congrArg some h.1.ofText
    rw [List.map_cons, List.map_cons, List.filterMap_cons_some hp, ih h.2]
    rfl

namespace FunctionDecl.Readable

variable {decl : FunctionDecl Stmt} {ms : List (FunctionDecl Stmt)}

theorem clean (h : decl.Readable) (hplain : ∀ v ∈ Stmt.literalsFunction decl, v.isPlain)
    {head : String} (hhead : Term.IsWord head) : (Stmt.termFunction (.word head) decl).Clean := by
  obtain ⟨name, params, body⟩ := decl
  refine ⟨hhead, h.name.1.isWord_name h.name.2, Term.cleanAll_words fun w hw => ?_,
    (h.body hplain).1⟩
  obtain ⟨p, hp, rfl⟩ := List.mem_map.mp hw
  obtain ⟨hlegible, hkind⟩ := h.params p hp
  exact hlegible.isWord_name hkind

theorem function (h : decl.Readable) : (Stmt.function decl).Readable := by
  intro hplain
  refine ⟨h.clean hplain (Term.isWord_keyword .funKw), ?_⟩
  obtain ⟨name, params, body⟩ := decl
  simp only [Stmt.term, Stmt.termFunction, Stmt.ofTerm, Token.ofText_keyword, h.name.1.ofText,
    Token.filterMap_ofWord? fun p hp => (h.params p hp).1, (h.body hplain).2]
  rfl

theorem cons (h : decl.Readable) (hms : Stmt.ReadableMethods ms) :
    Stmt.ReadableMethods (decl :: ms) := by
  intro hplain
  rw [Stmt.literalsMethods, List.forall_mem_append] at hplain
  obtain ⟨hclean, hterms⟩ := hms hplain.2
  refine ⟨⟨h.clean hplain.1 (Stmt.legible_method.isWord rfl), hclean⟩, ?_⟩
  obtain ⟨name, params, body⟩ := decl
  simp only [Stmt.termsMethods, Stmt.termFunction, Stmt.ofMethods, h.name.1.ofText, hterms,
    Token.filterMap_ofWord? fun p hp => (h.params p hp).1, (h.body hplain.1).2]
  rfl

end FunctionDecl.Readable

theorem Stmt.readableMethods_nil : Stmt.ReadableMethods [] := fun _ => ⟨trivial, rfl⟩

theorem Stmt.Readable.classDecl {ms : List (FunctionDecl Stmt)} (hx : x.Legible)
    (hk : x.kind = .identifier) (hv : ∀ e ∈ v, e.Readable) (hms : Stmt.ReadableMethods ms) :
    (Stmt.classDecl x v ms).Readable := by
  intro hplain
  rw [literals, List.forall_mem_append] at hplain
  obtain ⟨hclean, hterms⟩ := hms hplain.2
  have hclass := Term.isWord_keyword .classKw
  cases v with
  | none =>
    refine ⟨⟨hclass, hx.isWord_name hk, hclean⟩, ?_⟩
    cases ms with
    | nil =>
      simp only [term, Expr.termsSuperclass, List.nil_append, termsMethods, ofTerm,
        Token.ofText_keyword, hx.ofText]
      rfl
    | cons m ms =>
      obtain ⟨name, params, body⟩ := m
      simp only [term, Expr.termsSuperclass, List.nil_append, termsMethods, termFunction, ofTerm,
        Token.ofText_keyword, hx.ofText] at hterms ⊢
      rw [hterms]
      rfl
  | some e =>
    obtain ⟨hclean', hterm⟩ := hv e rfl hplain.1
    refine ⟨⟨hclass, hx.isWord_name hk, Term.isWord_mark rfl, hclean', hclean⟩, ?_⟩
    simp only [term, Expr.termsSuperclass, List.cons_append, List.nil_append, ofTerm,
      Token.ofText_keyword, hx.ofText, hterm, hterms]
    rfl

end Treewalk
