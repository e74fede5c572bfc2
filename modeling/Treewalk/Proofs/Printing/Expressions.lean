import Treewalk.Proofs.Grammar.Reading
import Treewalk.Proofs.Printing.Words

namespace Treewalk

def Expr.ofWord (t : Token) : Option Expr :=
  match t.kind with
  | .identifier => some (.name ⟨0, t⟩)
  | .keyword .thisKw => some (.receiver ⟨0, t⟩)
  | kind => (Grammar.literal? kind).map .literal

def Expr.ofParts (head : Token) (parts : List Expr) : Option Expr :=
  match head.kind, parts with
  | .identifier, callee :: args =>
    if head.lexeme = "call" then some (.call callee (.ofText Punctuator.rightParen.spelling) args)
    else some (.group callee)
  | .keyword .superKw, [.name method] => some (.inherited ⟨0, head⟩ method.token)
  | .punct .dot, [object, .name property] => some (.get object property.token)
  | .punct .equal, [.name ref, value] => some (.assign ref value)
  | .punct .equal, [.get object property, value] => some (.set object property value)
  | .punct _, [e] => some (.unary head e)
  | .punct _, [l, r] => some (.binary l head r)
  | .keyword _, [l, r] => some (.logical l head r)
  | _, _ => none

mutual

def Expr.ofTerm : Term → Option Expr
  | .word w => Expr.ofWord (.ofText w)
  | .list [] => none
  | .list (.list _ :: _) => none
  | .list (.word head :: parts) => do Expr.ofParts (.ofText head) (← Expr.ofTerms parts)

def Expr.ofTerms : List Term → Option (List Expr)
  | [] => some []
  | t :: ts => do return (← Expr.ofTerm t) :: (← Expr.ofTerms ts)

end

/-- A tree whose term has but one text, and is read back. It may hold no string, and no number that
is not finite. -/
def Expr.Readable (e : Expr) : Prop :=
  (∀ v ∈ e.literals, v.isPlain) → e.term.Clean ∧ Expr.ofTerm e.term = some e.unplaced

variable {t op paren property method : Token} {e l r callee object value : Expr}

theorem Expr.ofTerm_name (ht : t.Legible) (hk : t.kind = .identifier) :
    Expr.ofTerm (.word t.lexeme) = some (.name ⟨0, t.unplaced⟩) := by
  have hk' : t.unplaced.kind = .identifier := hk
  rw [ofTerm, ht.ofText, ofWord, hk']

theorem Expr.ofTerm_keyword (k : Keyword) (hk : k ≠ .thisKw) :
    Expr.ofTerm (.keyword k) = (Grammar.literal? (.keyword k)).map .literal := by
  rw [ofTerm, Token.ofText_keyword]
  cases k <;> first | rfl | exact absurd rfl hk

namespace Expr

theorem legible_group : Token.Legible ⟨.identifier, "group", 0⟩ :=
  ⟨'g', ['r', 'o', 'u', 'p'], rfl, rfl⟩

theorem legible_call : Token.Legible ⟨.identifier, "call", 0⟩ :=
  ⟨'c', ['a', 'l', 'l'], rfl, rfl⟩

variable {w : String} {ts : List Term} {es : List Expr} {head : Token}

theorem ofTerms_one {t : Term} (h : ofTerm t = some e) : ofTerms [t] = some [e] := by
  rw [ofTerms, ofTerms, h]
  rfl

theorem ofTerms_two {t t' : Term} (h : ofTerm t = some l) (h' : ofTerm t' = some r) :
    ofTerms [t, t'] = some [l, r] := by
  rw [ofTerms, ofTerms_one h', h]
  rfl

theorem ofTerm_list (h : ofTerms ts = some es) (hw : Token.ofText w = head) :
    ofTerm (.list (.word w :: ts)) = ofParts head es := by
  rw [ofTerm, h, hw]
  rfl

theorem ofParts_unary (h : head.kind ∈ Grammar.unaryOperators) :
    ofParts head [e] = some (.unary head e) := by
  obtain ⟨kind, text, line⟩ := head
  simp only [Grammar.unaryOperators, List.mem_cons, List.not_mem_nil, or_false] at h
  obtain rfl | rfl := h <;> rfl

theorem ofParts_node {lv : Grammar.Level} (h : head.kind ∈ lv.operators) :
    ofParts head [l, r] = some (lv.node l head r) := by
  obtain ⟨kind, text, line⟩ := head
  cases lv <;>
    simp only [Grammar.Level.operators, List.mem_cons, List.not_mem_nil, or_false] at h
  · subst h; rfl
  · subst h; rfl
  · obtain rfl | rfl := h <;> rfl
  · obtain rfl | rfl | rfl | rfl := h <;> rfl
  · obtain rfl | rfl := h <;> rfl
  · obtain rfl | rfl := h <;> rfl

theorem term_node (lv : Grammar.Level) (l : Expr) (op : Token) (r : Expr) :
    (lv.node l op r).term = .list [.word op.lexeme, l.term, r.term] := by
  cases lv <;> rw [Grammar.Level.node, term]

theorem literals_node (lv : Grammar.Level) (l : Expr) (op : Token) (r : Expr) :
    (lv.node l op r).literals = l.literals ++ r.literals := by
  cases lv <;> rw [Grammar.Level.node, literals]

theorem unplaced_node (lv : Grammar.Level) (l : Expr) (op : Token) (r : Expr) :
    (lv.node l op r).unplaced = lv.node l.unplaced op.unplaced r.unplaced := by
  cases lv <;> rfl

end Expr

theorem Grammar.isWord_of_mem_unaryOperators (h : kind ∈ Grammar.unaryOperators) : kind.isWord := by
  have hall : Grammar.unaryOperators.all TokenKind.isWord := rfl
  exact List.all_eq_true.mp hall _ h

theorem Grammar.Level.isWord_of_mem_operators {lv : Level} (h : kind ∈ lv.operators) :
    kind.isWord := by
  have hall : lv.operators.all TokenKind.isWord := by cases lv <;> rfl
  exact List.all_eq_true.mp hall _ h

namespace Expr.Readable

theorem literal (ht : t.Legible) (hv : Grammar.literal? t.kind = some v) :
    (Expr.literal v).Readable := by
  intro hplain
  have hv' := hplain v (List.mem_singleton_self v)
  have hl := ht.lexeme
  generalize t.kind = kind at hv hl
  unfold Grammar.literal? at hv
  split at hv <;> cases hv
  · exact ⟨Term.isWord_keyword .falseKw, ofTerm_keyword .falseKw nofun⟩
  · exact ⟨Term.isWord_keyword .trueKw, ofTerm_keyword .trueKw nofun⟩
  · exact ⟨Term.isWord_keyword .nilKw, ofTerm_keyword .nilKw nofun⟩
  · obtain ⟨hword, htext⟩ := Token.ofText_literal hl hv'
    exact ⟨hword, by rw [term, ofTerm, Literal.render, htext]; rfl⟩
  · cases hv'

theorem name (ht : t.Legible) (hk : t.kind = .identifier) : (Expr.name ⟨n, t⟩).Readable :=
  fun _ => ⟨ht.isWord_name hk, ofTerm_name ht hk⟩

theorem receiver (ht : t.Legible) (hk : t.kind = .keyword .thisKw) :
    (Expr.receiver ⟨n, t⟩).Readable := by
  intro _
  refine ⟨Term.isWord_keyword .thisKw, ?_⟩
  rw [term, ofTerm, ← ht.keyword hk, ht.ofText, ofWord, show t.unplaced.kind = _ from hk]
  rfl

theorem group (he : e.Readable) : (Expr.group e).Readable := by
  intro hplain
  obtain ⟨hclean, hterm⟩ := he hplain
  exact ⟨⟨legible_group.isWord rfl, hclean, trivial⟩,
    ofTerm_list (ofTerms_one hterm) legible_group.ofText⟩

theorem unary (ht : op.Legible) (hop : op.kind ∈ Grammar.unaryOperators) (he : e.Readable) :
    (Expr.unary op e).Readable := by
  intro hplain
  obtain ⟨hclean, hterm⟩ := he hplain
  exact ⟨⟨ht.isWord (Grammar.isWord_of_mem_unaryOperators hop), hclean, trivial⟩,
    (ofTerm_list (ofTerms_one hterm) ht.ofText).trans (ofParts_unary hop)⟩

theorem node {lv : Grammar.Level} (ht : op.Legible) (hop : op.kind ∈ lv.operators)
    (hl : l.Readable) (hr : r.Readable) : (lv.node l op r).Readable := by
  intro hplain
  rw [literals_node, List.forall_mem_append] at hplain
  obtain ⟨hclean, hterm⟩ := hl hplain.1
  obtain ⟨hclean', hterm'⟩ := hr hplain.2
  rw [term_node, unplaced_node]
  exact ⟨⟨ht.isWord (Grammar.Level.isWord_of_mem_operators hop), hclean, hclean', trivial⟩,
    (ofTerm_list (ofTerms_two hterm hterm') ht.ofText).trans (ofParts_node hop)⟩

theorem assign (ht : t.Legible) (hk : t.kind = .identifier) (hv : value.Readable) :
    (Expr.assign ⟨n, t⟩ value).Readable := by
  intro hplain
  obtain ⟨hclean, hterm⟩ := hv hplain
  exact ⟨⟨Term.isWord_mark rfl, ht.isWord_name hk, hclean, trivial⟩,
    ofTerm_list (ofTerms_two (ofTerm_name ht hk) hterm) (Token.ofText_mark .equal)⟩

theorem get (ho : object.Readable) (ht : property.Legible) (hk : property.kind = .identifier) :
    (Expr.get object property).Readable := by
  intro hplain
  obtain ⟨hclean, hterm⟩ := ho hplain
  exact ⟨⟨Term.isWord_mark rfl, hclean, ht.isWord_name hk, trivial⟩,
    ofTerm_list (ofTerms_two hterm (ofTerm_name ht hk)) (Token.ofText_mark .dot)⟩

theorem set (ho : object.Readable) (ht : property.Legible) (hk : property.kind = .identifier)
    (hv : value.Readable) : (Expr.set object property value).Readable := by
  intro hplain
  rw [literals, List.forall_mem_append] at hplain
  obtain ⟨hclean, hterm⟩ := get ho ht hk hplain.1
  obtain ⟨hclean', hterm'⟩ := hv hplain.2
  exact ⟨⟨Term.isWord_mark rfl, hclean, hclean', trivial⟩,
    ofTerm_list (ofTerms_two hterm hterm') (Token.ofText_mark .equal)⟩

theorem inherited (ht : t.Legible) (hk : t.kind = .keyword .superKw) (hm : method.Legible)
    (hk' : method.kind = .identifier) : (Expr.inherited ⟨n, t⟩ method).Readable := by
  intro _
  refine ⟨⟨Term.isWord_keyword .superKw, hm.isWord_name hk', trivial⟩,
    (ofTerm_list (ofTerms_one (ofTerm_name hm hk')) (Token.ofText_keyword .superKw)).trans ?_⟩
  rw [unplaced, Ref.unplaced, ← ht.ofText, ht.keyword hk, Token.ofText_keyword]
  rfl

end Expr.Readable

theorem Expr.readable_all {es : List Expr} (he : ∀ e ∈ es, e.Readable)
    (hplain : ∀ v ∈ Expr.literalsAll es, v.isPlain) :
    Term.CleanAll (Expr.terms es) ∧ Expr.ofTerms (Expr.terms es) = some (Expr.unplacedAll es) := by
  induction es with
  | nil => exact ⟨trivial, rfl⟩
  | cons e es ih =>
    rw [List.forall_mem_cons] at he
    rw [literalsAll, List.forall_mem_append] at hplain
    obtain ⟨hclean, hterm⟩ := he.1 hplain.1
    obtain ⟨hclean', hterms⟩ := ih he.2 hplain.2
    exact ⟨⟨hclean, hclean'⟩, by rw [terms, ofTerms, hterm, hterms]; rfl⟩

theorem Expr.Readable.call (hc : callee.Readable) (ht : paren.Legible)
    (hk : paren.kind = .punct .rightParen) {args : List Expr} (ha : ∀ a ∈ args, a.Readable) :
    (Expr.call callee paren args).Readable := by
  intro hplain
  have hparts : ∀ e ∈ callee :: args, e.Readable := List.forall_mem_cons.mpr ⟨hc, ha⟩
  obtain ⟨hclean, hterms⟩ := Expr.readable_all hparts hplain
  refine ⟨⟨legible_call.isWord rfl, hclean⟩, (ofTerm_list hterms legible_call.ofText).trans ?_⟩
  rw [unplaced, ← ht.ofText, ht.mark hk]
  rfl

end Treewalk
