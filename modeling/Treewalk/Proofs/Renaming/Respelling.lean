import Treewalk.Proofs.Grammar.Reading
import Treewalk.Proofs.Renaming.Wording

namespace Treewalk

def Renaming.Respells (ρ : Renaming) (t t' : Token) : Prop :=
  ∃ marked, t' = ρ.token marked t ∧
    (marked = true → t.kind = .identifier ∨ ∃ k, t.kind = .keyword k)

namespace Renaming.Respells

variable {ρ : Renaming} {t t' : Token}

theorem refl (ρ : Renaming) (t : Token) : ρ.Respells t t :=
  ⟨false, by rw [token, word_false], nofun⟩

theorem kind_eq (h : ρ.Respells t t') : t'.kind = t.kind := by
  obtain ⟨_, rfl, _⟩ := h
  rfl

theorem of_named (h : ρ.wording.Named marked t t') (hk : t.kind = .identifier) :
    ρ.Respells t t' :=
  ⟨marked, h.same.symm, fun _ => .inl hk⟩

theorem forall_kind_ne (h : List.Forall₂ ρ.Respells ts ts') (hk : ∀ t ∈ ts, t.kind ≠ kind) :
    ∀ t ∈ ts', t.kind ≠ kind := by
  induction h with
  | nil => exact hk
  | cons ht _ ih =>
    rw [List.forall_mem_cons] at hk ⊢
    exact ⟨ht.kind_eq ▸ hk.1, ih hk.2⟩

end Renaming.Respells

namespace Grammar

open Renaming

inductive Phrase.Alike (w : Wording) (P : Pairing) (marks : List Bool) : Phrase → Phrase → Prop
  | assignment : Phrase.Alike w P marks .assignment .assignment
  | level : Phrase.Alike w P marks (.level l) (.level l)
  | unary : Phrase.Alike w P marks .unary .unary
  | call : Phrase.Alike w P marks .call .call
  | primary : Phrase.Alike w P marks .primary .primary
  | operands : left.Alike w P marks left' →
      Phrase.Alike w P marks (.operands l left) (.operands l left')
  | suffixes : callee.Alike w P marks callee' →
      Phrase.Alike w P marks (.suffixes callee) (.suffixes callee')
  | arguments : callee.Alike w P marks callee' → Expr.AlikeAll w P marks before before' →
      Phrase.Alike w P marks (.arguments callee before) (.arguments callee' before')

variable {ρ : Renaming} {D : Distances} {marks : List Bool}

theorem Phrase.Alike.eq_operand {w : Wording} {P : Pairing} {l : Level}
    (h : Phrase.Alike w P marks l.operand φ) : φ = l.operand := by
  cases l <;> cases h <;> rfl

theorem Level.alike_node {l : Level}
    (h : (l.node left op right).Alike ρ.wording (.table D) marks e) :
    ∃ left' right', e = l.node left' op right' ∧ left.Alike ρ.wording (.table D) marks left' ∧
      right.Alike ρ.wording (.table D) marks right' := by
  cases l <;> cases h <;> rename_i hl ho hr <;> cases ho <;> exact ⟨_, _, rfl, hl, hr⟩

theorem alikeAll_append {w : Wording} {P : Pairing} {es fs gs : List Expr}
    (h : Expr.AlikeAll w P marks (es ++ fs) gs) :
    ∃ es' fs', gs = es' ++ fs' ∧ Expr.AlikeAll w P marks es es' ∧
      Expr.AlikeAll w P marks fs fs' ∧ es'.length = es.length := by
  induction es generalizing gs with
  | nil => exact ⟨[], gs, rfl, .nil, h, rfl⟩
  | cons e es ih =>
    cases h with
    | cons he hes =>
      obtain ⟨es', fs', rfl, hes, hfs, hl⟩ := ih hes
      exact ⟨_ :: es', fs', rfl, .cons he hes, hfs, congrArg Nat.succ hl⟩

theorem alikeAll_singleton {w : Wording} {P : Pairing} (h : Expr.AlikeAll w P marks [e] es) :
    ∃ e', es = [e'] ∧ e.Alike w P marks e' := by
  cases h with
  | cons he hes =>
    cases hes
    exact ⟨_, rfl, he⟩

theorem occurs_table {r : Ref} (h : ρ.wording.Occurs (.table D) marks ⟨n, t⟩ r) :
    ∃ marked, r = ⟨n, ρ.token marked t⟩ ∧ ρ.wording.Named marked t (ρ.token marked t) := by
  obtain ⟨i, t'⟩ := r
  obtain ⟨d, ⟨hi, -⟩, hn⟩ := h
  have ht : ρ.token _ t = t' := hn.same
  cases hi
  subst ht
  exact ⟨_, rfl, hn⟩

theorem eq_of_table {r r' : Ref} (hp : Pairing.table D r.id r'.id d)
    (ht : ρ.wording.Same r.token r'.token) : r' = r := by
  cases r
  cases r'
  cases hp.1
  cases ht
  rfl

theorem inherited_table
    (h : (Expr.inherited r method).Alike ρ.wording (.table D) marks e) :
    e = .inherited r method := by
  cases h with
  | inherited hp ht hm => rw [eq_of_table hp ht, show method = _ from hm]

theorem ReadsExpr.respell (h : ReadsExpr φ ts n e rest n₁) :
    ∀ e' rest', e.Alike ρ.wording (.table D) marks e' → List.Forall₂ ρ.Respells rest rest' →
      ∃ φ' ts', φ.Alike ρ.wording (.table D) marks φ' ∧ List.Forall₂ ρ.Respells ts ts' ∧
        ReadsExpr φ' ts' n e' rest' n₁ := by
  induction h with
  | assignName hn he _ ih =>
    intro e' rest' ha hrest
    cases ha with
    | assign ho hv =>
      obtain ⟨marked, rfl, hname⟩ := occurs_table ho
      obtain ⟨_, ts', hφ, hts, hr⟩ := ih _ _ hv hrest
      cases hφ
      exact ⟨_, _, .assignment, .cons (.of_named hname hn) (.cons (.refl ρ _) hts),
        .assignName hn he hr⟩
  | assignProperty _ hd hn he _ ih ih₁ =>
    intro e' rest' ha hrest
    cases ha with
    | set ho hp hv =>
      cases hp
      obtain ⟨_, mid', hφ, hmid, hr₁⟩ := ih₁ _ _ hv hrest
      cases hφ
      obtain ⟨_, ts', hφ, hts, hr⟩ := ih _ _ ho
        (.cons (.refl ρ _) (.cons (.refl ρ _) (.cons (.refl ρ _) hmid)))
      cases hφ
      exact ⟨_, _, .assignment, hts, .assignProperty hr hd hn he hr₁⟩
  | value _ ih =>
    intro e' rest' ha hrest
    obtain ⟨_, ts', hφ, hts, hr⟩ := ih _ _ ha hrest
    cases hφ
    exact ⟨_, _, .assignment, hts, .value hr⟩
  | level _ _ ih ih₁ =>
    intro e' rest' ha hrest
    obtain ⟨_, mid', hφ, hmid, hr₁⟩ := ih₁ _ _ ha hrest
    cases hφ with
    | operands hl =>
      obtain ⟨_, ts', hφ, hts, hr⟩ := ih _ _ hl hmid
      cases hφ.eq_operand
      exact ⟨_, _, .level, hts, .level hr hr₁⟩
  | noOperand =>
    intro e' rest' ha hrest
    exact ⟨_, _, .operands ha, hrest, .noOperand⟩
  | operand ho _ _ ih ih₁ =>
    intro e' rest' ha hrest
    obtain ⟨_, mid', hφ, hmid, hr₁⟩ := ih₁ _ _ ha hrest
    cases hφ with
    | operands hnode =>
      obtain ⟨left', right', rfl, hl, hright⟩ := Level.alike_node hnode
      obtain ⟨_, ts', hφ, hts, hr⟩ := ih _ _ hright hmid
      cases hφ.eq_operand
      exact ⟨_, _, .operands hl, .cons (.refl ρ _) hts, .operand ho hr hr₁⟩
  | operator ho _ ih =>
    intro e' rest' ha hrest
    cases ha with
    | unary hop he =>
      cases hop
      obtain ⟨_, ts', hφ, hts, hr⟩ := ih _ _ he hrest
      cases hφ
      exact ⟨_, _, .unary, .cons (.refl ρ _) hts, .operator ho hr⟩
  | noOperator _ ih =>
    intro e' rest' ha hrest
    obtain ⟨_, ts', hφ, hts, hr⟩ := ih _ _ ha hrest
    cases hφ
    exact ⟨_, _, .unary, hts, .noOperator hr⟩
  | call _ _ ih ih₁ =>
    intro e' rest' ha hrest
    obtain ⟨_, mid', hφ, hmid, hr₁⟩ := ih₁ _ _ ha hrest
    cases hφ with
    | suffixes hc =>
      obtain ⟨_, ts', hφ, hts, hr⟩ := ih _ _ hc hmid
      cases hφ
      exact ⟨_, _, .call, hts, .call hr hr₁⟩
  | noSuffix =>
    intro e' rest' ha hrest
    exact ⟨_, _, .suffixes ha, hrest, .noSuffix⟩
  | property hd hn _ ih =>
    intro e' rest' ha hrest
    obtain ⟨_, ts', hφ, hts, hr⟩ := ih _ _ ha hrest
    cases hφ with
    | suffixes hg =>
      cases hg with
      | get hc hp =>
        cases hp
        exact ⟨_, _, .suffixes hc, .cons (.refl ρ _) (.cons (.refl ρ _) hts), .property hd hn hr⟩
  | noArguments hl hr _ ih =>
    intro e' rest' ha hrest
    obtain ⟨_, ts', hφ, hts, hsuffix⟩ := ih _ _ ha hrest
    cases hφ with
    | suffixes hcall =>
      cases hcall with
      | call hc hp hargs =>
        cases hp
        cases hargs
        exact ⟨_, _, .suffixes hc, .cons (.refl ρ _) (.cons (.refl ρ _) hts),
          .noArguments hl hr hsuffix⟩
  | arguments hl _ _ ih ih₁ =>
    intro e' rest' ha hrest
    obtain ⟨_, mid', hφ, hmid, hr₁⟩ := ih₁ _ _ ha hrest
    cases hφ with
    | suffixes hcalled =>
      obtain ⟨_, ts', hφ, hts, hr⟩ := ih _ _ hcalled hmid
      cases hφ with
      | arguments hc hb =>
        cases hb
        exact ⟨_, _, .suffixes hc, .cons (.refl ρ _) hts, .arguments hl hr hr₁⟩
  | argument hb _ hcomma _ ih ih₁ =>
    intro e' rest' ha hrest
    obtain ⟨_, mid', hφ, hmid, hr₁⟩ := ih₁ _ _ ha hrest
    cases hφ with
    | arguments hc hargs =>
      obtain ⟨before', last', rfl, hbefore, hlast, hlen⟩ := alikeAll_append hargs
      obtain ⟨a', rfl, ha'⟩ := alikeAll_singleton hlast
      obtain ⟨_, ts', hφ, hts, hr⟩ := ih _ _ ha' (.cons (.refl ρ _) hmid)
      cases hφ
      exact ⟨_, _, .arguments hc hbefore, hts, .argument (hlen ▸ hb) hr hcomma hr₁⟩
  | lastArgument hb _ hright ih =>
    intro e' rest' ha hrest
    cases ha with
    | call hc hp hargs =>
      cases hp
      obtain ⟨before', last', rfl, hbefore, hlast, hlen⟩ := alikeAll_append hargs
      obtain ⟨a', rfl, ha'⟩ := alikeAll_singleton hlast
      obtain ⟨_, ts', hφ, hts, hr⟩ := ih _ _ ha' (.cons (.refl ρ _) hrest)
      cases hφ
      exact ⟨_, _, .arguments hc hbefore, hts, .lastArgument (hlen ▸ hb) hr hright⟩
  | literal hv =>
    intro e' rest' ha hrest
    cases ha
    exact ⟨_, _, .primary, .cons (.refl ρ _) hrest, .literal hv⟩
  | name ht =>
    intro e' rest' ha hrest
    cases ha with
    | name ho =>
      obtain ⟨marked, rfl, hname⟩ := occurs_table ho
      exact ⟨_, _, .primary, .cons (.of_named hname ht) hrest, .name ht⟩
  | receiver ht =>
    intro e' rest' ha hrest
    cases ha with
    | receiver ho =>
      obtain ⟨marked, rfl, hname⟩ := occurs_table ho
      exact ⟨_, _, .primary, .cons ⟨marked, rfl, fun _ => .inr ⟨_, ht⟩⟩ hrest, .receiver ht⟩
  | inherited ht hd hm =>
    intro e' rest' ha hrest
    rw [inherited_table ha]
    exact ⟨_, _, .primary, .cons (.refl ρ _) (.cons (.refl ρ _) (.cons (.refl ρ _) hrest)),
      .inherited ht hd hm⟩
  | group hl _ hr ih =>
    intro e' rest' ha hrest
    cases ha with
    | group he =>
      obtain ⟨_, ts', hφ, hts, hinner⟩ := ih _ _ he (.cons (.refl ρ _) hrest)
      cases hφ
      exact ⟨_, _, .primary, .cons (.refl ρ _) hts, .group hl hinner hr⟩

theorem ReadsExpr.respell_assignment (h : ReadsExpr .assignment ts n e rest n₁)
    (ha : e.Alike ρ.wording (.table D) marks e') (hrest : List.Forall₂ ρ.Respells rest rest') :
    ∃ ts', List.Forall₂ ρ.Respells ts ts' ∧ ReadsExpr .assignment ts' n e' rest' n₁ := by
  obtain ⟨_, ts', hφ, hts, hr⟩ := h.respell _ _ ha hrest
  cases hφ
  exact ⟨ts', hts, hr⟩

theorem ReadsOption.respell (h : ReadsOption mark ts n e rest n₁)
    (ha : Expr.AlikeOption ρ.wording (.table D) marks e e')
    (hrest : List.Forall₂ ρ.Respells rest rest') :
    ∃ ts', List.Forall₂ ρ.Respells ts ts' ∧ ReadsOption mark ts' n e' rest' n₁ := by
  cases h with
  | none hm =>
    cases ha
    exact ⟨_, .cons (.refl ρ _) hrest, .none hm⟩
  | some he hm =>
    cases ha with
    | some ha =>
      obtain ⟨ts', hts, hr⟩ := he.respell_assignment ha (.cons (.refl ρ _) hrest)
      exact ⟨ts', hts, .some hr hm⟩

theorem ReadsVariable.respell (h : ReadsVariable ts n s rest n₁)
    (ha : s.Alike ρ.wording (.table D) marks s') (hrest : List.Forall₂ ρ.Respells rest rest') :
    ∃ ts', List.Forall₂ ρ.Respells ts ts' ∧ ReadsVariable ts' n s' rest' n₁ := by
  cases h with
  | plain hn hs =>
    cases ha with
    | var hname hi =>
      cases hi
      have hname := Respells.of_named hname hn
      exact ⟨_, .cons hname (.cons (.refl ρ _) hrest), .plain (hname.kind_eq.trans hn) hs⟩
  | initialized hn he hi hs =>
    cases ha with
    | var hname hinit =>
      cases hinit with
      | some ha =>
        have hname := Respells.of_named hname hn
        obtain ⟨ts', hts, hr⟩ := hi.respell_assignment ha (.cons (.refl ρ _) hrest)
        exact ⟨_, .cons hname (.cons (.refl ρ _) hts),
          .initialized (hname.kind_eq.trans hn) he hr hs⟩

theorem ReadsStart.respell : ReadsStart ts n start rest n₁ →
    Option.Rel (Stmt.Alike ρ.wording (.table D) marks) start start' →
    List.Forall₂ ρ.Respells rest rest' →
    ∃ ts', List.Forall₂ ρ.Respells ts ts' ∧ ReadsStart ts' n start' rest' n₁
  | .none hs, ha, hrest => by
    cases ha
    exact ⟨_, .cons (.refl ρ _) hrest, .none hs⟩
  | .variable hk hv, ha, hrest => by
    cases ha with
    | some ha =>
      obtain ⟨ts', hts, hr⟩ := hv.respell ha hrest
      exact ⟨_, .cons (.refl ρ _) hts, .variable hk hr⟩
  | .expression he hs, ha, hrest => by
    cases ha with
    | some ha =>
      cases ha with
      | expr ha =>
        obtain ⟨ts', hts, hr⟩ := he.respell_assignment ha (.cons (.refl ρ _) hrest)
        exact ⟨ts', hts, .expression hr hs⟩

theorem ReadsParameters.respell (h : ReadsParameters count ts names rest)
    (hn : List.Forall₂ (ρ.wording.Named marked) names names')
    (hrest : List.Forall₂ ρ.Respells rest rest') :
    ∃ ts', List.Forall₂ ρ.Respells ts ts' ∧ ReadsParameters count ts' names' rest' := by
  induction h generalizing names' with
  | last hc hk hr =>
    cases hn with
    | cons hname hnil =>
      cases hnil
      have hname := Respells.of_named hname hk
      exact ⟨_, .cons hname (.cons (.refl ρ _) hrest), .last hc (hname.kind_eq.trans hk) hr⟩
  | more hc hk hm _ ih =>
    cases hn with
    | cons hname hnames =>
      have hname := Respells.of_named hname hk
      obtain ⟨ts', hts, hr⟩ := ih hnames hrest
      exact ⟨_, .cons hname (.cons (.refl ρ _) hts), .more hc (hname.kind_eq.trans hk) hm hr⟩

theorem ReadsSignature.respell (h : ReadsSignature ts names rest)
    (hn : List.Forall₂ (ρ.wording.Named marked) names names')
    (hrest : List.Forall₂ ρ.Respells rest rest') :
    ∃ ts', List.Forall₂ ρ.Respells ts ts' ∧ ReadsSignature ts' names' rest' := by
  cases h with
  | none hr =>
    cases hn
    exact ⟨_, .cons (.refl ρ _) hrest, .none hr⟩
  | some hp =>
    obtain ⟨ts', hts, hr⟩ := hp.respell hn hrest
    exact ⟨ts', hts, .some hr⟩

theorem ReadsSuperclass.respell (h : ReadsSuperclass ts n e rest n₁)
    (ha : Expr.AlikeOption ρ.wording (.table D) marks e e')
    (hrest : List.Forall₂ ρ.Respells rest rest') :
    ∃ ts', List.Forall₂ ρ.Respells ts ts' ∧ ReadsSuperclass ts' n e' rest' n₁ := by
  cases h with
  | none =>
    cases ha
    exact ⟨_, hrest, .none⟩
  | some hl hk =>
    cases ha with
    | some ha =>
      cases ha with
      | name ho =>
        obtain ⟨marked, rfl, hname⟩ := occurs_table ho
        exact ⟨_, .cons (.refl ρ _) (.cons (.of_named hname hk) hrest), .some hl hk⟩

theorem alike_getD {w : Wording} {P : Pairing} {e : Option Expr}
    (h : (e.getD (.literal v)).Alike w P marks e') :
    ∃ e'', e' = e''.getD (.literal v) ∧ Expr.AlikeOption w P marks e e'' := by
  cases e with
  | none =>
    cases h
    exact ⟨none, rfl, .none⟩
  | some e => exact ⟨some e', rfl, .some h⟩

theorem alike_pair {w : Wording} {P : Pairing} (h : Stmt.AlikeAll w P marks [s, t] us) :
    ∃ s' t', us = [s', t'] ∧ s.Alike w P marks s' ∧ t.Alike w P marks t' := by
  cases h with
  | cons hs h =>
    cases h with
    | cons ht h =>
      cases h
      exact ⟨_, _, rfl, hs, ht⟩

theorem alike_counting_none {w : Wording} {P : Pairing}
    (h : (Stmt.counting none condition step body).Alike w P marks s) :
    ∃ condition' step' body' inner, s = .counting none condition' step' body' ∧
      Expr.AlikeOption w P marks condition condition' ∧
      Expr.AlikeOption w P inner step step' ∧ body.Alike w P inner body' := by
  cases step with
  | none =>
    cases h with
    | loop hc hb =>
      obtain ⟨c', rfl, hcond⟩ := alike_getD hc
      exact ⟨c', none, _, marks, rfl, hcond, .none, hb⟩
  | some e =>
    cases h with
    | loop hc hb =>
      obtain ⟨c', rfl, hcond⟩ := alike_getD hc
      cases hb with
      | block hss =>
        obtain ⟨body', _, rfl, hb, hs⟩ := alike_pair hss
        cases hs with
        | expr he => exact ⟨c', some _, body', _, rfl, hcond, .some he, hb⟩

theorem alike_counting {w : Wording} {P : Pairing}
    (h : (Stmt.counting start condition step body).Alike w P marks s) :
    ∃ start' condition' step' body' outer inner, s = .counting start' condition' step' body' ∧
      Option.Rel (Stmt.Alike w P outer) start start' ∧
      Expr.AlikeOption w P outer condition condition' ∧
      Expr.AlikeOption w P inner step step' ∧ body.Alike w P inner body' := by
  cases start with
  | none =>
    obtain ⟨condition', step', body', inner, rfl, hc, hp, hb⟩ := alike_counting_none h
    exact ⟨none, condition', step', body', marks, inner, rfl, .none, hc, hp, hb⟩
  | some first =>
    cases h with
    | block hss =>
      obtain ⟨first', _, rfl, hs, hmain⟩ := alike_pair hss
      obtain ⟨condition', step', body', inner, rfl, hc, hp, hb⟩ := alike_counting_none hmain
      exact ⟨some first', condition', step', body', _, inner, rfl, .some hs, hc, hp, hb⟩

mutual

theorem ReadsStmt.respell : ReadsStmt isOpen ts n s rest n₁ → {marks : List Bool} → {s' : Stmt} →
    {rest' : List Token} → s.Alike ρ.wording (.table D) marks s' →
    List.Forall₂ ρ.Respells rest rest' →
    ∃ ts', List.Forall₂ ρ.Respells ts ts' ∧ ReadsStmt isOpen ts' n s' rest' n₁
  | .expression he hs, _, _, _, ha, hrest => by
    cases ha with
    | expr ha =>
      obtain ⟨ts', hts, hr⟩ := he.respell_assignment ha (.cons (.refl ρ _) hrest)
      exact ⟨ts', hts, .expression hr hs⟩
  | .print hk he hs, _, _, _, ha, hrest => by
    cases ha with
    | print ha =>
      obtain ⟨ts', hts, hr⟩ := he.respell_assignment ha (.cons (.refl ρ _) hrest)
      exact ⟨_, .cons (.refl ρ _) hts, .print hk hr hs⟩
  | .ret hk hv, _, _, _, ha, hrest => by
    cases ha with
    | ret hkw ha =>
      cases hkw
      obtain ⟨ts', hts, hr⟩ := hv.respell ha hrest
      exact ⟨_, .cons (.refl ρ _) hts, .ret hk hr⟩
  | .block hl hb hr, _, _, _, ha, hrest => by
    cases ha with
    | block ha =>
      obtain ⟨ts', hts, hb⟩ := ReadsDecls.respell hb ha (.cons (.refl ρ _) hrest)
      exact ⟨_, .cons (.refl ρ _) hts, .block hl hb hr⟩
  | .loop hk hl hc hr hb, _, _, _, ha, hrest => by
    cases ha with
    | loop hac hab =>
      obtain ⟨mid', hmid, hb⟩ := ReadsStmt.respell hb hab hrest
      obtain ⟨ts', hts, hc⟩ := hc.respell_assignment hac (.cons (.refl ρ _) hmid)
      exact ⟨_, .cons (.refl ρ _) (.cons (.refl ρ _) hts), .loop hk hl hc hr hb⟩
  | .counting hk hl hs hc hp hb, _, _, _, ha, hrest => by
    obtain ⟨start', condition', step', body', outer, inner, rfl, has, hac, hap, hab⟩ :=
      alike_counting ha
    obtain ⟨ts₃', hts₃, hb⟩ := ReadsStmt.respell hb hab hrest
    obtain ⟨ts₂', hts₂, hp⟩ := hp.respell hap hts₃
    obtain ⟨ts₁', hts₁, hc⟩ := hc.respell hac hts₂
    obtain ⟨ts', hts, hs⟩ := hs.respell has hts₁
    exact ⟨_, .cons (.refl ρ _) (.cons (.refl ρ _) hts), .counting hk hl hs hc hp hb⟩
  | .ifThen hk hl hc hr ht, _, _, _, ha, hrest => by
    cases ha with
    | ifThen hac hat =>
      obtain ⟨mid', hmid, ht⟩ := ReadsStmt.respell ht hat hrest
      obtain ⟨ts', hts, hc⟩ := hc.respell_assignment hac (.cons (.refl ρ _) hmid)
      exact ⟨_, .cons (.refl ρ _) (.cons (.refl ρ _) hts), .ifThen hk hl hc hr ht⟩
  | .ifElse hk hl hc hr ht ho he, _, _, _, ha, hrest => by
    cases ha with
    | ifElse hac hat hae =>
      obtain ⟨mid₁', hmid₁, he⟩ := ReadsStmt.respell he hae hrest
      obtain ⟨mid', hmid, ht⟩ := ReadsStmt.respell ht hat (.cons (.refl ρ _) hmid₁)
      obtain ⟨ts', hts, hc⟩ := hc.respell_assignment hac (.cons (.refl ρ _) hmid)
      exact ⟨_, .cons (.refl ρ _) (.cons (.refl ρ _) hts), .ifElse hk hl hc hr ht ho he⟩

theorem ReadsDecl.respell : ReadsDecl ts n s rest n₁ → {marks : List Bool} → {s' : Stmt} →
    {rest' : List Token} → s.Alike ρ.wording (.table D) marks s' →
    List.Forall₂ ρ.Respells rest rest' →
    ∃ ts', List.Forall₂ ρ.Respells ts ts' ∧ ReadsDecl ts' n s' rest' n₁
  | .classDecl hk hn hs hl hms hr, _, _, _, ha, hrest => by
    cases ha with
    | base hname ha =>
      cases hname.same
      obtain ⟨mid', hmid, hms⟩ := ReadsMethods.respell hms ha (.cons (.refl ρ _) hrest)
      cases hs
      exact ⟨_, .cons (.refl ρ _) (.cons (.refl ρ _) (.cons (.refl ρ _) hmid)),
        .classDecl hk hn .none hl hms hr⟩
    | derived hname ho ha =>
      cases hname.same
      obtain ⟨mid', hmid, hms⟩ := ReadsMethods.respell hms ha (.cons (.refl ρ _) hrest)
      obtain ⟨ts', hts, hs⟩ := hs.respell (.some (.name ho)) (.cons (.refl ρ _) hmid)
      exact ⟨_, .cons (.refl ρ _) (.cons (.refl ρ _) hts), .classDecl hk hn hs hl hms hr⟩
  | .function hk hf, _, _, _, ha, hrest => by
    cases ha with
    | function _ ha =>
      obtain ⟨ts', hts, hf⟩ := ReadsFunction.respell hf ha hrest
      exact ⟨_, .cons (.refl ρ _) hts, .function hk hf⟩
  | .variable hk hv, _, _, _, ha, hrest => by
    obtain ⟨ts', hts, hv⟩ := hv.respell ha hrest
    exact ⟨_, .cons (.refl ρ _) hts, .variable hk hv⟩
  | .statement hs, _, _, _, ha, hrest => by
    obtain ⟨ts', hts, hs⟩ := ReadsStmt.respell hs ha hrest
    exact ⟨ts', hts, .statement hs⟩

theorem ReadsDecls.respell : ReadsDecls ts n ss rest n₁ → {marks : List Bool} →
    {ss' : List Stmt} → {rest' : List Token} → Stmt.AlikeAll ρ.wording (.table D) marks ss ss' →
    List.Forall₂ ρ.Respells rest rest' →
    ∃ ts', List.Forall₂ ρ.Respells ts ts' ∧ ReadsDecls ts' n ss' rest' n₁
  | .nil, _, _, _, .nil, hrest => ⟨_, hrest, .nil⟩
  | .cons hs hss, _, _, _, .cons ha has, hrest => by
    obtain ⟨mid', hmid, hss⟩ := ReadsDecls.respell hss has hrest
    obtain ⟨ts', hts, hs⟩ := ReadsDecl.respell hs ha hmid
    exact ⟨ts', hts, .cons hs hss⟩

theorem ReadsFunction.respell : ReadsFunction ts n f rest n₁ → {marks : List Bool} →
    {f' : FunctionDecl Stmt} → {rest' : List Token} →
    Stmt.AlikeFunction ρ.wording (.table D) marks f f' → List.Forall₂ ρ.Respells rest rest' →
    ∃ ts', List.Forall₂ ρ.Respells ts ts' ∧ ReadsFunction ts' n f' rest' n₁
  | .mk hn hl hs hb hd hr, _, _, _, .mk hname hparams ha, hrest => by
    cases hname
    obtain ⟨mid', hmid, hd⟩ := ReadsDecls.respell hd ha (.cons (.refl ρ _) hrest)
    obtain ⟨ts', hts, hs⟩ := hs.respell hparams (.cons (.refl ρ _) hmid)
    exact ⟨_, .cons (.refl ρ _) (.cons (.refl ρ _) hts), .mk hn hl hs hb hd hr⟩

theorem ReadsMethods.respell : ReadsMethods ts n ms rest n₁ → {marks : List Bool} →
    {ms' : List (FunctionDecl Stmt)} → {rest' : List Token} →
    Stmt.AlikeMethods ρ.wording (.table D) marks ms ms' → List.Forall₂ ρ.Respells rest rest' →
    ∃ ts', List.Forall₂ ρ.Respells ts ts' ∧ ReadsMethods ts' n ms' rest' n₁
  | .nil, _, _, _, .nil, hrest => ⟨_, hrest, .nil⟩
  | .cons hf hms, _, _, _, .cons ha has, hrest => by
    obtain ⟨mid', hmid, hms⟩ := ReadsMethods.respell hms has hrest
    obtain ⟨ts', hts, hf⟩ := ReadsFunction.respell hf ha hmid
    exact ⟨ts', hts, .cons hf hms⟩

end

end Grammar

end Treewalk
