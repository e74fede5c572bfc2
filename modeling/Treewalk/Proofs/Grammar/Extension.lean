import Treewalk.Proofs.Grammar.Reading

namespace Treewalk.Grammar

theorem ReadsExpr.extend (us : List Token) (h : ReadsExpr φ ts n e rest n₁) :
    ReadsExpr φ (ts ++ us) n e (rest ++ us) n₁ := by
  induction h with
  | assignName hn he _ ih => exact .assignName hn he ih
  | assignProperty _ hd hn he _ ih ih₁ => exact .assignProperty ih hd hn he ih₁
  | value _ ih => exact .value ih
  | level _ _ ih ih₁ => exact .level ih ih₁
  | noOperand => exact .noOperand
  | operand ho _ _ ih ih₁ => exact .operand ho ih ih₁
  | operator ho _ ih => exact .operator ho ih
  | noOperator _ ih => exact .noOperator ih
  | call _ _ ih ih₁ => exact .call ih ih₁
  | noSuffix => exact .noSuffix
  | property hd hn _ ih => exact .property hd hn ih
  | noArguments hl hr _ ih => exact .noArguments hl hr ih
  | arguments hl _ _ ih ih₁ => exact .arguments hl ih ih₁
  | argument hb _ hc _ ih ih₁ => exact .argument hb ih hc ih₁
  | lastArgument hb _ hr ih => exact .lastArgument hb ih hr
  | literal hv => exact .literal hv
  | name ht => exact .name ht
  | receiver ht => exact .receiver ht
  | inherited ht hd hm => exact .inherited ht hd hm
  | group hl _ hr ih => exact .group hl ih hr

theorem ReadsOption.extend (us : List Token) (h : ReadsOption mark ts n e rest n₁) :
    ReadsOption mark (ts ++ us) n e (rest ++ us) n₁ := by
  cases h with
  | none hm => exact .none hm
  | some he hm => exact .some (he.extend us) hm

theorem ReadsVariable.extend (us : List Token) (h : ReadsVariable ts n s rest n₁) :
    ReadsVariable (ts ++ us) n s (rest ++ us) n₁ := by
  cases h with
  | plain hn hs => exact .plain hn hs
  | initialized hn he hi hs => exact .initialized hn he (hi.extend us) hs

theorem ReadsStart.extend (us : List Token) : ReadsStart ts n s rest n₁ →
    ReadsStart (ts ++ us) n s (rest ++ us) n₁
  | .none hs => .none hs
  | .variable hk hv => .variable hk (hv.extend us)
  | .expression he hs => .expression (he.extend us) hs

theorem ReadsParameters.extend (us : List Token) (h : ReadsParameters count ts names rest) :
    ReadsParameters count (ts ++ us) names (rest ++ us) := by
  induction h with
  | last hc hn hr => exact .last hc hn hr
  | more hc hn hm _ ih => exact .more hc hn hm ih

theorem ReadsSignature.extend (us : List Token) (h : ReadsSignature ts names rest) :
    ReadsSignature (ts ++ us) names (rest ++ us) := by
  cases h with
  | none hr => exact .none hr
  | some hp => exact .some (hp.extend us)

theorem ReadsSuperclass.extend (us : List Token) (h : ReadsSuperclass ts n e rest n₁) :
    ReadsSuperclass (ts ++ us) n e (rest ++ us) n₁ := by
  cases h with
  | none => exact .none
  | some hl hn => exact .some hl hn

mutual

theorem ReadsStmt.extend (us : List Token) : ReadsStmt isOpen ts n s rest n₁ →
    ReadsStmt isOpen (ts ++ us) n s (rest ++ us) n₁
  | .expression he hs => .expression (he.extend us) hs
  | .print hk he hs => .print hk (he.extend us) hs
  | .ret hk hv => .ret hk (hv.extend us)
  | .block hl hb hr => .block hl (ReadsDecls.extend us hb) hr
  | .loop hk hl hc hr hb => .loop hk hl (hc.extend us) hr (ReadsStmt.extend us hb)
  | .counting hk hl hs hc hp hb =>
    .counting hk hl (hs.extend us) (hc.extend us) (hp.extend us) (ReadsStmt.extend us hb)
  | .ifThen hk hl hc hr ht => .ifThen hk hl (hc.extend us) hr (ReadsStmt.extend us ht)
  | .ifElse hk hl hc hr ht ho he =>
    .ifElse hk hl (hc.extend us) hr (ReadsStmt.extend us ht) ho (ReadsStmt.extend us he)

theorem ReadsDecl.extend (us : List Token) : ReadsDecl ts n s rest n₁ →
    ReadsDecl (ts ++ us) n s (rest ++ us) n₁
  | .classDecl hk hn hs hl hm hr =>
    .classDecl hk hn (hs.extend us) hl (ReadsMethods.extend us hm) hr
  | .function hk hf => .function hk (ReadsFunction.extend us hf)
  | .variable hk hv => .variable hk (hv.extend us)
  | .statement hs => .statement (ReadsStmt.extend us hs)

theorem ReadsDecls.extend (us : List Token) : ReadsDecls ts n ss rest n₁ →
    ReadsDecls (ts ++ us) n ss (rest ++ us) n₁
  | .nil => .nil
  | .cons hs hss => .cons (ReadsDecl.extend us hs) (ReadsDecls.extend us hss)

theorem ReadsFunction.extend (us : List Token) : ReadsFunction ts n f rest n₁ →
    ReadsFunction (ts ++ us) n f (rest ++ us) n₁
  | .mk hn hl hs hb hd hr => .mk hn hl (hs.extend us) hb (ReadsDecls.extend us hd) hr

theorem ReadsMethods.extend (us : List Token) : ReadsMethods ts n ms rest n₁ →
    ReadsMethods (ts ++ us) n ms (rest ++ us) n₁
  | .nil => .nil
  | .cons hf hms => .cons (ReadsFunction.extend us hf) (ReadsMethods.extend us hms)

end

theorem ReadsDecls.follow : ReadsDecls ts n ss mid n₁ → ReadsDecls mid n₁ ss₁ rest n₂ →
    ReadsDecls ts n (ss ++ ss₁) rest n₂
  | .nil, h₁ => h₁
  | .cons hs hss, h₁ => .cons hs (ReadsDecls.follow hss h₁)

theorem ReadsDecls.append (h : ReadsDecls ts n ss [] n₁) (h₁ : ReadsDecls us n₁ ss₁ [] n₂) :
    ReadsDecls (ts ++ us) n (ss ++ ss₁) [] n₂ :=
  (h.extend us).follow h₁

end Treewalk.Grammar
