import Treewalk.Proofs.Grammar.Ebnf

namespace Treewalk.Grammar

section Words

def Takes (a : Pattern) (ts rest : List Token) : Prop :=
  ∃ us, ts = us ++ rest ∧ Derives a (us.map Token.kind)

namespace Takes

theorem terminal (h : t.Is tok.kind) : Takes (.terminal t) (tok :: ts) ts :=
  ⟨[tok], rfl, .terminal h⟩

theorem mark (h : tok.kind = .punct m) : Takes (.mark m) (tok :: ts) ts := terminal h

theorem word (h : tok.kind = .keyword w) : Takes (.word w) (tok :: ts) ts := terminal h

theorem name (h : tok.kind = .identifier) : Takes .name (tok :: ts) ts := terminal h

theorem symbol : Takes s.production ts rest → Takes (.symbol s) ts rest
  | ⟨us, hts, h⟩ => ⟨us, hts, .symbol h⟩

theorem seq : Takes a ts mid → Takes b mid rest → Takes (.seq a b) ts rest
  | ⟨us, hts, h⟩, ⟨vs, hmid, h'⟩ =>
    ⟨us ++ vs, by rw [hts, hmid, List.append_assoc], by rw [List.map_append]; exact .seq h h'⟩

theorem left : Takes a ts rest → Takes (.alt a b) ts rest
  | ⟨us, hts, h⟩ => ⟨us, hts, .left h⟩

theorem right : Takes b ts rest → Takes (.alt a b) ts rest
  | ⟨us, hts, h⟩ => ⟨us, hts, .right h⟩

theorem none : Takes (.opt a) ts ts := ⟨[], rfl, .none⟩

theorem some : Takes a ts rest → Takes (.opt a) ts rest
  | ⟨us, hts, h⟩ => ⟨us, hts, .some h⟩

theorem nil : Takes (.star a) ts ts := ⟨[], rfl, .nil⟩

theorem cons : Takes a ts mid → Takes (.star a) mid rest → Takes (.star a) ts rest
  | ⟨us, hts, h⟩, ⟨vs, hmid, h'⟩ =>
    ⟨us ++ vs, by rw [hts, hmid, List.append_assoc], by rw [List.map_append]; exact .cons h h'⟩

theorem stop : Takes (.upTo limit a) ts ts := ⟨[], rfl, .stop⟩

theorem more : Takes a ts mid → Takes (.upTo limit a) mid rest → Takes (.upTo (limit + 1) a) ts rest
  | ⟨us, hts, h⟩, ⟨vs, hmid, h'⟩ =>
    ⟨us ++ vs, by rw [hts, hmid, List.append_assoc], by rw [List.map_append]; exact .more h h'⟩

theorem of_seq : Takes (.seq a b) ts rest → ∃ mid, Takes a ts mid ∧ Takes b mid rest := by
  rintro ⟨us, rfl, h⟩
  generalize hw : us.map Token.kind = w at h
  cases h with
  | seq ha hb =>
    obtain ⟨us, vs, rfl, rfl, rfl⟩ := List.map_eq_append_iff.mp hw
    exact ⟨vs ++ rest, ⟨us, List.append_assoc .., ha⟩, ⟨vs, rfl, hb⟩⟩

theorem list_cons {limit k : Nat} (hi : Takes item ts (comma :: mid))
    (hc : comma.kind = .punct .comma) (hl : Takes (.list limit item) mid rest) (hpos : 0 < limit)
    (hk : k = limit + 1) : Takes (.list k item) ts rest := by
  subst hk
  obtain ⟨limit, rfl⟩ := Nat.exists_eq_add_of_lt hpos
  obtain ⟨mid₁, hi₁, hmore⟩ := hl.of_seq
  exact .seq hi (.more (.seq (.mark hc) hi₁) hmore)

theorem expression (h : Takes (.symbol .assignment) ts rest) : Takes (.symbol .expression) ts rest :=
  symbol h

end Takes

def Level.symbol : Level → Symbol
  | .disjunction => .logicOr
  | .conjunction => .logicAnd
  | .equality => .equality
  | .comparison => .comparison
  | .term => .term
  | .factor => .factor

def Level.operandSymbol : Level → Symbol
  | .disjunction => .logicAnd
  | .conjunction => .equality
  | .equality => .comparison
  | .comparison => .term
  | .term => .factor
  | .factor => .unary

open Pattern in
def Level.operatorPattern : Level → Pattern
  | .disjunction => word .orKw
  | .conjunction => word .andKw
  | .equality => oneOf (mark .bangEqual) [mark .equalEqual]
  | .comparison => oneOf (mark .greater) [mark .greaterEqual, mark .less, mark .lessEqual]
  | .term => oneOf (mark .minus) [mark .plus]
  | .factor => oneOf (mark .slash) [mark .star]

theorem Level.production_symbol (l : Level) :
    l.symbol.production = .chain l.operandSymbol l.operatorPattern := by
  cases l <;> rfl

open Pattern in
def suffixPattern : Pattern :=
  alt (sequence (mark .leftParen) [opt (symbol .arguments), mark .rightParen]) (seq (mark .dot) name)

theorem takes_operator {l : Level} (h : op.kind ∈ l.operators) :
    Takes l.operatorPattern (op :: ts) ts := by
  cases l <;> simp only [Level.operators, List.mem_cons, List.not_mem_nil, or_false] at h
  · exact .word h
  · exact .word h
  · obtain h | h := h
    · exact .left (.mark h)
    · exact .right (.mark h)
  · obtain h | h | h | h := h
    · exact .left (.mark h)
    · exact .right (.left (.mark h))
    · exact .right (.right (.left (.mark h)))
    · exact .right (.right (.right (.mark h)))
  · obtain h | h := h
    · exact .left (.mark h)
    · exact .right (.mark h)
  · obtain h | h := h
    · exact .right (.mark h)
    · exact .left (.mark h)

def TakesPhrase : Phrase → List Token → List Token → Prop
  | .assignment => Takes (.symbol .assignment)
  | .level l => Takes (.symbol l.symbol)
  | .unary => Takes (.symbol .unary)
  | .call => Takes (.symbol .call)
  | .primary => Takes (.symbol .primary)
  | .operands l _ => Takes (.star (.seq l.operatorPattern (.symbol l.operandSymbol)))
  | .suffixes _ => Takes (.star suffixPattern)
  | .arguments _ before => fun ts rest => before.length < maxArity ∧ ∃ right : Token,
      right.kind = .punct .rightParen ∧
        Takes (.list (maxArity - before.length) (.symbol .expression)) ts (right :: rest)

theorem takes_operand {l : Level} (h : TakesPhrase l.operand ts rest) :
    Takes (.symbol l.operandSymbol) ts rest := by
  cases l <;> exact h

theorem takes_literal (h : literal? t.kind = some v) : Takes (.symbol .primary) (t :: ts) ts := by
  apply Takes.symbol
  unfold literal? at h
  split at h
  · next hk => exact .right (.right (.right (.left (.word hk))))
  · next hk => exact .right (.right (.left (.word hk)))
  · next hk => exact .right (.right (.right (.right (.left (.word hk)))))
  · next hk => exact .left (.terminal ⟨_, hk⟩)
  · next hk => exact .right (.left (.terminal ⟨_, hk⟩))
  · cases h

theorem ReadsExpr.takes (h : ReadsExpr phrase ts n e rest n₁) : TakesPhrase phrase ts rest := by
  induction h with
  | assignName hn heq _ ih =>
    exact .symbol (.left (.seq .none (.seq (.name hn) (.seq (.mark heq) ih))))
  | assignProperty _ hdot hn heq _ iho ih =>
    exact .symbol (.left (.seq (.some (.seq iho (.mark hdot))) (.seq (.name hn)
      (.seq (.mark heq) ih))))
  | value _ ih => exact .symbol (.right ih)
  | @level _ _ _ _ _ _ _ _ l _ _ ihl ih =>
    apply Takes.symbol
    rw [Level.production_symbol]
    exact .seq (takes_operand ihl) ih
  | noOperand => exact .nil
  | operand hop _ _ ihr ih => exact .cons (.seq (takes_operator hop) (takes_operand ihr)) ih
  | operator hop _ ih =>
    simp only [unaryOperators, List.mem_cons, List.not_mem_nil, or_false] at hop
    obtain hop | hop := hop
    · exact .symbol (.left (.seq (.left (.mark hop)) ih))
    · exact .symbol (.left (.seq (.right (.mark hop)) ih))
  | noOperator _ ih => exact .symbol (.right ih)
  | call _ _ ihp ih => exact .symbol (.seq ihp ih)
  | noSuffix => exact .nil
  | property hdot hname _ ih => exact .cons (.right (.seq (.mark hdot) (.name hname))) ih
  | noArguments hl hr _ ih => exact .cons (.left (.seq (.mark hl) (.seq .none (.mark hr)))) ih
  | arguments hl _ _ iha ih =>
    obtain ⟨-, right, hr, ha⟩ := iha
    exact .cons (.left (.seq (.mark hl) (.seq (.some (.symbol ha)) (.mark hr)))) ih
  | argument hcount _ hcomma _ iha ih =>
    obtain ⟨hlt, right, hr, hlist⟩ := ih
    rw [List.length_append, List.length_singleton] at hlt hlist
    exact ⟨hcount, right, hr, .list_cons (.expression iha) hcomma hlist (by omega) (by omega)⟩
  | lastArgument hcount _ hr ih => exact ⟨hcount, _, hr, .seq (.expression ih) .stop⟩
  | literal h => exact takes_literal h
  | name h =>
    exact .symbol (.right (.right (.right (.right (.right (.right (.left (.name h))))))))
  | receiver h => exact .symbol (.right (.right (.right (.right (.right (.left (.word h)))))))
  | inherited h hdot hm =>
    exact .symbol (.right (.right (.right (.right (.right (.right (.right (.right
      (.seq (.word h) (.seq (.mark hdot) (.name hm)))))))))))
  | group hl _ hr ih =>
    exact .symbol (.right (.right (.right (.right (.right (.right (.right (.left
      (.seq (.mark hl) (.seq (.expression ih) (.mark hr)))))))))))

theorem ReadsOption.takes (h : ReadsOption mark ts n v rest n₁) :
    ∃ mid, Takes (.opt (.symbol .expression)) ts mid ∧ Takes (.mark mark) mid rest := by
  cases h with
  | none hm => exact ⟨_, .none, .mark hm⟩
  | some h hm => exact ⟨_, .some (.expression h.takes), .mark hm⟩

theorem ReadsVariable.takes (h : ReadsVariable ts n s rest n₁) (hkw : kw.kind = .keyword .varKw) :
    Takes (.symbol .varDecl) (kw :: ts) rest := by
  cases h with
  | plain hname hsemi =>
    exact .symbol (.seq (.word hkw) (.seq (.name hname) (.seq .none (.mark hsemi))))
  | initialized hname heq h hsemi =>
    exact .symbol (.seq (.word hkw) (.seq (.name hname)
      (.seq (.some (.seq (.mark heq) (.expression h.takes))) (.mark hsemi))))

open Pattern in
theorem ReadsStart.takes (h : ReadsStart ts n s rest n₁) :
    Takes (oneOf (symbol .varDecl) [symbol .exprStmt, mark .semicolon]) ts rest := by
  cases h with
  | none hsemi => exact .right (.right (.mark hsemi))
  | «variable» hkw h => exact .left (h.takes hkw)
  | expression h hsemi => exact .right (.left (.symbol (.seq (.expression h.takes) (.mark hsemi))))

theorem ReadsParameters.takes (h : ReadsParameters count ts names rest) : count < maxArity ∧
    ∃ right : Token, right.kind = .punct .rightParen ∧
      Takes (.list (maxArity - count) .name) ts (right :: rest) := by
  induction h with
  | last hcount hname hr => exact ⟨hcount, _, hr, .seq (.name hname) .stop⟩
  | more hcount hname hcomma _ ih =>
    obtain ⟨hlt, right, hr, hlist⟩ := ih
    exact ⟨hcount, right, hr, .list_cons (.name hname) hcomma hlist (by omega) (by omega)⟩

theorem ReadsSignature.takes (h : ReadsSignature ts names rest) :
    ∃ mid, Takes (.opt (.symbol .parameters)) ts mid ∧ Takes (.mark .rightParen) mid rest := by
  cases h with
  | none hr => exact ⟨_, .none, .mark hr⟩
  | some h =>
    obtain ⟨-, right, hr, hlist⟩ := h.takes
    exact ⟨_, .some (.symbol hlist), .mark hr⟩

theorem ReadsSuperclass.takes (h : ReadsSuperclass ts n v rest n₁) :
    Takes (.opt (.seq (.mark .less) .name)) ts rest := by
  cases h with
  | none => exact .none
  | some hless hname => exact .some (.seq (.mark hless) (.name hname))

mutual

theorem ReadsStmt.takes : ReadsStmt isOpen ts n s rest n₁ → Takes (.symbol .statement) ts rest
  | .expression h hsemi =>
    .symbol (.left (.symbol (.seq (.expression h.takes) (.mark hsemi))))
  | .print hkw h hsemi =>
    .symbol (.right (.right (.right (.left (.symbol
      (.seq (.word hkw) (.seq (.expression h.takes) (.mark hsemi))))))))
  | .ret hkw h => by
    obtain ⟨mid, hv, hsemi⟩ := h.takes
    exact .symbol (.right (.right (.right (.right (.left (.symbol
      (.seq (.word hkw) (.seq hv hsemi))))))))
  | .block hl hb hr =>
    .symbol (.right (.right (.right (.right (.right (.right (.symbol
      (.seq (.mark hl) (.seq (ReadsDecls.takes hb) (.mark hr))))))))))
  | .loop hkw hl hc hr hb =>
    .symbol (.right (.right (.right (.right (.right (.left (.symbol (.seq (.word hkw)
      (.seq (.mark hl) (.seq (.expression hc.takes) (.seq (.mark hr) (ReadsStmt.takes hb))))))))))))
  | .counting hkw hl hs hc hstep hb => by
    obtain ⟨_, hc, hsemi⟩ := hc.takes
    obtain ⟨_, hstep, hr⟩ := hstep.takes
    exact .symbol (.right (.left (.symbol (.seq (.word hkw) (.seq (.mark hl) (.seq hs.takes
      (.seq hc (.seq hsemi (.seq hstep (.seq hr (ReadsStmt.takes hb)))))))))))
  | .ifThen hkw hl hc hr ht =>
    .symbol (.right (.right (.left (.symbol (.seq (.word hkw) (.seq (.mark hl)
      (.seq (.expression hc.takes) (.seq (.mark hr) (.seq (ReadsStmt.takes ht) .none)))))))))
  | .ifElse hkw hl hc hr ht hother he =>
    .symbol (.right (.right (.left (.symbol (.seq (.word hkw) (.seq (.mark hl)
      (.seq (.expression hc.takes) (.seq (.mark hr) (.seq (ReadsStmt.takes ht)
        (.some (.seq (.word hother) (ReadsStmt.takes he))))))))))))

theorem ReadsDecl.takes : ReadsDecl ts n s rest n₁ → Takes (.symbol .declaration) ts rest
  | .classDecl hkw hname hs hl hm hr =>
    .symbol (.left (.symbol (.seq (.word hkw) (.seq (.name hname) (.seq hs.takes
      (.seq (.mark hl) (.seq (ReadsMethods.takes hm) (.mark hr))))))))
  | .function hkw h =>
    .symbol (.right (.left (.symbol (.seq (.word hkw) (ReadsFunction.takes h)))))
  | .variable hkw h => .symbol (.right (.right (.left (h.takes hkw))))
  | .statement h => .symbol (.right (.right (.right (ReadsStmt.takes h))))

theorem ReadsDecls.takes : ReadsDecls ts n ss rest n₁ →
    Takes (.star (.symbol .declaration)) ts rest
  | .nil => .nil
  | .cons h hs => .cons (ReadsDecl.takes h) (ReadsDecls.takes hs)

theorem ReadsFunction.takes : ReadsFunction ts n f rest n₁ → Takes (.symbol .function) ts rest
  | .mk hname hl hs hbrace hb hr => by
    obtain ⟨_, hparams, hright⟩ := hs.takes
    exact .symbol (.seq (.name hname) (.seq (.mark hl) (.seq hparams (.seq hright (.symbol
      (.seq (.mark hbrace) (.seq (ReadsDecls.takes hb) (.mark hr))))))))

theorem ReadsMethods.takes : ReadsMethods ts n ms rest n₁ → Takes (.star (.symbol .function)) ts rest
  | .nil => .nil
  | .cons h hs => .cons (ReadsFunction.takes h) (ReadsMethods.takes hs)

end

end Words

section Readings

def Matches (P : Symbol → List Token → Prop) : Pattern → List Token → Prop
  | .terminal t, us => ∃ tok, t.Is tok.kind ∧ us = [tok]
  | .symbol s, us => P s us
  | .seq a b, us => ∃ vs ws, Matches P a vs ∧ Matches P b ws ∧ us = vs ++ ws
  | .alt a b, us => Matches P a us ∨ Matches P b us
  | .opt a, us => us = [] ∨ Matches P a us
  | .star a, us => ∃ vss : List (List Token), (∀ vs ∈ vss, Matches P a vs) ∧ us = vss.flatten
  | .upTo limit a, us => ∃ vss : List (List Token), vss.length ≤ limit ∧
      (∀ vs ∈ vss, Matches P a vs) ∧ us = vss.flatten

theorem Derives.matches {P : Symbol → List Token → Prop}
    (hP : ∀ s us, Matches P s.production us → P s us) (h : Derives a w) :
    ∀ us : List Token, us.map Token.kind = w → Matches P a us := by
  induction h with
  | terminal h =>
    intro us hus
    obtain ⟨tok, us, rfl, rfl, hnil⟩ := List.map_eq_cons_iff.mp hus
    obtain rfl := List.map_eq_nil_iff.mp hnil
    exact ⟨tok, h, rfl⟩
  | symbol _ ih => exact fun us hus => hP _ us (ih us hus)
  | seq _ _ iha ihb =>
    intro us hus
    obtain ⟨vs, ws, rfl, hv, hw⟩ := List.map_eq_append_iff.mp hus
    exact ⟨vs, ws, iha vs hv, ihb ws hw, rfl⟩
  | left _ ih => exact fun us hus => .inl (ih us hus)
  | right _ ih => exact fun us hus => .inr (ih us hus)
  | none => exact fun us hus => .inl (List.map_eq_nil_iff.mp hus)
  | some _ ih => exact fun us hus => .inr (ih us hus)
  | nil => exact fun us hus => ⟨[], nofun, List.map_eq_nil_iff.mp hus⟩
  | cons _ _ iha ihb =>
    intro us hus
    obtain ⟨vs, ws, rfl, hv, hw⟩ := List.map_eq_append_iff.mp hus
    obtain ⟨wss, hws, rfl⟩ := ihb ws hw
    exact ⟨vs :: wss, List.forall_mem_cons.mpr ⟨iha vs hv, hws⟩, rfl⟩
  | stop => exact fun us hus => ⟨[], Nat.zero_le _, nofun, List.map_eq_nil_iff.mp hus⟩
  | more _ _ iha ihb =>
    intro us hus
    obtain ⟨vs, ws, rfl, hv, hw⟩ := List.map_eq_append_iff.mp hus
    obtain ⟨wss, hlen, hws, rfl⟩ := ihb ws hw
    exact ⟨vs :: wss, Nat.succ_le_succ hlen, List.forall_mem_cons.mpr ⟨iha vs hv, hws⟩, rfl⟩

def Reads {α : Type} (R : List Token → Nat → α → List Token → Nat → Prop) (us : List Token) : Prop :=
  ∀ rest n, ∃ a n₁, R (us ++ rest) n a rest n₁

def ReadsSymbol : Symbol → List Token → Prop
  | .program, us => ∃ ts eof, us = ts ++ [eof] ∧ eof.kind = .eof ∧ Reads ReadsDecls ts
  | .declaration, us | .classDecl, us | .funDecl, us => Reads ReadsDecl us
  | .function, us => Reads ReadsFunction us
  | .parameters, us => ∀ right rest, right.kind = .punct .rightParen →
      ∃ names, ReadsParameters 0 (us ++ right :: rest) names rest
  | .varDecl, us => ∃ kw us', us = kw :: us' ∧ kw.kind = .keyword .varKw ∧ Reads ReadsVariable us'
  | .exprStmt, us => ∃ us' semi, us = us' ++ [semi] ∧ semi.kind = .punct .semicolon ∧
      Reads (ReadsExpr .assignment) us'
  | .block, us => ∃ left us' right, us = left :: us' ++ [right] ∧ left.kind = .punct .leftBrace ∧
      right.kind = .punct .rightBrace ∧ Reads ReadsDecls us'
  | .statement, us | .forStmt, us | .ifStmt, us | .printStmt, us | .returnStmt, us
  | .whileStmt, us => ∀ rest n, ∃ isOpen s n₁, ReadsStmt isOpen (us ++ rest) n s rest n₁
  | .expression, us | .assignment, us => Reads (ReadsExpr .assignment) us
  | .logicOr, us => Reads (ReadsExpr (.level .disjunction)) us
  | .logicAnd, us => Reads (ReadsExpr (.level .conjunction)) us
  | .equality, us => Reads (ReadsExpr (.level .equality)) us
  | .comparison, us => Reads (ReadsExpr (.level .comparison)) us
  | .term, us => Reads (ReadsExpr (.level .term)) us
  | .factor, us => Reads (ReadsExpr (.level .factor)) us
  | .unary, us => Reads (ReadsExpr .unary) us
  | .call, us => Reads (ReadsExpr .call) us
  | .arguments, us => ∀ callee right, right.kind = .punct .rightParen →
      Reads (ReadsExpr (.arguments callee [])) (us ++ [right])
  | .primary, us => Reads (ReadsExpr .primary) us

theorem readsSymbol_operand {l : Level} (h : ReadsSymbol l.operandSymbol us) :
    Reads (ReadsExpr l.operand) us := by
  cases l <;> exact h

theorem mem_operators {l : Level} (h : Matches ReadsSymbol l.operatorPattern us) :
    ∃ op : Token, us = [op] ∧ op.kind ∈ l.operators := by
  cases l with
  | disjunction | conjunction =>
    obtain ⟨op, h, rfl⟩ := h
    exact ⟨op, rfl, h ▸ List.mem_singleton_self _⟩
  | equality | term =>
    obtain ⟨op, h, rfl⟩ | ⟨op, h, rfl⟩ := h
    · exact ⟨op, rfl, by rw [h]; decide⟩
    · exact ⟨op, rfl, by rw [h]; decide⟩
  | factor =>
    obtain ⟨op, h, rfl⟩ | ⟨op, h, rfl⟩ := h
    · exact ⟨op, rfl, by rw [h]; decide⟩
    · exact ⟨op, rfl, by rw [h]; decide⟩
  | comparison =>
    obtain ⟨op, h, rfl⟩ | ⟨op, h, rfl⟩ | ⟨op, h, rfl⟩ | ⟨op, h, rfl⟩ := h
    · exact ⟨op, rfl, by rw [h]; decide⟩
    · exact ⟨op, rfl, by rw [h]; decide⟩
    · exact ⟨op, rfl, by rw [h]; decide⟩
    · exact ⟨op, rfl, by rw [h]; decide⟩

theorem reads_operands {l : Level} (vss : List (List Token))
    (h : ∀ vs ∈ vss, Matches ReadsSymbol (.seq l.operatorPattern (.symbol l.operandSymbol)) vs) :
    ∀ left, Reads (ReadsExpr (.operands l left)) vss.flatten := by
  induction vss with
  | nil => exact fun left rest n => ⟨left, n, .noOperand⟩
  | cons vs vss ih =>
    intro left rest n
    rw [List.forall_mem_cons] at h
    obtain ⟨⟨_, ws, hop, ho, rfl⟩, hvss⟩ := h
    obtain ⟨op, rfl, hmem⟩ := mem_operators hop
    obtain ⟨right, n₁, hright⟩ := readsSymbol_operand ho (vss.flatten ++ rest) n
    obtain ⟨e, n₂, he⟩ := ih hvss (l.node left op right) rest n₁
    refine ⟨e, n₂, ?_⟩
    simpa using ReadsExpr.operand hmem hright he

theorem reads_level {l : Level} (h : Matches ReadsSymbol l.symbol.production us) :
    Reads (ReadsExpr (.level l)) us := by
  rw [Level.production_symbol] at h
  obtain ⟨vs, ws, hv, ⟨vss, hvss, rfl⟩, rfl⟩ := h
  intro rest n
  obtain ⟨left, n₁, hl⟩ := readsSymbol_operand hv (vss.flatten ++ rest) n
  obtain ⟨e, n₂, he⟩ := reads_operands vss hvss left rest n₁
  refine ⟨e, n₂, ?_⟩
  simpa using ReadsExpr.level hl he

theorem reads_arguments (vss : List (List Token)) (hr : right.kind = .punct .rightParen)
    (h : ∀ vs ∈ vss, Matches ReadsSymbol (.seq (.mark .comma) (.symbol .expression)) vs) :
    ∀ us before, Reads (ReadsExpr .assignment) us → before.length + vss.length < maxArity →
      Reads (ReadsExpr (.arguments callee before)) (us ++ vss.flatten ++ [right]) := by
  induction vss with
  | nil =>
    intro us before hus hlen rest n
    obtain ⟨a, n₁, ha⟩ := hus (right :: rest) n
    refine ⟨.call callee right (before ++ [a]), n₁, ?_⟩
    simpa using ReadsExpr.lastArgument hlen ha hr
  | cons vs vss ih =>
    intro us before hus hlen rest n
    rw [List.forall_mem_cons] at h
    obtain ⟨⟨_, ws, ⟨comma, hcomma, rfl⟩, hws, rfl⟩, hvss⟩ := h
    rw [List.length_cons] at hlen
    obtain ⟨a, n₁, ha⟩ := hus (comma :: ws ++ vss.flatten ++ right :: rest) n
    obtain ⟨e, n₂, he⟩ := ih hvss ws (before ++ [a]) hws (by simp; omega) rest n₁
    refine ⟨e, n₂, ?_⟩
    simpa using ReadsExpr.argument (by omega) (by simpa using ha) hcomma (by simpa using he)

theorem reads_parameters (vss : List (List Token)) (hr : right.kind = .punct .rightParen)
    (h : ∀ vs ∈ vss, Matches ReadsSymbol (.seq (.mark .comma) .name) vs) :
    ∀ name : Token, name.kind = .identifier → ∀ count, count + vss.length < maxArity →
      ∃ names, ReadsParameters count (name :: vss.flatten ++ right :: rest) names rest := by
  induction vss with
  | nil => exact fun name hname count hlen => ⟨_, .last hlen hname hr⟩
  | cons vs vss ih =>
    intro name hname count hlen
    rw [List.forall_mem_cons] at h
    obtain ⟨⟨_, _, ⟨comma, hcomma, rfl⟩, ⟨next, hnext, rfl⟩, rfl⟩, hvss⟩ := h
    rw [List.length_cons] at hlen
    obtain ⟨names, hnames⟩ := ih hvss next hnext (count + 1) (by omega)
    exact ⟨_, .more (by omega) hname hcomma hnames⟩

theorem reads_suffixes (vss : List (List Token)) (h : ∀ vs ∈ vss, Matches ReadsSymbol suffixPattern vs) :
    ∀ callee, Reads (ReadsExpr (.suffixes callee)) vss.flatten := by
  induction vss with
  | nil => exact fun callee rest n => ⟨callee, n, .noSuffix⟩
  | cons vs vss ih =>
    intro callee rest n
    rw [List.forall_mem_cons] at h
    obtain ⟨hvs, hvss⟩ := h
    obtain ⟨_, _, ⟨left, hl, rfl⟩, ⟨ws, _, hargs, ⟨right, hr, rfl⟩, rfl⟩, rfl⟩ |
      ⟨_, _, ⟨dot, hdot, rfl⟩, ⟨name, hname, rfl⟩, rfl⟩ := hvs
    · obtain rfl | hargs := hargs
      · obtain ⟨e, n₁, he⟩ := ih hvss (.call callee right []) rest n
        exact ⟨e, n₁, .noArguments hl hr he⟩
      · obtain ⟨called, n₁, hc⟩ := hargs callee right hr (vss.flatten ++ rest) n
        obtain ⟨e, n₂, he⟩ := ih hvss called rest n₁
        refine ⟨e, n₂, ?_⟩
        simpa using ReadsExpr.arguments hl hc he
    · obtain ⟨e, n₁, he⟩ := ih hvss (.get callee name) rest n
      exact ⟨e, n₁, .property hdot hname he⟩

theorem ReadsStmt.attach : ReadsStmt isOpen ts n s mid n₁ → isOpen = true →
    ∀ {other mid₁ isOpen₁ s₁ rest n₂}, mid = other :: mid₁ → other.kind = .keyword .elseKw →
      ReadsStmt isOpen₁ mid₁ n₁ s₁ rest n₂ → ∃ isOpen₂ s₂, ReadsStmt isOpen₂ ts n s₂ rest n₂
  | .expression .., ho | .print .., ho | .ret .., ho | .block .., ho => by cases ho
  | .loop hkw hl hc hr hb, ho => by
    intro hmid hother h
    obtain ⟨_, _, hb⟩ := ReadsStmt.attach hb ho hmid hother h
    exact ⟨_, _, .loop hkw hl hc hr hb⟩
  | .counting hkw hl hs hc hstep hb, ho => by
    intro hmid hother h
    obtain ⟨_, _, hb⟩ := ReadsStmt.attach hb ho hmid hother h
    exact ⟨_, _, .counting hkw hl hs hc hstep hb⟩
  | @ReadsStmt.ifThen _ _ _ _ _ _ isOpen _ _ _ _ _ hkw hl hc hr ht, _ => by
    intro hmid hother h
    by_cases ho : isOpen = true
    · obtain ⟨_, _, ht⟩ := ReadsStmt.attach ht ho hmid hother h
      exact ⟨_, _, .ifThen hkw hl hc hr ht⟩
    · rw [Bool.not_eq_true] at ho
      subst ho hmid
      exact ⟨_, _, .ifElse hkw hl hc hr ht hother h⟩
  | .ifElse hkw hl hc hr ht hother₁ he, ho => by
    intro hmid hother h
    obtain ⟨_, _, he⟩ := ReadsStmt.attach he ho hmid hother h
    exact ⟨_, _, .ifElse hkw hl hc hr ht hother₁ he⟩

theorem reads_assignment (h : Matches ReadsSymbol Symbol.assignment.production us) :
    Reads (ReadsExpr .assignment) us := by
  intro rest n
  obtain ⟨_, _, hcall, ⟨_, _, ⟨name, hname, rfl⟩, ⟨_, vs, ⟨equals, heq, rfl⟩, hv, rfl⟩, rfl⟩, rfl⟩ | h :=
    h
  · obtain rfl | ⟨ws, _, hws, ⟨dot, hdot, rfl⟩, rfl⟩ := hcall
    · obtain ⟨e, n₁, he⟩ := hv rest (n + 1)
      exact ⟨_, _, .assignName hname heq he⟩
    · obtain ⟨object, n₁, ho⟩ := hws (dot :: name :: equals :: vs ++ rest) n
      obtain ⟨e, n₂, he⟩ := hv rest n₁
      refine ⟨.set object name e, n₂, ?_⟩
      simpa using ReadsExpr.assignProperty ho hdot hname heq he
  · obtain ⟨e, n₁, he⟩ := h rest n
    exact ⟨e, n₁, .value he⟩

theorem reads_unary (h : Matches ReadsSymbol Symbol.unary.production us) :
    Reads (ReadsExpr .unary) us := by
  intro rest n
  obtain ⟨_, vs, ⟨op, hop, rfl⟩ | ⟨op, hop, rfl⟩, hv, rfl⟩ | h := h
  · obtain ⟨e, n₁, he⟩ := hv rest n
    exact ⟨_, _, .operator (by rw [show op.kind = _ from hop]; decide) he⟩
  · obtain ⟨e, n₁, he⟩ := hv rest n
    exact ⟨_, _, .operator (by rw [show op.kind = _ from hop]; decide) he⟩
  · obtain ⟨e, n₁, he⟩ := h rest n
    exact ⟨e, n₁, .noOperator he⟩

theorem reads_call (h : Matches ReadsSymbol Symbol.call.production us) :
    Reads (ReadsExpr .call) us := by
  intro rest n
  obtain ⟨vs, _, hv, ⟨vss, hvss, rfl⟩, rfl⟩ := h
  obtain ⟨callee, n₁, hc⟩ := hv (vss.flatten ++ rest) n
  obtain ⟨e, n₂, he⟩ := reads_suffixes vss hvss callee rest n₁
  refine ⟨e, n₂, ?_⟩
  simpa using ReadsExpr.call hc he

theorem reads_primary (h : Matches ReadsSymbol Symbol.primary.production us) :
    Reads (ReadsExpr .primary) us := by
  intro rest n
  obtain ⟨t, ⟨x, ht⟩, rfl⟩ | ⟨t, ⟨x, ht⟩, rfl⟩ | ⟨t, ht, rfl⟩ | ⟨t, ht, rfl⟩ | ⟨t, ht, rfl⟩ |
    ⟨t, ht, rfl⟩ | ⟨t, ht, rfl⟩ | ⟨_, _, ⟨left, hl, rfl⟩, ⟨vs, _, hv, ⟨right, hr, rfl⟩, rfl⟩, rfl⟩ |
    ⟨_, _, ⟨t, ht, rfl⟩, ⟨_, _, ⟨dot, hdot, rfl⟩, ⟨method, hm, rfl⟩, rfl⟩, rfl⟩ := h
  · exact ⟨_, _, .literal (by rw [ht]; rfl)⟩
  · exact ⟨_, _, .literal (by rw [ht]; rfl)⟩
  · exact ⟨_, _, .literal (by rw [show t.kind = _ from ht]; rfl)⟩
  · exact ⟨_, _, .literal (by rw [show t.kind = _ from ht]; rfl)⟩
  · exact ⟨_, _, .literal (by rw [show t.kind = _ from ht]; rfl)⟩
  · exact ⟨_, _, .receiver ht⟩
  · exact ⟨_, _, .name ht⟩
  · obtain ⟨e, n₁, he⟩ := hv (right :: rest) n
    refine ⟨.group e, n₁, ?_⟩
    simpa using ReadsExpr.group hl he hr
  · exact ⟨_, _, .inherited ht hdot hm⟩

theorem reads_declarations (vss : List (List Token))
    (h : ∀ vs ∈ vss, Reads ReadsDecl vs) : Reads ReadsDecls vss.flatten := by
  induction vss with
  | nil => exact fun rest n => ⟨[], n, .nil⟩
  | cons vs vss ih =>
    intro rest n
    rw [List.forall_mem_cons] at h
    obtain ⟨s, n₁, hs⟩ := h.1 (vss.flatten ++ rest) n
    obtain ⟨ss, n₂, hss⟩ := ih h.2 rest n₁
    refine ⟨s :: ss, n₂, ?_⟩
    simpa using ReadsDecls.cons hs hss

theorem reads_methods (vss : List (List Token))
    (h : ∀ vs ∈ vss, Reads ReadsFunction vs) : Reads ReadsMethods vss.flatten := by
  induction vss with
  | nil => exact fun rest n => ⟨[], n, .nil⟩
  | cons vs vss ih =>
    intro rest n
    rw [List.forall_mem_cons] at h
    obtain ⟨f, n₁, hf⟩ := h.1 (vss.flatten ++ rest) n
    obtain ⟨fs, n₂, hfs⟩ := ih h.2 rest n₁
    refine ⟨f :: fs, n₂, ?_⟩
    simpa using ReadsMethods.cons hf hfs

theorem reads_option (h : Matches ReadsSymbol (.opt (.symbol .expression)) us)
    (hm : m.kind = .punct mark) : Reads (ReadsOption mark) (us ++ [m]) := by
  intro rest n
  obtain rfl | h := h
  · exact ⟨none, n, .none hm⟩
  · obtain ⟨e, n₁, he⟩ := h (m :: rest) n
    exact ⟨some e, n₁, by simpa using ReadsOption.some he hm⟩

theorem reads_class (h : Matches ReadsSymbol Symbol.classDecl.production us) :
    Reads ReadsDecl us := by
  intro rest n
  obtain ⟨_, _, ⟨kw, hkw, rfl⟩, ⟨_, _, ⟨name, hname, rfl⟩, ⟨_, _, hsuper, ⟨_, _, ⟨left, hl, rfl⟩,
    ⟨_, _, ⟨vss, hvss, rfl⟩, ⟨right, hr, rfl⟩, rfl⟩, rfl⟩, rfl⟩, rfl⟩, rfl⟩ := h
  obtain rfl | ⟨_, _, ⟨less, hless, rfl⟩, ⟨base, hbase, rfl⟩, rfl⟩ := hsuper
  · obtain ⟨ms, n₁, hm⟩ := reads_methods vss hvss (right :: rest) n
    refine ⟨.classDecl name none ms, n₁, ?_⟩
    simpa using ReadsDecl.classDecl hkw hname .none hl hm hr
  · obtain ⟨ms, n₁, hm⟩ := reads_methods vss hvss (right :: rest) (n + 1)
    refine ⟨.classDecl name (some (.name ⟨n, base⟩)) ms, n₁, ?_⟩
    simpa using ReadsDecl.classDecl hkw hname (.some hless hbase) hl hm hr

theorem reads_function (h : Matches ReadsSymbol Symbol.function.production us) :
    Reads ReadsFunction us := by
  intro rest n
  obtain ⟨_, _, ⟨name, hname, rfl⟩, ⟨_, _, ⟨left, hl, rfl⟩, ⟨ps, _, hps, ⟨_, _, ⟨right, hr, rfl⟩,
    ⟨brace, bs, close, rfl, hbrace, hclose, hbs⟩, rfl⟩, rfl⟩, rfl⟩, rfl⟩ := h
  obtain ⟨body, n₁, hb⟩ := hbs (close :: rest) n
  obtain ⟨names, hnames⟩ : ∃ names, ReadsSignature (ps ++ right :: brace :: bs ++ close :: rest) names
      (brace :: bs ++ close :: rest) := by
    obtain rfl | hps := hps
    · exact ⟨[], .none hr⟩
    · obtain ⟨names, hnames⟩ := hps right (brace :: bs ++ close :: rest) hr
      exact ⟨names, .some (by simpa using hnames)⟩
  refine ⟨⟨name, names, body⟩, n₁, ?_⟩
  simpa using ReadsFunction.mk hname hl (by simpa using hnames) hbrace hb hclose

theorem reads_variable (h : Matches ReadsSymbol Symbol.varDecl.production us) :
    ReadsSymbol .varDecl us := by
  obtain ⟨_, _, ⟨kw, hkw, rfl⟩, ⟨_, _, ⟨name, hname, rfl⟩, ⟨_, _, hinit, ⟨semi, hsemi, rfl⟩, rfl⟩,
    rfl⟩, rfl⟩ := h
  refine ⟨kw, _, rfl, hkw, fun rest n => ?_⟩
  obtain rfl | ⟨_, vs, ⟨equals, heq, rfl⟩, hv, rfl⟩ := hinit
  · exact ⟨_, _, .plain hname hsemi⟩
  · obtain ⟨e, n₁, he⟩ := hv (semi :: rest) n
    refine ⟨.var name (some e), n₁, ?_⟩
    simpa using ReadsVariable.initialized hname heq he hsemi

theorem reads_for (h : Matches ReadsSymbol Symbol.forStmt.production us) :
    ReadsSymbol .forStmt us := by
  intro rest n
  obtain ⟨_, _, ⟨kw, hkw, rfl⟩, ⟨_, _, ⟨left, hl, rfl⟩, ⟨ss, _, hstart, ⟨cs, _, hc, ⟨_, _,
    ⟨semi, hsemi, rfl⟩, ⟨es, _, hstep, ⟨_, bs, ⟨right, hr, rfl⟩, hbs, rfl⟩, rfl⟩, rfl⟩, rfl⟩, rfl⟩,
    rfl⟩, rfl⟩ := h
  have hstart : Reads ReadsStart ss := by
    intro rest n
    obtain ⟨kw, vs, rfl, hkw, hv⟩ | ⟨vs, semi, rfl, hsemi, hv⟩ | ⟨semi, hsemi, rfl⟩ := hstart
    · obtain ⟨s, n₁, hs⟩ := hv rest n
      exact ⟨some s, n₁, .variable hkw hs⟩
    · obtain ⟨e, n₁, he⟩ := hv (semi :: rest) n
      exact ⟨some (.expr e), n₁, by simpa using ReadsStart.expression he hsemi⟩
    · exact ⟨none, n, .none hsemi⟩
  obtain ⟨start, n₁, hs⟩ := hstart (cs ++ semi :: es ++ right :: bs ++ rest) n
  obtain ⟨c, n₂, hc⟩ := reads_option hc hsemi (es ++ right :: bs ++ rest) n₁
  obtain ⟨step, n₃, hstep⟩ := reads_option hstep hr (bs ++ rest) n₂
  obtain ⟨isOpen, body, n₄, hb⟩ := hbs rest n₃
  refine ⟨isOpen, .counting start c step body, n₄, ?_⟩
  simpa using ReadsStmt.counting hkw hl hs (by simpa using hc) (by simpa using hstep) hb

theorem reads_if (h : Matches ReadsSymbol Symbol.ifStmt.production us) :
    ReadsSymbol .ifStmt us := by
  intro rest n
  obtain ⟨_, _, ⟨kw, hkw, rfl⟩, ⟨_, _, ⟨left, hl, rfl⟩, ⟨cs, _, hc, ⟨_, _, ⟨right, hr, rfl⟩,
    ⟨ts, _, ht, helse, rfl⟩, rfl⟩, rfl⟩, rfl⟩, rfl⟩ := h
  obtain rfl | ⟨_, es, ⟨other, hother, rfl⟩, he, rfl⟩ := helse
  · obtain ⟨c, n₁, hc⟩ := hc (right :: ts ++ rest) n
    obtain ⟨isOpen, t, n₂, ht⟩ := ht rest n₁
    refine ⟨true, .ifThen c t, n₂, ?_⟩
    simpa using ReadsStmt.ifThen hkw hl hc hr ht
  · obtain ⟨c, n₁, hc⟩ := hc (right :: ts ++ other :: es ++ rest) n
    obtain ⟨isOpen, t, n₂, ht⟩ := ht (other :: es ++ rest) n₁
    obtain ⟨isOpen₁, e, n₃, he⟩ := he rest n₂
    cases isOpen with
    | false =>
      refine ⟨isOpen₁, .ifElse c t e, n₃, ?_⟩
      simpa using ReadsStmt.ifElse hkw hl (by simpa using hc) hr ht hother he
    | true =>
      -- the productions gave the `else` to this `if`, but one inside could still take it
      obtain ⟨isOpen₂, t₁, ht⟩ := ht.attach rfl rfl hother he
      refine ⟨true, .ifThen c t₁, n₃, ?_⟩
      simpa using ReadsStmt.ifThen hkw hl (by simpa using hc) hr ht

theorem reads_while (h : Matches ReadsSymbol Symbol.whileStmt.production us) :
    ReadsSymbol .whileStmt us := by
  intro rest n
  obtain ⟨_, _, ⟨kw, hkw, rfl⟩, ⟨_, _, ⟨left, hl, rfl⟩, ⟨cs, _, hc, ⟨_, bs, ⟨right, hr, rfl⟩, hb, rfl⟩,
    rfl⟩, rfl⟩, rfl⟩ := h
  obtain ⟨c, n₁, hc⟩ := hc (right :: bs ++ rest) n
  obtain ⟨isOpen, body, n₂, hb⟩ := hb rest n₁
  refine ⟨isOpen, .loop c body, n₂, ?_⟩
  simpa using ReadsStmt.loop hkw hl hc hr hb

theorem reads_statement (h : Matches ReadsSymbol Symbol.statement.production us) :
    ReadsSymbol .statement us := by
  obtain ⟨vs, semi, rfl, hsemi, hv⟩ | h | h | h | h | h |
    ⟨left, bs, right, rfl, hl, hr, hb⟩ := h
  · intro rest n
    obtain ⟨e, n₁, he⟩ := hv (semi :: rest) n
    exact ⟨false, .expr e, n₁, by simpa using ReadsStmt.expression he hsemi⟩
  · exact h
  · exact h
  · exact h
  · exact h
  · exact h
  · intro rest n
    obtain ⟨body, n₁, hb⟩ := hb (right :: rest) n
    exact ⟨false, .block body, n₁, by simpa using ReadsStmt.block hl hb hr⟩

theorem readsSymbol_of_production (s : Symbol) (us : List Token)
    (h : Matches ReadsSymbol s.production us) : ReadsSymbol s us := by
  cases s with
  | program =>
    obtain ⟨_, _, ⟨vss, hvss, rfl⟩, ⟨eof, heof, rfl⟩, rfl⟩ := h
    exact ⟨_, eof, rfl, heof, reads_declarations vss hvss⟩
  | declaration =>
    obtain h | h | ⟨kw, us, rfl, hkw, hv⟩ | h := h
    · exact h
    · exact h
    · intro rest n
      obtain ⟨s, n₁, hs⟩ := hv rest n
      exact ⟨s, n₁, .variable hkw hs⟩
    · intro rest n
      obtain ⟨isOpen, s, n₁, hs⟩ := h rest n
      exact ⟨s, n₁, .statement hs⟩
  | classDecl => exact reads_class h
  | funDecl =>
    obtain ⟨_, us, ⟨kw, hkw, rfl⟩, hf, rfl⟩ := h
    intro rest n
    obtain ⟨f, n₁, hf⟩ := hf rest n
    exact ⟨.function f, n₁, .function hkw hf⟩
  | function => exact reads_function h
  | parameters =>
    obtain ⟨_, _, ⟨name, hname, rfl⟩, ⟨vss, hlen, hvss, rfl⟩, rfl⟩ := h
    intro right rest hr
    exact reads_parameters vss hr hvss name hname 0 (by simp [maxArity] at hlen ⊢; omega)
  | varDecl => exact reads_variable h
  | statement => exact reads_statement h
  | exprStmt =>
    obtain ⟨us, _, hus, ⟨semi, hsemi, rfl⟩, rfl⟩ := h
    exact ⟨us, semi, rfl, hsemi, hus⟩
  | forStmt => exact reads_for h
  | ifStmt => exact reads_if h
  | printStmt =>
    obtain ⟨_, _, ⟨kw, hkw, rfl⟩, ⟨vs, _, hv, ⟨semi, hsemi, rfl⟩, rfl⟩, rfl⟩ := h
    intro rest n
    obtain ⟨e, n₁, he⟩ := hv (semi :: rest) n
    exact ⟨false, .print e, n₁, by simpa using ReadsStmt.print hkw he hsemi⟩
  | returnStmt =>
    obtain ⟨_, _, ⟨kw, hkw, rfl⟩, ⟨vs, _, hv, ⟨semi, hsemi, rfl⟩, rfl⟩, rfl⟩ := h
    intro rest n
    obtain ⟨v, n₁, hv⟩ := reads_option hv hsemi rest n
    exact ⟨false, .ret kw v, n₁, .ret hkw hv⟩
  | whileStmt => exact reads_while h
  | block =>
    obtain ⟨_, _, ⟨left, hl, rfl⟩, ⟨_, _, ⟨vss, hvss, rfl⟩, ⟨right, hr, rfl⟩, rfl⟩, rfl⟩ := h
    exact ⟨left, _, right, rfl, hl, hr, reads_declarations vss hvss⟩
  | expression => exact h
  | assignment => exact reads_assignment h
  | logicOr => exact reads_level (l := .disjunction) h
  | logicAnd => exact reads_level (l := .conjunction) h
  | equality => exact reads_level (l := .equality) h
  | comparison => exact reads_level (l := .comparison) h
  | term => exact reads_level (l := .term) h
  | factor => exact reads_level (l := .factor) h
  | unary => exact reads_unary h
  | call => exact reads_call h
  | arguments =>
    obtain ⟨vs, _, hv, ⟨vss, hlen, hvss, rfl⟩, rfl⟩ := h
    intro callee right hr
    exact reads_arguments vss hr hvss vs [] hv (by simp [maxArity] at hlen ⊢; omega)
  | primary => exact reads_primary h

end Readings

theorem derives_program_iff (ts : List Token) (n : Nat) :
    Derives (.symbol .program) (ts.map Token.kind ++ [.eof]) ↔
      ∃ ss n₁, ReadsDecls ts n ss [] n₁ := by
  constructor
  · intro h
    obtain ⟨vs, eof, hus, heof, hr⟩ := h.matches readsSymbol_of_production
      (ts ++ [⟨.eof, "", 0⟩]) (by simp)
    obtain ⟨rfl, -⟩ := List.append_inj' hus rfl
    simpa using hr [] n
  · rintro ⟨ss, n₁, h⟩
    obtain ⟨us, rfl, hus⟩ := h.takes
    rw [List.append_nil]
    exact .symbol (.seq hus (.terminal rfl))

end Treewalk.Grammar
