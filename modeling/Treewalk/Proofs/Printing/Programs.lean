import Treewalk.Proofs.Grammar.Derivation
import Treewalk.Proofs.Grammar.Soundness.Statement
import Treewalk.Proofs.Printing.Statements

namespace Treewalk

namespace Grammar

theorem Takes.subset (h : Takes a ts rest) : rest ⊆ ts := by
  obtain ⟨us, rfl, -⟩ := h
  exact List.subset_append_right us rest

theorem ReadsExpr.subset (h : ReadsExpr phrase ts n e rest n₁) : rest ⊆ ts := by
  have htakes := h.takes
  cases phrase with
  | arguments =>
    obtain ⟨-, right, -, htakes⟩ := htakes
    exact List.Subset.trans (List.subset_cons_self right rest) htakes.subset
  | _ => exact Takes.subset htakes

def Legible (ts : List Token) : Prop := ∀ t ∈ ts, t.Legible

theorem Legible.mono (h : Legible ts) (hs : rest ⊆ ts) : Legible rest := fun t ht => h t (hs ht)

theorem legible_cons : Legible (t :: ts) ↔ t.Legible ∧ Legible ts := List.forall_mem_cons

def ReadablePhrase (e : Expr) : Phrase → Prop
  | .operands _ left | .suffixes left => left.Readable → e.Readable
  | .arguments callee before => callee.Readable → (∀ a ∈ before, a.Readable) → e.Readable
  | _ => e.Readable

theorem readable_operand {l : Level} (h : ReadablePhrase e l.operand) : e.Readable := by
  cases l <;> exact h

theorem forall_readable_append {before : List Expr} (hb : ∀ b ∈ before, b.Readable)
    (ha : a.Readable) : ∀ b ∈ before ++ [a], b.Readable := by
  intro b hmem
  obtain hmem | hmem := List.mem_append.mp hmem
  · exact hb b hmem
  · exact List.mem_singleton.mp hmem ▸ ha

theorem ReadsExpr.readable (h : ReadsExpr phrase ts n e rest n₁) (hts : Legible ts) :
    ReadablePhrase e phrase := by
  induction h with
  | assignName hk _ _ ih =>
    rw [legible_cons, legible_cons] at hts
    exact .assign hts.1 hk (ih hts.2.2)
  | assignProperty ho _ hk _ _ iho ih =>
    have hmid := hts.mono ho.subset
    rw [legible_cons, legible_cons, legible_cons] at hmid
    exact .set (iho hts) hmid.2.1 hk (ih hmid.2.2.2)
  | value _ ih => exact ih hts
  | level hl _ ihl ih => exact ih (hts.mono hl.subset) (readable_operand (ihl hts))
  | noOperand => exact id
  | operand hop hr _ ihr ih =>
    rw [legible_cons] at hts
    exact fun hl => ih (hts.2.mono hr.subset)
      (.node hts.1 hop hl (readable_operand (ihr hts.2)))
  | operator hop _ ih =>
    rw [legible_cons] at hts
    exact .unary hts.1 hop (ih hts.2)
  | noOperator _ ih => exact ih hts
  | call hp _ ihp ih => exact ih (hts.mono hp.subset) (ihp hts)
  | noSuffix => exact id
  | property _ hk _ ih =>
    rw [legible_cons, legible_cons] at hts
    exact fun hc => ih hts.2.2 (.get hc hts.2.1 hk)
  | noArguments _ hk _ ih =>
    rw [legible_cons, legible_cons] at hts
    exact fun hc => ih hts.2.2 (.call hc hts.2.1 hk nofun)
  | arguments _ ha _ iha ih =>
    rw [legible_cons] at hts
    exact fun hc => ih (hts.2.mono ha.subset) (iha hts.2 hc nofun)
  | argument _ ha _ _ iha ih =>
    have hmid := legible_cons.mp (hts.mono ha.subset)
    exact fun hc hb => ih hmid.2 hc (forall_readable_append hb (iha hts))
  | lastArgument _ ha hk iha =>
    have hmid := legible_cons.mp (hts.mono ha.subset)
    exact fun hc hb => .call hc hmid.1 hk (forall_readable_append hb (iha hts))
  | literal hv => exact .literal (legible_cons.mp hts).1 hv
  | name hk => exact .name (legible_cons.mp hts).1 hk
  | receiver hk => exact .receiver (legible_cons.mp hts).1 hk
  | inherited hk _ hk' =>
    rw [legible_cons, legible_cons, legible_cons] at hts
    exact .inherited hts.1 hk hts.2.2.1 hk'
  | group _ _ _ ih => exact .group (ih (legible_cons.mp hts).2)

theorem ReadsOption.readable (h : ReadsOption mark ts n v rest n₁) (hts : Legible ts) :
    ∀ e ∈ v, e.Readable := by
  cases h with
  | none => nofun
  | some h =>
    rintro _ ⟨⟩
    exact h.readable hts

theorem ReadsOption.subset (h : ReadsOption mark ts n v rest n₁) : rest ⊆ ts := by
  obtain ⟨mid, hv, hm⟩ := h.takes
  exact List.Subset.trans hm.subset hv.subset

theorem ReadsVariable.readable (h : ReadsVariable ts n s rest n₁) (hts : Legible ts) :
    s.Readable := by
  cases h with
  | plain hk => exact .var (legible_cons.mp hts).1 hk nofun
  | initialized hk _ h =>
    rw [legible_cons, legible_cons] at hts
    refine .var hts.1 hk ?_
    rintro _ ⟨⟩
    exact h.readable hts.2.2

theorem ReadsStart.readable (h : ReadsStart ts n s rest n₁) (hts : Legible ts) :
    ∀ s' ∈ s, s'.Readable := by
  cases h with
  | none => nofun
  | «variable» _ h =>
    rintro _ ⟨⟩
    exact h.readable (legible_cons.mp hts).2
  | expression h =>
    rintro _ ⟨⟩
    exact .expr (h.readable hts)

theorem ReadsParameters.readable (h : ReadsParameters count ts names rest) (hts : Legible ts) :
    ∀ p ∈ names, p.Legible ∧ p.kind = .identifier := by
  induction h with
  | last _ hk => exact fun p hp => List.mem_singleton.mp hp ▸ ⟨(legible_cons.mp hts).1, hk⟩
  | more _ hk _ _ ih =>
    rw [legible_cons, legible_cons] at hts
    exact List.forall_mem_cons.mpr ⟨⟨hts.1, hk⟩, ih hts.2.2⟩

theorem ReadsSignature.readable (h : ReadsSignature ts names rest) (hts : Legible ts) :
    ∀ p ∈ names, p.Legible ∧ p.kind = .identifier := by
  cases h with
  | none => nofun
  | some h => exact h.readable hts

theorem ReadsSignature.subset (h : ReadsSignature ts names rest) : rest ⊆ ts := by
  obtain ⟨mid, hparams, hr⟩ := h.takes
  exact List.Subset.trans hr.subset hparams.subset

theorem ReadsSuperclass.readable (h : ReadsSuperclass ts n v rest n₁) (hts : Legible ts) :
    ∀ e ∈ v, e.Readable := by
  cases h with
  | none => nofun
  | some _ hk =>
    rw [legible_cons, legible_cons] at hts
    rintro _ ⟨⟩
    exact .name hts.2.1 hk

theorem readable_counting {start : Option Stmt} {condition step : Option Expr}
    (hs : ∀ s ∈ start, s.Readable) (hc : ∀ e ∈ condition, e.Readable)
    (hstep : ∀ e ∈ step, e.Readable) (hb : body.Readable) :
    (Stmt.counting start condition step body).Readable := by
  have htrue : (Expr.literal (.bool true)).Readable :=
    fun _ => ⟨Term.isWord_keyword .trueKw, Expr.ofTerm_keyword .trueKw nofun⟩
  have hcondition : (condition.getD (.literal (.bool true))).Readable := by
    cases condition with
    | none => exact htrue
    | some e => exact hc e rfl
  have hpair {s t : Stmt} (hs : s.Readable) (ht : t.Readable) : (Stmt.block [s, t]).Readable :=
    .block (Stmt.readableAll_cons hs (Stmt.readableAll_cons ht Stmt.readableAll_nil))
  cases start with
  | none =>
    cases step with
    | none => exact .loop hcondition hb
    | some e => exact .loop hcondition (hpair hb (.expr (hstep e rfl)))
  | some s =>
    cases step with
    | none => exact hpair (hs s rfl) (.loop hcondition hb)
    | some e => exact hpair (hs s rfl) (.loop hcondition (hpair hb (.expr (hstep e rfl))))

mutual

theorem ReadsStmt.readable : ReadsStmt isOpen ts n s rest n₁ → Legible ts → s.Readable
  | .expression h _, hts => .expr (h.readable hts)
  | .print _ h _, hts => .print (h.readable (legible_cons.mp hts).2)
  | .ret hk h, hts => .ret (legible_cons.mp hts).1 hk (h.readable (legible_cons.mp hts).2)
  | .block _ h _, hts => .block (ReadsDecls.readable h (legible_cons.mp hts).2)
  | .loop _ _ hc _ hb, hts => by
    rw [legible_cons, legible_cons] at hts
    have hmid := legible_cons.mp (hts.2.2.mono hc.subset)
    exact .loop (hc.readable hts.2.2) (ReadsStmt.readable hb hmid.2)
  | .counting _ _ hs hc hstep hb, hts => by
    rw [legible_cons, legible_cons] at hts
    have hts₁ := hts.2.2.mono hs.takes.subset
    have hts₂ := hts₁.mono hc.subset
    have hts₃ := hts₂.mono hstep.subset
    exact readable_counting (hs.readable hts.2.2) (hc.readable hts₁) (hstep.readable hts₂)
      (ReadsStmt.readable hb hts₃)
  | .ifThen _ _ hc _ ht, hts => by
    rw [legible_cons, legible_cons] at hts
    have hmid := legible_cons.mp (hts.2.2.mono hc.subset)
    exact .ifThen (hc.readable hts.2.2) (ReadsStmt.readable ht hmid.2)
  | .ifElse _ _ hc _ ht _ he, hts => by
    rw [legible_cons, legible_cons] at hts
    have hmid := legible_cons.mp (hts.2.2.mono hc.subset)
    have hmid₁ := legible_cons.mp (hmid.2.mono ht.takes.subset)
    exact .ifElse (hc.readable hts.2.2) (ReadsStmt.readable ht hmid.2)
      (ReadsStmt.readable he hmid₁.2)

theorem ReadsDecl.readable : ReadsDecl ts n s rest n₁ → Legible ts → s.Readable
  | .classDecl _ hk hs _ hm _, hts => by
    rw [legible_cons, legible_cons] at hts
    have hmid := legible_cons.mp (hts.2.2.mono hs.takes.subset)
    exact .classDecl hts.2.1 hk (hs.readable hts.2.2) (ReadsMethods.readable hm hmid.2)
  | .function _ h, hts => (ReadsFunction.readable h (legible_cons.mp hts).2).function
  | .variable _ h, hts => h.readable (legible_cons.mp hts).2
  | .statement h, hts => ReadsStmt.readable h hts

theorem ReadsDecls.readable : ReadsDecls ts n ss rest n₁ → Legible ts → Stmt.ReadableAll ss
  | .nil, _ => Stmt.readableAll_nil
  | .cons h hs, hts =>
    Stmt.readableAll_cons (ReadsDecl.readable h hts)
      (ReadsDecls.readable hs (hts.mono h.takes.subset))

theorem ReadsFunction.readable : ReadsFunction ts n f rest n₁ → Legible ts → f.Readable
  | .mk hk _ hs _ hb _, hts => by
    rw [legible_cons, legible_cons] at hts
    have hmid := legible_cons.mp (hts.2.2.mono hs.subset)
    exact ⟨⟨hts.1, hk⟩, hs.readable hts.2.2, ReadsDecls.readable hb hmid.2⟩

theorem ReadsMethods.readable : ReadsMethods ts n ms rest n₁ → Legible ts →
    Stmt.ReadableMethods ms
  | .nil, _ => Stmt.readableMethods_nil
  | .cons h hs, hts =>
    (ReadsFunction.readable h hts).cons (ReadsMethods.readable hs (hts.mono h.takes.subset))

end

end Grammar

theorem legible_of_mem_code (h : t ∈ (Scanned.ofSource source).code) : t.Legible :=
  legible_of_mem_scanFrom (Scanned.mem_tokens.mp (Scanned.mem_tokens_of_mem_code h))
    (Scanned.ne_eof_of_mem_code h)

def Cursor.ofSource (source : String) (nextId : Nat) : Cursor :=
  .ofTokens (Scanned.ofSource source).tokens nextId

theorem Stmt.readableAll_program {source : String} {nextId : Nat}
    (h : (Cursor.ofSource source nextId).program.2.faults = []) :
    Stmt.ReadableAll (Cursor.ofSource source nextId).program.1 :=
  (Grammar.readsDecls_program (Cursor.eof_kind_ofTokens _ nextId) h).readable
    fun _ ht => legible_of_mem_code ht

theorem Stmt.ReadableAll.unplaced_inj {ss ss' : List Stmt} (h : ReadableAll ss)
    (h' : ReadableAll ss') (hplain : ∀ v ∈ literalsAll ss, v.isPlain)
    (hplain' : ∀ v ∈ literalsAll ss', v.isPlain) (he : ss.map render = ss'.map render) :
    ss.map unplaced = ss'.map unplaced := by
  obtain ⟨hclean, hterms⟩ := h hplain
  obtain ⟨hclean', hterms'⟩ := h' hplain'
  rw [← map_text_terms, ← map_text_terms] at he
  rw [Term.map_text_inj _ _ hclean hclean' he, hterms', Option.some.injEq] at hterms
  rw [← unplacedAll_eq_map, ← unplacedAll_eq_map, hterms]

/-- Programs are told apart by what they are printed as: if the statements of two of them, in which
there are no strings and no numbers but finite ones, are printed alike, one by one, they are the
same but for the numbers of occurrences and the lines of tokens. -/
theorem printed_programs_agree (source source' : String) (nextId nextId' : Nat)
    (hread : (Cursor.ofSource source nextId).program.2.faults = [])
    (hread' : (Cursor.ofSource source' nextId').program.2.faults = [])
    (hplain : ∀ v ∈ Stmt.literalsAll (Cursor.ofSource source nextId).program.1, v.isPlain)
    (hplain' : ∀ v ∈ Stmt.literalsAll (Cursor.ofSource source' nextId').program.1, v.isPlain)
    (hprint : (Cursor.ofSource source nextId).program.1.map Stmt.render =
      (Cursor.ofSource source' nextId').program.1.map Stmt.render) :
    (Cursor.ofSource source nextId).program.1.map Stmt.unplaced =
      (Cursor.ofSource source' nextId').program.1.map Stmt.unplaced :=
  (Stmt.readableAll_program hread).unplaced_inj (Stmt.readableAll_program hread') hplain hplain'
    hprint

def tightSource : String := "print a.b = f(nil) - 1;"

def looseSource : String := "print a . b =\n  f(nil) - 1.0;"

theorem printed_programs_agree_lines :
    (Cursor.ofSource tightSource 0).program.1.map Stmt.render =
      ["(print (= (. a b) (- (call f nil) 1.0)))"] ∧
    (Cursor.ofSource tightSource 0).program.1.map Stmt.unplaced =
      (Cursor.ofSource looseSource 7).program.1.map Stmt.unplaced :=
  ⟨by decide +kernel, printed_programs_agree tightSource looseSource 0 7
    (List.isEmpty_iff.mp (by decide +kernel)) (List.isEmpty_iff.mp (by decide +kernel))
    (by decide +kernel) (by decide +kernel) (by decide +kernel)⟩

end Treewalk
