import Treewalk.Proofs.Grammar.Soundness.Statement
import Treewalk.Proofs.Scanning.Seams
import Treewalk.Session

namespace Treewalk

def Token.Spelled (t : Token) : Prop :=
  match t.kind with
  | .identifier => Keyword.ofWord? t.lexeme = none
  | .keyword k => t.lexeme = k.spelling
  | _ => True

def Token.IsName (t : Token) : Prop := Keyword.ofWord? t.lexeme = none

variable {t : Token} {k : Keyword}

theorem Token.Spelled.isName (h : t.Spelled) (hk : t.kind = .identifier) : t.IsName := by
  simpa [Spelled, IsName, hk] using h

theorem Token.Spelled.keyword (h : t.Spelled) (hk : t.kind = .keyword k) :
    t.lexeme = k.spelling := by
  simpa [Spelled, hk] using h

theorem Token.IsName.ne_spelling (h : t.IsName) (k : Keyword) : t.lexeme ≠ k.spelling := by
  intro he
  rw [IsName, he, Keyword.ofWord?_spelling] at h
  cases h

namespace Cut

theorem spelled_word (c : Char) (cs : List Char) (h : (word c cs).piece = .token kind) :
    Token.Spelled ⟨kind, String.ofList (word c cs).text, line⟩ := by
  simp only [word] at h ⊢
  cases h
  unfold wordKind
  split
  · next k hk =>
    have hmem := List.find?_some hk
    simpa [Token.Spelled] using (beq_iff_eq.mp hmem).symm
  · next hk => simpa [Token.Spelled] using hk

theorem first_eq_word_or (c : Char) (cs : List Char) : first c cs = word c cs ∨
    ∀ kind, (first c cs).piece = .token kind → kind ≠ .identifier ∧ ∀ k, kind ≠ .keyword k := by
  unfold first
  split
  · exact .inr fun kind h => by cases h
  split
  · refine .inr fun kind h => ?_
    unfold slash at h
    split at h <;> cases h
    simp
  split
  · refine .inr fun kind h => ?_
    simp only [string] at h
    split at h <;> cases h
    simp
  split
  · refine .inr fun kind h => ?_
    simp only [number] at h
    split at h
    · split at h <;> cases h <;> simp
    · cases h
      simp
  split
  · exact .inl rfl
  · refine .inr fun kind h => ?_
    split at h
    · cases h
      simp
    · unfold operator at h
      split at h <;> cases h <;> simp
    · cases h

theorem spelled_first (c : Char) (cs : List Char) (h : (first c cs).piece = .token kind) :
    Token.Spelled ⟨kind, String.ofList (first c cs).text, line⟩ := by
  obtain hw | hplain := first_eq_word_or c cs
  · rw [hw] at h ⊢
    exact spelled_word c cs h
  · obtain ⟨hi, hk⟩ := hplain kind h
    unfold Token.Spelled
    split
    · next h => exact absurd h hi
    · next k h => exact absurd h (hk k)
    · trivial

end Cut

theorem spelled_of_mem_scanFrom (line : Nat) (cs : List Char) (h : .token t ∈ scanFrom line cs) :
    t.Spelled := by
  obtain ⟨heof, -⟩ | ⟨c, ds, hp, ht⟩ := cut_of_mem_scanFrom h
  · simp [Token.Spelled, heof]
  · have hspelled : Token.Spelled ⟨t.kind, String.ofList (Cut.first c ds).text, t.line⟩ :=
      Cut.spelled_first c ds hp
    rwa [ht, String.ofList_toList] at hspelled

theorem spelled_of_mem_tokens (h : t ∈ (Scanned.ofSource source).tokens) : t.Spelled := by
  obtain ⟨item, hmem, hitem⟩ := List.mem_filterMap.mp h
  cases item with
  | token u =>
    cases hitem
    exact spelled_of_mem_scanFrom 1 _ hmem
  | fault => cases hitem

def Stmt.declared? : Stmt → Option Token
  | .var name _ | .classDecl name _ _ => some name
  | .function decl => some decl.name
  | _ => none

mutual

def Expr.Proper : Expr → Prop
  | .literal _ => True
  | .group e | .unary _ e | .get e _ => e.Proper
  | .binary l _ r | .logical l _ r | .set l _ r => l.Proper ∧ r.Proper
  | .name ref => ref.token.IsName
  | .assign ref e => ref.token.IsName ∧ e.Proper
  | .call callee _ args => callee.Proper ∧ Expr.ProperAll args
  | .receiver ref => ref.token.lexeme = Keyword.thisKw.spelling
  | .inherited ref _ => ref.token.lexeme = Keyword.superKw.spelling

def Expr.ProperAll : List Expr → Prop
  | [] => True
  | e :: es => e.Proper ∧ Expr.ProperAll es

end

def Expr.ProperOption : Option Expr → Prop
  | none => True
  | some e => e.Proper

mutual

def Stmt.Proper : Stmt → Prop
  | .expr e | .print e => e.Proper
  | .var name init => name.IsName ∧ Expr.ProperOption init
  | .block body => Stmt.ProperAll body
  | .ifThen c t => c.Proper ∧ t.Proper ∧ t.declared? = none
  | .ifElse c t e => c.Proper ∧ (t.Proper ∧ t.declared? = none) ∧ e.Proper ∧ e.declared? = none
  | .loop c body => c.Proper ∧ body.Proper ∧ body.declared? = none
  | .function decl => Stmt.ProperFunction decl
  | .ret _ v => Expr.ProperOption v
  | .classDecl name superclass methods => name.IsName ∧ Expr.ProperOption superclass ∧
      (∀ e ∈ superclass, ∃ ref, e = .name ref) ∧ Stmt.ProperMethods methods

def Stmt.ProperAll : List Stmt → Prop
  | [] => True
  | s :: ss => s.Proper ∧ Stmt.ProperAll ss

def Stmt.ProperFunction : FunctionDecl Stmt → Prop
  | ⟨name, params, body⟩ => name.IsName ∧ (∀ p ∈ params, p.IsName) ∧ Stmt.ProperAll body

def Stmt.ProperMethods : List (FunctionDecl Stmt) → Prop
  | [] => True
  | m :: ms => Stmt.ProperFunction m ∧ Stmt.ProperMethods ms

end

mutual

def Expr.refs : Expr → List Nat
  | .literal _ => []
  | .group e | .unary _ e | .get e _ => e.refs
  | .binary l _ r | .logical l _ r | .set l _ r => l.refs ++ r.refs
  | .name ref | .receiver ref | .inherited ref _ => [ref.id]
  | .assign ref e => e.refs ++ [ref.id]
  | .call callee _ args => callee.refs ++ Expr.refsAll args

def Expr.refsAll : List Expr → List Nat
  | [] => []
  | e :: es => e.refs ++ Expr.refsAll es

end

def Expr.refsOption : Option Expr → List Nat
  | none => []
  | some e => e.refs

mutual

def Stmt.refs : Stmt → List Nat
  | .expr e | .print e => e.refs
  | .var _ init => Expr.refsOption init
  | .block body => Stmt.refsAll body
  | .ifThen c t => c.refs ++ t.refs
  | .ifElse c t e => c.refs ++ (t.refs ++ e.refs)
  | .loop c body => c.refs ++ body.refs
  | .function decl => Stmt.refsFunction decl
  | .ret _ v => Expr.refsOption v
  | .classDecl _ superclass methods => Expr.refsOption superclass ++ Stmt.refsMethods methods

def Stmt.refsAll : List Stmt → List Nat
  | [] => []
  | s :: ss => s.refs ++ Stmt.refsAll ss

def Stmt.refsFunction : FunctionDecl Stmt → List Nat
  | ⟨_, _, body⟩ => Stmt.refsAll body

def Stmt.refsMethods : List (FunctionDecl Stmt) → List Nat
  | [] => []
  | m :: ms => Stmt.refsFunction m ++ Stmt.refsMethods ms

end

def Numbered (n n₁ : Nat) (ids : List Nat) : Prop := ids.Nodup ∧ ∀ i ∈ ids, n ≤ i ∧ i < n₁

namespace Numbered

theorem nil : Numbered n n₁ [] := ⟨.nil, nofun⟩

theorem single (h : n ≤ i) (h₁ : i < n₁) : Numbered n n₁ [i] :=
  ⟨by simp, fun _ hj => List.mem_singleton.mp hj ▸ ⟨h, h₁⟩⟩

theorem mono (h : Numbered n n₁ ids) (hn : m ≤ n) (hn₁ : n₁ ≤ m₁) : Numbered m m₁ ids :=
  ⟨h.1, fun i hi => ⟨Nat.le_trans hn (h.2 i hi).1, Nat.lt_of_lt_of_le (h.2 i hi).2 hn₁⟩⟩

theorem append (h : Numbered n n₁ a) (h₁ : Numbered n₁ n₂ b) (hn : n ≤ n₁) (hn₁ : n₁ ≤ n₂) :
    Numbered n n₂ (a ++ b) := by
  refine ⟨List.nodup_append.mpr ⟨h.1, h₁.1, fun i hi j hj => ?_⟩, fun i hi => ?_⟩
  · have hlt := (h.2 i hi).2
    have hle := (h₁.2 j hj).1
    omega
  · obtain hi | hi := List.mem_append.mp hi
    · exact ⟨(h.2 i hi).1, Nat.lt_of_lt_of_le (h.2 i hi).2 hn₁⟩
    · exact ⟨Nat.le_trans hn (h₁.2 i hi).1, (h₁.2 i hi).2⟩

theorem perm (h : Numbered n n₁ a) (hp : a.Perm b) : Numbered n n₁ b :=
  ⟨hp.nodup_iff.mp h.1, fun i hi => h.2 i (hp.mem_iff.mpr hi)⟩

end Numbered

theorem Expr.refsAll_append (es fs : List Expr) :
    Expr.refsAll (es ++ fs) = Expr.refsAll es ++ Expr.refsAll fs := by
  induction es with
  | nil => rfl
  | cons e es ih => simp [Expr.refsAll, ih]

theorem Expr.properAll_append (es fs : List Expr) :
    Expr.ProperAll (es ++ fs) ↔ Expr.ProperAll es ∧ Expr.ProperAll fs := by
  induction es with
  | nil => simp [Expr.ProperAll]
  | cons e es ih => simp [Expr.ProperAll, ih, and_assoc]

def Expr.Formed (n n₁ : Nat) (e : Expr) : Prop := e.Proper ∧ Numbered n n₁ e.refs

namespace Grammar

theorem formed_node (l : Level) (h : left.Formed n n₁) (h₁ : right.Formed n₁ n₂) (hn : n ≤ n₁)
    (hn₁ : n₁ ≤ n₂) : (l.node left op right).Formed n n₂ := by
  cases l <;> exact ⟨⟨h.1, h₁.1⟩, h.2.append h₁.2 hn hn₁⟩

def FormedPhrase (n : Nat) (e : Expr) (n₁ : Nat) : Phrase → Prop
  | .operands _ left | .suffixes left => ∀ n₀ ≤ n, left.Formed n₀ n → e.Formed n₀ n₁
  | .arguments callee before => ∀ n₀ ≤ n, ∀ right,
      (Expr.call callee right before).Formed n₀ n → e.Formed n₀ n₁
  | _ => e.Formed n n₁

theorem formed_operand {l : Level} (h : FormedPhrase n e n₁ l.operand) : e.Formed n n₁ := by
  cases l <;> exact h

theorem ReadsExpr.formed (h : ReadsExpr phrase ts n e rest n₁) (hts : ∀ t ∈ ts, t.Spelled) :
    n ≤ n₁ ∧ (∀ t ∈ rest, t.Spelled) ∧ FormedPhrase n e n₁ phrase := by
  induction h with
  | assignName hn heq _ ih =>
    rw [List.forall_mem_cons, List.forall_mem_cons] at hts
    obtain ⟨hle, hrest, hp, hnum⟩ := ih hts.2.2
    exact ⟨by omega, hrest, ⟨hts.1.isName hn, hp⟩,
      (hnum.mono (Nat.le_succ _) (Nat.le_refl _)).append (.single (Nat.le_refl _) (Nat.lt_succ_self _))
        (by omega) (Nat.le_succ _)⟩
  | assignProperty _ hdot hn heq _ iho ih =>
    obtain ⟨hle, hmid, ho, honum⟩ := iho hts
    rw [List.forall_mem_cons, List.forall_mem_cons, List.forall_mem_cons] at hmid
    obtain ⟨hle₁, hrest, hp, hnum⟩ := ih hmid.2.2.2
    exact ⟨by omega, hrest, ⟨ho, hp⟩, honum.append hnum hle hle₁⟩
  | value _ ih => exact ih hts
  | level _ _ ihl ih =>
    obtain ⟨hle, hmid, hl⟩ := ihl hts
    obtain ⟨hle₁, hrest, hs⟩ := ih hmid
    exact ⟨by omega, hrest, hs _ hle (formed_operand hl)⟩
  | noOperand => exact ⟨Nat.le_refl _, hts, fun _ _ h => h⟩
  | operand hop _ _ ihr ih =>
    rw [List.forall_mem_cons] at hts
    obtain ⟨hle, hmid, hr⟩ := ihr hts.2
    obtain ⟨hle₁, hrest, hs⟩ := ih hmid
    exact ⟨by omega, hrest, fun n₀ hn₀ hl => hs n₀ (by omega)
      (formed_node _ hl (formed_operand hr) hn₀ hle)⟩
  | operator hop _ ih =>
    rw [List.forall_mem_cons] at hts
    obtain ⟨hle, hrest, hp⟩ := ih hts.2
    exact ⟨hle, hrest, hp⟩
  | noOperator _ ih => exact ih hts
  | call _ _ ihp ih =>
    obtain ⟨hle, hmid, hp⟩ := ihp hts
    obtain ⟨hle₁, hrest, hs⟩ := ih hmid
    exact ⟨by omega, hrest, hs _ hle hp⟩
  | noSuffix => exact ⟨Nat.le_refl _, hts, fun _ _ h => h⟩
  | property _ _ _ ih =>
    rw [List.forall_mem_cons, List.forall_mem_cons] at hts
    obtain ⟨hle, hrest, hs⟩ := ih hts.2.2
    exact ⟨hle, hrest, fun n₀ hn₀ hc => hs n₀ hn₀ hc⟩
  | noArguments _ _ _ ih =>
    rw [List.forall_mem_cons, List.forall_mem_cons] at hts
    obtain ⟨hle, hrest, hs⟩ := ih hts.2.2
    refine ⟨hle, hrest, fun n₀ hn₀ hc => hs n₀ hn₀ ⟨⟨hc.1, trivial⟩, ?_⟩⟩
    simpa [Expr.refs, Expr.refsAll] using hc.2
  | arguments _ _ _ iha ih =>
    rw [List.forall_mem_cons] at hts
    obtain ⟨hle, hmid, ha⟩ := iha hts.2
    obtain ⟨hle₁, hrest, hs⟩ := ih hmid
    refine ⟨by omega, hrest, fun n₀ hn₀ hc => hs n₀ (by omega) (ha n₀ hn₀ ?_ ⟨⟨hc.1, trivial⟩, ?_⟩)⟩
    · assumption
    · simpa [Expr.refs, Expr.refsAll] using hc.2
  | argument _ _ _ _ iha ih =>
    obtain ⟨hle, hmid, ha⟩ := iha hts
    rw [List.forall_mem_cons] at hmid
    obtain ⟨hle₁, hrest, hs⟩ := ih hmid.2
    refine ⟨by omega, hrest, fun n₀ hn₀ right hc => hs n₀ (by omega) right ⟨⟨hc.1.1, ?_⟩, ?_⟩⟩
    · exact (Expr.properAll_append _ _).mpr ⟨hc.1.2, ha.1, trivial⟩
    · have h := hc.2.append ha.2 hn₀ hle
      simpa [Expr.refs, Expr.refsAll, Expr.refsAll_append] using h
  | lastArgument _ _ hr iha =>
    obtain ⟨hle, hmid, ha⟩ := iha hts
    rw [List.forall_mem_cons] at hmid
    refine ⟨hle, hmid.2, fun n₀ hn₀ right hc => ⟨⟨hc.1.1, ?_⟩, ?_⟩⟩
    · exact (Expr.properAll_append _ _).mpr ⟨hc.1.2, ha.1, trivial⟩
    · have h := hc.2.append ha.2 hn₀ hle
      simpa [Expr.refs, Expr.refsAll, Expr.refsAll_append] using h
  | literal _ => exact ⟨Nat.le_refl _, (List.forall_mem_cons.mp hts).2, trivial, .nil⟩
  | name hk =>
    rw [List.forall_mem_cons] at hts
    exact ⟨Nat.le_succ _, hts.2, hts.1.isName hk, .single (Nat.le_refl _) (Nat.lt_succ_self _)⟩
  | receiver hk =>
    rw [List.forall_mem_cons] at hts
    exact ⟨Nat.le_succ _, hts.2, hts.1.keyword hk, .single (Nat.le_refl _) (Nat.lt_succ_self _)⟩
  | inherited hk =>
    rw [List.forall_mem_cons, List.forall_mem_cons, List.forall_mem_cons] at hts
    exact ⟨Nat.le_succ _, hts.2.2.2, hts.1.keyword hk,
      .single (Nat.le_refl _) (Nat.lt_succ_self _)⟩
  | group _ _ _ ih =>
    rw [List.forall_mem_cons] at hts
    obtain ⟨hle, hmid, hp⟩ := ih hts.2
    exact ⟨hle, (List.forall_mem_cons.mp hmid).2, hp⟩

theorem ReadsOption.formed (h : ReadsOption mark ts n v rest n₁) (hts : ∀ t ∈ ts, t.Spelled) :
    n ≤ n₁ ∧ (∀ t ∈ rest, t.Spelled) ∧ Expr.ProperOption v ∧ Numbered n n₁ (Expr.refsOption v) := by
  cases h with
  | none => exact ⟨Nat.le_refl _, (List.forall_mem_cons.mp hts).2, trivial, .nil⟩
  | some h =>
    obtain ⟨hle, hmid, hp⟩ := h.formed hts
    exact ⟨hle, (List.forall_mem_cons.mp hmid).2, hp⟩

theorem ReadsVariable.formed (h : ReadsVariable ts n s rest n₁) (hts : ∀ t ∈ ts, t.Spelled) :
    n ≤ n₁ ∧ (∀ t ∈ rest, t.Spelled) ∧ s.Proper ∧ Numbered n n₁ s.refs := by
  cases h with
  | plain hname =>
    rw [List.forall_mem_cons, List.forall_mem_cons] at hts
    exact ⟨Nat.le_refl _, hts.2.2, ⟨hts.1.isName hname, trivial⟩, .nil⟩
  | initialized hname _ h =>
    rw [List.forall_mem_cons, List.forall_mem_cons] at hts
    obtain ⟨hle, hmid, hp, hnum⟩ := h.formed hts.2.2
    exact ⟨hle, (List.forall_mem_cons.mp hmid).2, ⟨hts.1.isName hname, hp⟩, hnum⟩

def FormedStart (n n₁ : Nat) : Option Stmt → Prop
  | none => n ≤ n₁
  | some s => s.Proper ∧ Numbered n n₁ s.refs

theorem ReadsStart.formed (h : ReadsStart ts n s rest n₁) (hts : ∀ t ∈ ts, t.Spelled) :
    n ≤ n₁ ∧ (∀ t ∈ rest, t.Spelled) ∧ FormedStart n n₁ s := by
  cases h with
  | none => exact ⟨Nat.le_refl _, (List.forall_mem_cons.mp hts).2, Nat.le_refl _⟩
  | «variable» _ h => exact h.formed (List.forall_mem_cons.mp hts).2
  | expression h =>
    obtain ⟨hle, hmid, hp⟩ := h.formed hts
    exact ⟨hle, (List.forall_mem_cons.mp hmid).2, hp⟩

theorem ReadsParameters.formed (h : ReadsParameters count ts names rest)
    (hts : ∀ t ∈ ts, t.Spelled) : (∀ t ∈ rest, t.Spelled) ∧ ∀ p ∈ names, p.IsName := by
  induction h with
  | last _ hname =>
    rw [List.forall_mem_cons, List.forall_mem_cons] at hts
    exact ⟨hts.2.2, fun p hp => List.mem_singleton.mp hp ▸ hts.1.isName hname⟩
  | more _ hname _ _ ih =>
    rw [List.forall_mem_cons, List.forall_mem_cons] at hts
    obtain ⟨hrest, hnames⟩ := ih hts.2.2
    exact ⟨hrest, List.forall_mem_cons.mpr ⟨hts.1.isName hname, hnames⟩⟩

theorem ReadsSignature.formed (h : ReadsSignature ts names rest) (hts : ∀ t ∈ ts, t.Spelled) :
    (∀ t ∈ rest, t.Spelled) ∧ ∀ p ∈ names, p.IsName := by
  cases h with
  | none => exact ⟨(List.forall_mem_cons.mp hts).2, nofun⟩
  | some h => exact h.formed hts

theorem ReadsSuperclass.formed (h : ReadsSuperclass ts n v rest n₁) (hts : ∀ t ∈ ts, t.Spelled) :
    n ≤ n₁ ∧ (∀ t ∈ rest, t.Spelled) ∧ Expr.ProperOption v ∧ (∀ e ∈ v, ∃ ref, e = .name ref) ∧
      Numbered n n₁ (Expr.refsOption v) := by
  cases h with
  | none => exact ⟨Nat.le_refl _, hts, trivial, nofun, .nil⟩
  | some _ hname =>
    rw [List.forall_mem_cons, List.forall_mem_cons] at hts
    refine ⟨Nat.le_succ _, hts.2.2, hts.2.1.isName hname, ?_,
      .single (Nat.le_refl _) (Nat.lt_succ_self _)⟩
    rintro _ ⟨⟩
    exact ⟨_, rfl⟩

theorem formed_started {main : Stmt} (hs : FormedStart n n₁ start) (hn : n ≤ n₁)
    (hm : main.Proper ∧ main.declared? = none ∧ Numbered n₁ n₂ main.refs) (hn₁ : n₁ ≤ n₂) :
    (match start with | none => main | some s => Stmt.block [s, main]).Proper ∧
      Numbered n n₂ (match start with | none => main | some s => Stmt.block [s, main]).refs := by
  cases start with
  | none => exact ⟨hm.1, hm.2.2.mono hn (Nat.le_refl _)⟩
  | some s =>
    refine ⟨⟨hs.1, hm.1, trivial⟩, ?_⟩
    simpa [Stmt.refs, Stmt.refsAll] using hs.2.append hm.2.2 hn hn₁

theorem formed_counting (hs : FormedStart n n₁ start) (hn : n ≤ n₁)
    (hc : Expr.ProperOption c ∧ Numbered n₁ n₂ (Expr.refsOption c)) (hn₁ : n₁ ≤ n₂)
    (hstep : Expr.ProperOption step ∧ Numbered n₂ n₃ (Expr.refsOption step)) (hn₂ : n₂ ≤ n₃)
    (hb : body.Proper ∧ body.declared? = none ∧ Numbered n₃ n₄ body.refs) (hn₃ : n₃ ≤ n₄) :
    (Stmt.counting start c step body).Proper ∧
      Numbered n n₄ (Stmt.counting start c step body).refs := by
  have hcond : (c.getD (.literal (.bool true))).Proper ∧
      Numbered n₁ n₂ (c.getD (.literal (.bool true))).refs := by
    cases c with
    | none => exact ⟨trivial, .nil⟩
    | some c => exact hc
  refine formed_started hs hn ⟨⟨hcond.1, ?_⟩, rfl, hcond.2.append ?_ hn₁ (by omega)⟩ (by omega)
  · cases step with
    | none => exact ⟨hb.1, hb.2.1⟩
    | some e => exact ⟨⟨hb.1, hstep.1, trivial⟩, rfl⟩
  · cases step with
    | none => exact hb.2.2.mono hn₂ (Nat.le_refl _)
    | some e =>
      -- the step is read before the body and stands after it
      have h := (hstep.2.append hb.2.2 hn₂ hn₃).perm List.perm_append_comm
      simpa [Stmt.refs, Stmt.refsAll, Expr.refsOption] using h

theorem ReadsStmt.declared?_eq_none (h : ReadsStmt isOpen ts n s rest n₁) : s.declared? = none := by
  cases h with
  | counting _ _ _ _ _ _ =>
    unfold Stmt.counting
    dsimp only
    split <;> rfl
  | _ => rfl

mutual

theorem ReadsStmt.formed : ReadsStmt isOpen ts n s rest n₁ → (∀ t ∈ ts, t.Spelled) →
    n ≤ n₁ ∧ (∀ t ∈ rest, t.Spelled) ∧ s.Proper ∧ Numbered n n₁ s.refs
  | .expression h _, hts => by
    obtain ⟨hle, hmid, hp⟩ := h.formed hts
    exact ⟨hle, (List.forall_mem_cons.mp hmid).2, hp⟩
  | .print _ h _, hts => by
    obtain ⟨hle, hmid, hp⟩ := h.formed (List.forall_mem_cons.mp hts).2
    exact ⟨hle, (List.forall_mem_cons.mp hmid).2, hp⟩
  | .ret _ h, hts => h.formed (List.forall_mem_cons.mp hts).2
  | .block _ h _, hts => by
    obtain ⟨hle, hmid, hp⟩ := ReadsDecls.formed h (List.forall_mem_cons.mp hts).2
    exact ⟨hle, (List.forall_mem_cons.mp hmid).2, hp⟩
  | .loop _ _ hc _ hb, hts => by
    rw [List.forall_mem_cons, List.forall_mem_cons] at hts
    obtain ⟨hle, hmid, hc⟩ := hc.formed hts.2.2
    obtain ⟨hle₁, hrest, hp, hnum⟩ := ReadsStmt.formed hb (List.forall_mem_cons.mp hmid).2
    exact ⟨by omega, hrest, ⟨hc.1, hp, hb.declared?_eq_none⟩, hc.2.append hnum hle hle₁⟩
  | .counting _ _ hs hc hstep hb, hts => by
    rw [List.forall_mem_cons, List.forall_mem_cons] at hts
    obtain ⟨hle, hts₁, hs⟩ := hs.formed hts.2.2
    obtain ⟨hle₁, hts₂, hc⟩ := hc.formed hts₁
    obtain ⟨hle₂, hts₃, hstep⟩ := hstep.formed hts₂
    obtain ⟨hle₃, hrest, hp, hnum⟩ := ReadsStmt.formed hb hts₃
    exact ⟨by omega, hrest, formed_counting hs hle hc hle₁ hstep hle₂
      ⟨hp, hb.declared?_eq_none, hnum⟩ hle₃⟩
  | .ifThen _ _ hc _ ht, hts => by
    rw [List.forall_mem_cons, List.forall_mem_cons] at hts
    obtain ⟨hle, hmid, hc⟩ := hc.formed hts.2.2
    obtain ⟨hle₁, hrest, hp, hnum⟩ := ReadsStmt.formed ht (List.forall_mem_cons.mp hmid).2
    exact ⟨by omega, hrest, ⟨hc.1, hp, ht.declared?_eq_none⟩, hc.2.append hnum hle hle₁⟩
  | .ifElse _ _ hc _ ht _ he, hts => by
    rw [List.forall_mem_cons, List.forall_mem_cons] at hts
    obtain ⟨hle, hmid, hc⟩ := hc.formed hts.2.2
    obtain ⟨hle₁, hmid₁, hp, hnum⟩ := ReadsStmt.formed ht (List.forall_mem_cons.mp hmid).2
    obtain ⟨hle₂, hrest, hp₁, hnum₁⟩ := ReadsStmt.formed he (List.forall_mem_cons.mp hmid₁).2
    exact ⟨by omega, hrest, ⟨hc.1, ⟨hp, ht.declared?_eq_none⟩, hp₁, he.declared?_eq_none⟩,
      hc.2.append (hnum.append hnum₁ hle₁ hle₂) hle (by omega)⟩

theorem ReadsDecl.formed : ReadsDecl ts n s rest n₁ → (∀ t ∈ ts, t.Spelled) →
    n ≤ n₁ ∧ (∀ t ∈ rest, t.Spelled) ∧ s.Proper ∧ Numbered n n₁ s.refs
  | .classDecl _ hname hs _ hm _, hts => by
    rw [List.forall_mem_cons, List.forall_mem_cons] at hts
    obtain ⟨hle, hmid, hp, href, hnum⟩ := hs.formed hts.2.2
    obtain ⟨hle₁, hmid₁, hp₁, hnum₁⟩ := ReadsMethods.formed hm (List.forall_mem_cons.mp hmid).2
    exact ⟨by omega, (List.forall_mem_cons.mp hmid₁).2, ⟨hts.2.1.isName hname, hp, href, hp₁⟩,
      hnum.append hnum₁ hle hle₁⟩
  | .function _ h, hts => ReadsFunction.formed h (List.forall_mem_cons.mp hts).2
  | .variable _ h, hts => h.formed (List.forall_mem_cons.mp hts).2
  | .statement h, hts => ReadsStmt.formed h hts

theorem ReadsDecls.formed : ReadsDecls ts n ss rest n₁ → (∀ t ∈ ts, t.Spelled) →
    n ≤ n₁ ∧ (∀ t ∈ rest, t.Spelled) ∧ Stmt.ProperAll ss ∧ Numbered n n₁ (Stmt.refsAll ss)
  | .nil, hts => ⟨Nat.le_refl _, hts, trivial, .nil⟩
  | .cons h hs, hts => by
    obtain ⟨hle, hmid, hp, hnum⟩ := ReadsDecl.formed h hts
    obtain ⟨hle₁, hrest, hp₁, hnum₁⟩ := ReadsDecls.formed hs hmid
    exact ⟨by omega, hrest, ⟨hp, hp₁⟩, hnum.append hnum₁ hle hle₁⟩

theorem ReadsFunction.formed : ReadsFunction ts n f rest n₁ → (∀ t ∈ ts, t.Spelled) →
    n ≤ n₁ ∧ (∀ t ∈ rest, t.Spelled) ∧ Stmt.ProperFunction f ∧
      Numbered n n₁ (Stmt.refsFunction f)
  | .mk hname _ hs _ hb _, hts => by
    rw [List.forall_mem_cons, List.forall_mem_cons] at hts
    obtain ⟨hmid, hparams⟩ := hs.formed hts.2.2
    obtain ⟨hle, hmid₁, hp, hnum⟩ := ReadsDecls.formed hb (List.forall_mem_cons.mp hmid).2
    cases f
    exact ⟨hle, (List.forall_mem_cons.mp hmid₁).2, ⟨hts.1.isName hname, hparams, hp⟩, hnum⟩

theorem ReadsMethods.formed : ReadsMethods ts n ms rest n₁ → (∀ t ∈ ts, t.Spelled) →
    n ≤ n₁ ∧ (∀ t ∈ rest, t.Spelled) ∧ Stmt.ProperMethods ms ∧
      Numbered n n₁ (Stmt.refsMethods ms)
  | .nil, hts => ⟨Nat.le_refl _, hts, trivial, .nil⟩
  | .cons h hs, hts => by
    obtain ⟨hle, hmid, hp, hnum⟩ := ReadsFunction.formed h hts
    obtain ⟨hle₁, hrest, hp₁, hnum₁⟩ := ReadsMethods.formed hs hmid
    exact ⟨by omega, hrest, ⟨hp, hp₁⟩, hnum.append hnum₁ hle hle₁⟩

end

end Grammar

theorem Session.formed_parse {s : Session} (h : (s.parse source).2.1 = []) :
    s.nextId ≤ (s.parse source).2.2.nextId ∧ Stmt.ProperAll (s.parse source).1 ∧
      Numbered s.nextId (s.parse source).2.2.nextId (Stmt.refsAll (s.parse source).1) := by
  have hf : (Cursor.ofTokens (Scanned.ofSource source).tokens s.nextId).program.2.faults = [] :=
    (List.append_eq_nil_iff.mp h).2
  have hr := Grammar.readsDecls_program (Cursor.eof_kind_ofTokens _ _) hf
  obtain ⟨hle, -, hp⟩ := hr.formed fun t ht =>
    spelled_of_mem_tokens (List.takeWhile_subset _ ht)
  exact ⟨hle, hp⟩

end Treewalk
