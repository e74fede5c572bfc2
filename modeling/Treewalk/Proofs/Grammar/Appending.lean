import Treewalk.Proofs.Grammar.Completeness.Statement
import Treewalk.Proofs.Grammar.Extension
import Treewalk.Proofs.Grammar.Indexed.Range
import Treewalk.Proofs.Session.Rejection

namespace Treewalk

open Grammar

namespace Parse

theorem program_mono {m m' : Nat} {c : Cursor} (h : Parse.program m c = .ok ss d) (hm : m ≤ m') :
    Parse.program m' c = .ok ss d := by
  induction m generalizing m' c ss d with
  | zero => cases h
  | succ m ih =>
    obtain ⟨m', rfl⟩ : ∃ k, m' = k + 1 := ⟨m' - 1, by omega⟩
    rw [Parse.program] at h ⊢
    split at h
    · next hr => rw [if_pos hr]; exact h
    · next hr =>
      rw [if_neg hr]
      cases hd : declaration c.fuel c with
      | error => rw [hd] at h; cases h
      | ok s c₁ =>
        rw [hd] at h
        dsimp only at h ⊢
        cases hp : Parse.program m c₁ with
        | error => rw [hp] at h; cases h
        | ok ss₁ c₂ =>
          rw [hp] at h
          rw [ih hp (by omega)]
          exact h

theorem program_of_prefix {m : Nat} (h : ReadsDecls ts n ss rest n₁)
    (hrest : ∀ t ∈ rest.head?, t.kind ≠ .keyword .elseKw)
    (hp : Parse.program m ⟨rest, eof, n₁, fs⟩ = .ok ss₁ d) :
    Parse.program (ts.length + m) ⟨ts, eof, n, fs⟩ = .ok (ss ++ ss₁) d := by
  induction hk : ts.length using Nat.strong_induction_on generalizing ts n ss with
  | _ k ih =>
    subst hk
    cases h with
    | nil => exact program_mono hp (Nat.le_add_left _ _)
    | @cons _ _ s mid n₂ ss _ _ h hs =>
      have hlt := h.length_lt
      have hd := @ReadsDecl.parses eof fs _ _ _ _ _ h _ (Nat.le_refl _) (hs.head_ne_else hrest)
      have hmore := ih _ hlt hs rfl
      obtain ⟨t, tail, rfl, -⟩ := h.opens
      rw [List.length_cons] at hlt ⊢
      rw [show tail.length + 1 + m = (tail.length + m) + 1 by omega, Parse.program]
      simp only [List.isEmpty_cons, Bool.false_eq_true, if_false, Cursor.fuel, hd,
        program_mono hmore (show mid.length + m ≤ tail.length + m by omega)]
      rfl

end Parse

theorem readProgram_of_prefix (h : ReadsDecls ts n ss rest n₁)
    (hrest : ∀ t ∈ rest.head?, t.kind ≠ .keyword .elseKw) (he : eof.kind = .eof) :
    (Cursor.mk ts eof n fs).program =
      (ss ++ (Cursor.mk rest eof n₁ fs).program.1, (Cursor.mk rest eof n₁ fs).program.2) := by
  obtain ⟨ss₁, d, hp, -⟩ := Grammar.program_ok (c := ⟨rest, eof, n₁, fs⟩) he (Nat.lt_succ_self _)
  obtain ⟨ss₂, d₂, hp₂, -⟩ := Grammar.program_ok (c := ⟨ts, eof, n, fs⟩) he (Nat.lt_succ_self _)
  have hlong := Parse.program_of_prefix h hrest hp
  rw [Parse.program_mono hp₂ (by dsimp only; omega)] at hlong
  cases hlong
  simp only [Cursor.program, Cursor.fuel]
  dsimp only at hp hp₂
  rw [hp, hp₂]

theorem rest_ofTokens (ha : ∀ t ∈ a, t.kind ≠ .eof) (n : Nat) : (Cursor.ofTokens a n).rest = a :=
  List.takeWhile_eq_self_iff.mpr (by simpa using ha)

theorem ofTokens_append {a b : List Token} (ha : ∀ t ∈ a, t.kind ≠ .eof) (hb : b ≠ [])
    (n m : Nat) : Cursor.ofTokens (a ++ b) n =
      ⟨a ++ (Cursor.ofTokens b m).rest, (Cursor.ofTokens b m).eof, n, []⟩ := by
  have hnone : a.find? (·.kind = .eof) = none := by simpa using ha
  have hall : ∀ t ∈ a, decide (t.kind ≠ .eof) = true := by simpa using ha
  simp only [Cursor.ofTokens, List.find?_append, hnone, Option.none_or,
    List.takeWhile_append_of_pos hall, List.getLast?_append_of_ne_nil _ hb]

theorem head_ofTokens (hb : ∀ t ∈ b.head?, t.kind ≠ kind) (n : Nat) :
    ∀ t ∈ (Cursor.ofTokens b n).rest.head?, t.kind ≠ kind := by
  intro t ht
  rw [Cursor.ofTokens, List.head?_takeWhile] at ht
  exact hb t (Option.mem_filter_iff.mp ht).1

theorem alike_program_ofTokens (ts : List Token) (m n : Nat) :
    Stmt.AlikeAll .exact (.shift m n) [] (Cursor.ofTokens ts m).program.1
        (Cursor.ofTokens ts n).program.1 ∧
      (Cursor.ofTokens ts n).program.2.faults = (Cursor.ofTokens ts m).program.2.faults ∧
      (Cursor.ofTokens ts n).program.2.nextId = n + ((Cursor.ofTokens ts m).program.2.nextId - m) := by
  have hc : (Cursor.ofTokens ts m).Alike .exact (.shift m n) (Cursor.ofTokens ts n) :=
    ⟨List.forall₂_same.mpr fun _ _ => rfl, rfl, .nil, fun k => ⟨none, k, rfl, rfl⟩⟩
  obtain ⟨hs, hd⟩ := Cursor.alike_program Wording.IsPlain.exact.toKeepsNames hc
  obtain ⟨-, k, hk, hk'⟩ := hd.numbers 0
  exact ⟨hs [], Wording.eq_of_forall₂ Wording.sameFault_eq hd.faults, by omega⟩

theorem program_ofTokens_append (ha : ∀ t ∈ a, t.kind ≠ .eof)
    (hb : ∀ t ∈ b.head?, t.kind ≠ .keyword .elseKw)
    (hclean : (Cursor.ofTokens a n).program.2.faults = []) :
    (Cursor.ofTokens (a ++ b) n).program.1 = (Cursor.ofTokens a n).program.1 ++
        (Cursor.ofTokens b (Cursor.ofTokens a n).program.2.nextId).program.1 ∧
      (Cursor.ofTokens (a ++ b) n).program.2.faults =
        (Cursor.ofTokens b (Cursor.ofTokens a n).program.2.nextId).program.2.faults := by
  by_cases hne : b = []
  · subst hne
    rw [List.append_nil, hclean]
    exact ⟨(List.append_nil _).symm, rfl⟩
  have hreads := readsDecls_program (Cursor.eof_kind_ofTokens a n) hclean
  rw [rest_ofTokens ha] at hreads
  generalize (Cursor.ofTokens a n).program.2.nextId = n₁ at hreads ⊢
  have hlong := hreads.extend (Cursor.ofTokens b n₁).rest
  have hprogram : (Cursor.mk _ (Cursor.ofTokens b n₁).eof n []).program = _ :=
    readProgram_of_prefix hlong (head_ofTokens hb n₁) (Cursor.eof_kind_ofTokens b n₁)
  rw [ofTokens_append ha hne n n₁]
  exact ⟨congrArg Prod.fst hprogram, congrArg (·.2.faults) hprogram⟩

namespace Parser

variable {p q r : Parser} {ts a b : List Token}

def Parses (ts : List Token) (nextId : Nat) (ss : List Stmt) (p : Parser) : Prop :=
  Returns (fun depth => Call.run depth (new ts nextId) .parse) (.program ss, p)

theorem Returns.unique {o : Nat → Option β} {x y : β} (h : Returns o x) (h' : Returns o y) :
    x = y := by
  obtain ⟨least, h⟩ := h
  obtain ⟨least', h'⟩ := h'
  exact Option.some.inj ((h (max least least') (Nat.le_max_left _ _)).symm.trans
    (h' _ (Nat.le_max_right _ _)))

theorem Parses.program (h : Parses ts n ss p) : ss = (Cursor.ofTokens ts n).program.1 ∧
    p.faults = (Cursor.ofTokens ts n).program.2.faults ∧
    p.nextId = (Cursor.ofTokens ts n).program.2.nextId := by
  obtain ⟨p', hp, hf, hn⟩ := parse_new ts n
  have heq := h.unique hp
  simp only [Prod.mk.injEq, Answer.program.injEq] at heq
  obtain ⟨rfl, rfl⟩ := heq
  exact ⟨rfl, hf, hn⟩

/-- What is parsed without a fault is a prefix that does not matter to what follows. The statements
are those of both parts, up to the numbers of their names, and the faults are those of the second. -/
theorem parses_append (ha : ∀ t ∈ a, t.kind ≠ .eof)
    (hb : ∀ t ∈ b.head?, t.kind ≠ .keyword .elseKw) (h : Parses a na ssa p) (hp : p.faults = [])
    (nb n : Nat) : ∃ ssb q ssa' ssb' r, Parses b nb ssb q ∧
      Parses (a ++ b) n (ssa' ++ ssb') r ∧ r.faults = q.faults ∧
      Stmt.AlikeAll .exact (.shift na n) [] ssa ssa' ∧
      Stmt.AlikeAll .exact (.shift nb (n + (p.nextId - na))) [] ssb ssb' := by
  obtain ⟨rfl, hf, hn⟩ := h.program
  obtain ⟨q, hq, hqf, -⟩ := parse_new b nb
  obtain ⟨r, hr, hrf, -⟩ := parse_new (a ++ b) n
  obtain ⟨hsa, hfa, hna⟩ := alike_program_ofTokens a na n
  rw [← hn] at hna
  obtain ⟨hsb, hfb, -⟩ := alike_program_ofTokens b nb (n + (p.nextId - na))
  obtain ⟨hss, hfs⟩ := program_ofTokens_append ha hb (hfa.trans (hf.symm.trans hp))
  rw [hna] at hss hfs
  rw [hss] at hr
  exact ⟨_, q, _, _, r, hq, hr, hrf.trans (hfs.trans (hfb.trans hqf.symm)), hsa, hsb⟩

theorem parses_append_broken :
    let a : List Token := [⟨.keyword .ifKw, "if", 1⟩, ⟨.punct .leftParen, "(", 1⟩,
      ⟨.identifier, "x", 1⟩, ⟨.punct .rightParen, ")", 1⟩, ⟨.keyword .printKw, "print", 1⟩,
      ⟨.identifier, "x", 1⟩, ⟨.punct .semicolon, ";", 1⟩]
    let b : List Token := [⟨.keyword .printKw, "print", 2⟩, ⟨.punct .semicolon, ";", 2⟩,
      ⟨.identifier, "x", 3⟩, ⟨.punct .semicolon, ";", 3⟩]
    ∃ ssa p, Parses a 3 ssa p ∧ p.faults = [] ∧ ∃ ssb q ssa' ssb' r, Parses b 0 ssb q ∧
      Parses (a ++ b) 7 (ssa' ++ ssb') r ∧ r.faults = q.faults ∧
      Stmt.AlikeAll .exact (.shift 3 7) [] ssa ssa' ∧
      Stmt.AlikeAll .exact (.shift 0 (7 + (p.nextId - 3))) [] ssb ssb' := by
  intro a b
  obtain ⟨p, h, hf, -⟩ := parse_new a 3
  have hp : p.faults = [] := hf.trans (by decide +kernel)
  exact ⟨_, p, h, hp, parses_append (by decide) (by decide) h hp 0 7⟩

end Parser

end Treewalk
