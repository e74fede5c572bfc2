import Treewalk.Proofs.Scanning.Seams

namespace Treewalk

namespace Cut

def Apart (rest : List Char) : Prop := rest = [] ∨ ∃ more, rest = ' ' :: more

theorem Apart.parts {rest : List Char} (h : Apart rest) (before : List Char) :
    Parts before rest := by
  obtain rfl | ⟨more, rfl⟩ := h
  · exact ⟨fun _ _ _ => rfl, fun _ => rfl⟩
  · refine ⟨fun p hp _ => ?_, fun _ => rfl⟩
    simp only [extensions, List.mem_cons, List.not_mem_nil, or_false] at hp
    obtain rfl | rfl | rfl | rfl := hp <;> rfl

end Cut

open Cut

def Token.Legible (t : Token) : Prop :=
  ∃ c cs, (first c cs).piece = .token t.kind ∧ (first c cs).text = t.lexeme.toList

theorem legible_of_mem_scanFrom (h : .token t ∈ scanFrom line cs) (ht : t.kind ≠ .eof) :
    t.Legible :=
  (cut_of_mem_scanFrom h).resolve_left fun he => ht he.1

theorem scanFrom_lexeme {t : Token} (ht : t.Legible) {rest : List Char} (hr : Apart rest)
    (line : Nat) :
    ∃ after, scanFrom line (t.lexeme.toList ++ rest) =
      .token { t with line := after } :: scanFrom after rest := by
  obtain ⟨c, cs, hp, htext⟩ := ht
  refine ⟨line + t.lexeme.toList.count '\n', ?_⟩
  have h : scanFrom line ((first c cs).text ++ rest) = _ :=
    scanFrom_before (by simp [hp]) (hr.parts _) (by simp [hp])
  rw [item?, hp, htext, String.ofList_toList] at h
  exact h

theorem scanFrom_space (line : Nat) (cs : List Char) :
    scanFrom line (' ' :: cs) = scanFrom line cs := by
  rw [scanFrom]
  rfl

def Token.SameText (t t' : Token) : Prop := t'.kind = t.kind ∧ t'.lexeme = t.lexeme

theorem scanFrom_lexemes (ts : List Token) (hts : ∀ t ∈ ts, t.Legible) (line : Nat) :
    ∃ (ts' : List Token) (last : Nat),
      scanFrom line (" ".intercalate (ts.map Token.lexeme)).toList =
        ts'.map .token ++ [.token ⟨.eof, "", last⟩] ∧ List.Forall₂ Token.SameText ts ts' := by
  induction ts generalizing line with
  | nil =>
    refine ⟨[], line, ?_, .nil⟩
    rw [List.map_nil, String.intercalate_nil, String.toList_empty, scanFrom]
    rfl
  | cons t ts ih =>
    obtain ⟨ht, hts⟩ := List.forall_mem_cons.mp hts
    cases ts with
    | nil =>
      obtain ⟨after, hscan⟩ := scanFrom_lexeme ht (.inl rfl) line
      rw [List.append_nil, scanFrom] at hscan
      refine ⟨[{ t with line := after }], after, ?_, .cons ⟨rfl, rfl⟩ .nil⟩
      rw [List.map_singleton, String.intercalate_singleton, hscan]
      rfl
    | cons next ts =>
      have htext : (" ".intercalate ((t :: next :: ts).map Token.lexeme)).toList =
          t.lexeme.toList ++ ' ' :: (" ".intercalate ((next :: ts).map Token.lexeme)).toList := by
        rw [List.map_cons, List.map_cons, String.intercalate_cons_cons]
        simp
      obtain ⟨after, hfirst⟩ := scanFrom_lexeme ht (.inr ⟨_, rfl⟩) line
      obtain ⟨ts', last, hrest, hsame⟩ := ih hts after
      refine ⟨{ t with line := after } :: ts', last, ?_, .cons ⟨rfl, rfl⟩ hsame⟩
      rw [htext, hfirst, scanFrom_space, hrest]
      rfl

def Scanned.words (scanned : Scanned) : List Token := scanned.tokens.filter (·.kind ≠ .eof)

def Scanned.spaced (scanned : Scanned) : String :=
  " ".intercalate (scanned.words.map Token.lexeme)

/-- The tokens of a text, the end left out, are what their lexemes with a space between each two are
scanned as, in kind and text, and without a fault. -/
theorem rescan_lexemes (source : String) :
    (Scanned.ofSource (Scanned.ofSource source).spaced).faults = [] ∧
      ∃ (ts' : List Token) (line : Nat),
        (Scanned.ofSource (Scanned.ofSource source).spaced).tokens =
          ts' ++ [⟨.eof, "", line⟩] ∧
        List.Forall₂ Token.SameText (Scanned.ofSource source).words ts' := by
  have hts (t : Token) (ht : t ∈ (Scanned.ofSource source).words) : t.Legible := by
    obtain ⟨hmem, hkind⟩ := List.mem_filter.mp ht
    obtain ⟨item, hitem, htoken⟩ := List.mem_filterMap.mp hmem
    cases item with
    | token _ =>
      cases htoken
      exact legible_of_mem_scanFrom hitem (of_decide_eq_true hkind)
    | fault _ _ => cases htoken
  obtain ⟨ts', line, hscan, hsame⟩ := scanFrom_lexemes _ hts 1
  replace hscan : scan (Scanned.ofSource source).spaced = _ := hscan
  refine ⟨Scanned.faults_ofSource hscan, ts', line, ?_, hsame⟩
  change (scan _).filterMap Item.token? = _
  rw [hscan, List.filterMap_append, filterMap_token]
  rfl

end Treewalk
