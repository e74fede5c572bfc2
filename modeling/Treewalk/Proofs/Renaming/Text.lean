import Treewalk.Proofs.Renaming.Respelling
import Treewalk.Proofs.Scanning.Words

namespace Treewalk

namespace Cut

variable {c : Char} {cs rest rest' : List Char}

theorem Ends.refl (rest : List Char) : Ends rest rest := ⟨fun _ _ h => h, fun h => h⟩

theorem Ends.append {text : List Char} (ht : text ≠ []) (h : Ends rest rest') :
    Ends (text ++ rest) (text ++ rest') := by
  match text, ht with
  | [c], _ =>
    refine ⟨fun _ _ hp => hp, fun hf => ?_⟩
    have hdigit := h.character Char.isDigit (by simp [continuations])
    simp only [startsFraction, List.singleton_append, List.tail_cons, Bool.and_eq_false_iff] at hf ⊢
    exact hf.imp id hdigit
  | _ :: _ :: _, _ => exact ⟨fun _ _ hp => hp, fun hf => hf⟩

theorem isWordStart_of_identifier (h : (first c cs).piece = .token .identifier) :
    isWordStart c := by
  by_contra hw
  simp only [first, if_neg hw, slash, string, number, operator] at h
  repeat' split at h
  all_goals cases h

theorem first_identifier (h : (first c cs).piece = .token .identifier) :
    isWordStart c ∧ isWord (first c cs).text ∧ starts isWordPart (first c cs).rest = false := by
  have hc := isWordStart_of_identifier h
  rw [first_eq_word hc]
  exact ⟨hc, Bool.and_eq_true_iff.mpr ⟨hc, List.all_takeWhile⟩, starts_dropWhile _ _⟩

theorem Ends.words (h : isWordStart c) (h' : isWordStart d) : Ends (c :: cs) (d :: ds) := by
  constructor
  · intro p hp hc
    have hc : p c = false := hc
    change p d = false
    simp only [continuations, List.mem_cons, List.not_mem_nil, or_false] at hp
    obtain rfl | rfl | rfl | rfl | rfl := hp
    · exact isDigit_of_isWordStart h'
    · rw [isWordPart, h] at hc
      cases hc
    · exact decide_eq_false (ne_of_isWordStart h' rfl)
    · exact decide_eq_false (ne_of_isWordStart h' rfl)
    · exact absurd (ne_of_isWordStart h rfl) (of_decide_eq_false hc)
  · intro _
    have hd : decide (d = '.') = false := decide_eq_false (ne_of_isWordStart h' rfl)
    simp [startsFraction, starts, hd]

end Cut

open Cut

variable {line : Nat} {cs rest : List Char}

namespace Renaming

variable {ρ : Renaming}

theorem Respells.eq_or_new {t t' : Token} (h : ρ.Respells t t') (ht : t.Spelled) :
    t' = t ∨ t.kind = .identifier ∧ t' = { t with lexeme := ρ.new } := by
  obtain ⟨marked, rfl, hkind⟩ := h
  by_cases hold : marked = true ∧ t.lexeme = ρ.old
  · refine .inr ⟨(hkind hold.1).resolve_right ?_, by rw [token, word, if_pos hold]⟩
    rintro ⟨k, hk⟩
    have hname := ρ.old_isName
    rw [← hold.2, ht.keyword hk, Keyword.ofWord?_spelling] at hname
    cases hname
  · exact .inl (by rw [token, word, if_neg hold])

theorem scanFrom_new (hnew : isWord ρ.new.toList) {rest : List Char}
    (hr : starts isWordPart rest = false) (line : Nat) :
    scanFrom line (ρ.new.toList ++ rest) =
      .token ⟨.identifier, ρ.new, line⟩ :: scanFrom line rest := by
  have hkind : wordKind ρ.new.toList = .identifier := by
    rw [wordKind, String.ofList_toList, show Keyword.ofWord? ρ.new = none from ρ.new_isName]
  rw [scanFrom_word hnew hr, hkind, String.ofList_toList]

theorem scanFrom_respell (hnew : isWord ρ.new.toList) (line : Nat) (cs : List Char)
    (hs : scanFrom line cs = ts.map .token) (h : List.Forall₂ ρ.Respells ts ts') :
    ∃ cs', scanFrom line cs' = ts'.map .token ∧ Cut.Ends cs cs' := by
  fun_induction scanFrom line cs generalizing ts ts' with
  | case1 line =>
    obtain ⟨t, rfl, ht⟩ := List.map_eq_singleton_iff.mp hs.symm
    cases ht
    cases h with
    | cons ht hnil =>
      cases hnil
      obtain rfl | ⟨hk, -⟩ := ht.eq_or_new trivial
      · exact ⟨[], by rw [scanFrom]; rfl, .refl []⟩
      · cases hk
  | case2 line c cs cut =>
    rename_i last ih
    have hkeep (hp : cut.piece ≠ .fault .unterminatedString) {rest : List Char} (he : Cut.Ends cut.rest rest) :
        scanFrom line (cut.text ++ rest) = (cut.item? last).toList ++ scanFrom last rest ∧
          Cut.Ends (c :: cs) (cut.text ++ rest) := by
      refine ⟨scanFrom_before hp he.parts fun _ => he.line, ?_⟩
      rw [← first_append c cs]
      exact he.append (text_first_ne_nil c cs)
    cases hp : cut.piece with
    | gap =>
      have hitem : cut.item? last = none := by rw [item?, hp]
      rw [hitem] at hs hkeep
      obtain ⟨rest, hr, he⟩ := ih hs h
      obtain ⟨hscan, hends⟩ := hkeep (by simp [hp]) he
      exact ⟨_, hscan.trans hr, hends⟩
    | fault f =>
      have hitem : cut.item? last = some (.fault f last) := by rw [item?, hp]
      rw [hitem] at hs
      cases ts <;> cases hs
    | token kind =>
      have hitem : cut.item? last = some (.token ⟨kind, String.ofList cut.text, last⟩) := by
        rw [item?, hp]
      rw [hitem] at hs hkeep
      cases h with
      | nil => cases hs
      | cons ht hts =>
        obtain ⟨htoken, hrest⟩ := List.cons.inj hs
        cases htoken
        obtain ⟨rest, hr, he⟩ := ih hrest hts
        obtain rfl | ⟨rfl, rfl⟩ := ht.eq_or_new (spelled_first c cs hp)
        · obtain ⟨hscan, hends⟩ := hkeep (by simp [hp]) he
          exact ⟨_, hscan.trans (congrArg (_ :: ·) hr), hends⟩
        -- an identifier lies on one line, and what ends it ends the new one too
        · obtain ⟨hstart, hword, hstop⟩ := first_identifier hp
          have hlast : last = line := by
            rw [Nat.add_eq_left, List.count_eq_zero]
            exact newline_not_mem_word hword
          rw [hlast] at hr ⊢
          have hscan := scanFrom_new hnew
            (he.character isWordPart (by simp [continuations]) hstop) line
          refine ⟨_, hscan.trans (congrArg (_ :: ·) hr), ?_⟩
          generalize ρ.new.toList = new at hnew
          cases new with
          | nil => cases hnew
          | cons d ds => exact .words hstart (Bool.and_eq_true_iff.mp hnew).1

end Renaming

end Treewalk
