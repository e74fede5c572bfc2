import Treewalk.Proofs.Scanning.Seams

namespace Treewalk

theorem Keyword.spelling_ne_empty (k : Keyword) : k.spelling ≠ "" := by cases k <;> decide

namespace Cut

variable {c : Char} {cs : List Char}

def isWord : List Char → Bool
  | [] => false
  | c :: cs => isWordStart c && cs.all isWordPart

theorem ne_of_isWordStart (h : isWordStart c) (hd : isWordStart d = false) : c ≠ d := by
  rintro rfl
  rw [h] at hd
  cases hd

theorem isDigit_of_isWordStart (h : isWordStart c) : c.isDigit = false := by
  rw [isWordStart, Bool.or_eq_true, decide_eq_true_eq] at h
  obtain h | rfl := h
  · change (decide (65 ≤ c.val ∧ c.val ≤ 90) ||
      decide (97 ≤ c.val) && decide (c.val ≤ 122)) = true at h
    unfold Char.isDigit
    grind
  · rfl

theorem isBlank_of_isWordStart (h : isWordStart c) : isBlank c = false := by
  simp [isBlank, ne_of_isWordStart h (d := ' ') rfl, ne_of_isWordStart h (d := '\r') rfl,
    ne_of_isWordStart h (d := '\t') rfl, ne_of_isWordStart h (d := '\n') rfl]

theorem first_eq_word (h : isWordStart c) : first c cs = word c cs := by
  simp [first, isBlank_of_isWordStart h, isDigit_of_isWordStart h, h,
    ne_of_isWordStart h (d := '/') rfl, ne_of_isWordStart h (d := '"') rfl]

theorem newline_not_mem_word (h : isWord cs) : '\n' ∉ cs := by
  match cs, h with
  | c :: cs, h =>
    rw [isWord, Bool.and_eq_true, List.all_eq_true] at h
    intro hmem
    obtain rfl | hmem := List.mem_cons.mp hmem
    · cases h.1
    · cases h.2 _ hmem

theorem kind_of_text_first {k : Keyword} (h : (first c cs).piece = .token kind)
    (ht : (first c cs).text = k.spelling.toList) : kind = .keyword k := by
  have hc : isWordStart c := by
    have hhead := congrArg List.head? (ht.symm.trans (text_first c cs))
    cases k <;> cases hhead <;> rfl
  rw [first_eq_word hc] at h ht
  have hkind : wordKind (word c cs).text = kind := Piece.token.inj h
  rw [← hkind, ht, wordKind, String.ofList_toList, Keyword.ofWord?_spelling]

end Cut

open Cut

variable {line : Nat} {cs rest : List Char}

theorem kind_of_lexeme {t : Token} {k : Keyword} (h : .token t ∈ scanFrom line cs)
    (ht : t.lexeme = k.spelling) : t.kind = .keyword k := by
  obtain ⟨-, hempty⟩ | ⟨c, ds, hp, htext⟩ := cut_of_mem_scanFrom h
  · exact absurd (ht.symm.trans hempty) k.spelling_ne_empty
  · exact kind_of_text_first hp (htext.trans (congrArg String.toList ht))

theorem scanFrom_word (hw : isWord cs) (hr : starts isWordPart rest = false) :
    scanFrom line (cs ++ rest) =
      .token ⟨wordKind cs, String.ofList cs, line⟩ :: scanFrom line rest := by
  match cs, hw with
  | c :: cs, hw =>
    have hcount : (c :: cs).count '\n' = 0 := List.count_eq_zero.mpr (newline_not_mem_word hw)
    obtain ⟨hc, hcs⟩ := Bool.and_eq_true_iff.mp hw
    have hword : word c (cs ++ rest) = ⟨.token (wordKind (c :: cs)), c :: cs, rest⟩ := by
      simp only [word, takeWhile_append hcs hr, dropWhile_append hcs hr]
    rw [List.cons_append, scanFrom, first_eq_word hc, hword]
    simp [item?, hcount]

end Treewalk
