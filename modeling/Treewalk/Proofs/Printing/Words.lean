import Treewalk.Proofs.Decimal.Reading
import Treewalk.Proofs.Printing.Shapes
import Treewalk.Proofs.Scanning.Rescanning

namespace Treewalk

open Cut (isWord isWordStart isWordPart)

def Token.ofText (text : String) : Token :=
  ((Scanned.ofSource text).tokens.headD ⟨.eof, "", 0⟩).unplaced

def TokenKind.isWord : TokenKind → Bool
  | .punct .leftParen | .punct .rightParen | .string _ | .eof => false
  | _ => true

theorem Term.isInner_of_isWordPart {c : Char} (h : isWordPart c) : isInner c := by
  have hne (d : Char) (hd : isWordPart d = false) : c ≠ d := by
    rintro rfl
    rw [h] at hd
    cases hd
  simp [isInner, hne ' ' rfl, hne '(' rfl, hne ')' rfl]

theorem Cut.all_isInner_of_isWord {cs : List Char} (h : isWord cs) : cs.all Term.isInner := by
  obtain ⟨d, ds, rfl, hd, hds⟩ := exists_of_isWord h
  refine List.all_eq_true.mpr fun c hc => Term.isInner_of_isWordPart ?_
  obtain rfl | hc := List.mem_cons.mp hc
  · rw [isWordPart, hd, Bool.true_or]
  · exact List.all_eq_true.mp hds c hc

theorem Numeral.all_isInner {fraction : Bool} {cs : List Char} {q : ℚ}
    (h : Numeral fraction cs q) : cs.all Term.isInner := by
  refine List.all_eq_true.mpr fun c hc => ?_
  obtain hd | rfl := h.digits.2 c hc
  · exact Term.isInner_of_isWordPart (by rw [isWordPart, hd, Bool.or_true])
  · rfl

theorem Lexeme.all_isInner {cs : List Char} {kind : TokenKind} (h : Lexeme cs kind)
    (hk : kind.isWord) : cs.all Term.isInner := by
  cases h with
  | mark p =>
    cases p with
    | leftParen | rightParen => cases hk
    | _ => rfl
  | string => cases hk
  | whole hds hx => exact (Numeral.whole hds).all_isInner
  | fraction hds hfs hx => exact (Numeral.fraction hds hfs).all_isInner
  | keyword k => exact Cut.all_isInner_of_isWord (Cut.isWord_keyword k)
  | identifier hw => exact Cut.all_isInner_of_isWord hw

theorem Term.isWord_keyword (k : Keyword) : IsWord k.spelling :=
  ⟨k.spelling_ne_empty, Cut.all_isInner_of_isWord (Cut.isWord_keyword k)⟩

namespace Token.Legible

variable {t : Token}

theorem lexeme (h : t.Legible) : Lexeme t.lexeme.toList t.kind := by
  obtain ⟨c, cs, hpiece, htext⟩ := h
  exact htext ▸ Cut.lexical_first c cs _ hpiece

theorem lexeme_ne (h : t.Legible) : t.lexeme ≠ "" := by
  obtain ⟨c, cs, -, htext⟩ := h
  intro he
  rw [he] at htext
  exact Cut.text_first_ne_nil c cs htext

theorem isWord (h : t.Legible) (hk : t.kind.isWord) : Term.IsWord t.lexeme :=
  ⟨h.lexeme_ne, h.lexeme.all_isInner hk⟩

theorem isWord_name (h : t.Legible) (hk : t.kind = .identifier) : Term.IsWord t.lexeme :=
  h.isWord (by rw [hk]; rfl)

theorem ofText (h : t.Legible) : Token.ofText t.lexeme = t.unplaced := by
  obtain ⟨after, hscan⟩ := scanFrom_lexeme h (.inl rfl) 1
  rw [List.append_nil] at hscan
  rw [Token.ofText, Scanned.ofSource, scan, hscan]
  rfl

theorem mark {p : Punctuator} (h : t.Legible) (hk : t.kind = .punct p) : t.lexeme = p.spelling := by
  have hl := h.lexeme
  rw [hk] at hl
  generalize hcs : t.lexeme.toList = cs at hl
  cases hl with
  | mark => exact String.toList_inj.mp hcs

theorem keyword {k : Keyword} (h : t.Legible) (hk : t.kind = .keyword k) :
    t.lexeme = k.spelling := by
  have hl := h.lexeme
  rw [hk] at hl
  exact String.toList_inj.mp (Cut.text_of_keyword hl)

end Token.Legible

theorem Token.legible_mark (p : Punctuator) : Legible ⟨.punct p, p.spelling, 0⟩ :=
  ⟨p.spelling.toList.headD ' ', p.spelling.toList.tail, by cases p <;> rfl, by cases p <;> rfl⟩

theorem Token.ofText_mark (p : Punctuator) : ofText p.spelling = ⟨.punct p, p.spelling, 0⟩ :=
  (legible_mark p).ofText

theorem Term.isWord_mark {p : Punctuator} (h : (TokenKind.punct p).isWord) : IsWord p.spelling :=
  (Token.legible_mark p).isWord h

theorem Token.ofText_keyword (k : Keyword) : ofText k.spelling = ⟨.keyword k, k.spelling, 0⟩ := by
  have h : Legible ⟨.keyword k, k.spelling, 0⟩ :=
    ⟨k.spelling.toList.headD ' ', k.spelling.toList.tail, by cases k <;> rfl, by cases k <;> rfl⟩
  exact h.ofText

theorem Writes.numeral {fraction : Bool} {cs : List Char} {x : Float}
    (h : Writes fraction cs x) (hx : (Binary64.ofFloat x).sign? = some false) :
    ∃ q, Numeral fraction cs q ∧ Binary64.IsNearest x q := by
  cases h with
  | plain hn hy hxy =>
    obtain rfl | ⟨rfl, rfl⟩ := hxy
    · exact ⟨_, hn, hy⟩
    · rw [Binary64.sign?_neg hy.sign] at hx
      cases hx
  | minus hn hy hxy =>
    rw [← hxy, Binary64.sign?_neg hy.sign] at hx
    cases hx

theorem Token.ofText_literal {cs : List Char} {x : Float} (h : Lexeme cs (.number x))
    (hx : x.isFinite = true) : Term.IsWord (Number.literal x) ∧
      ofText (Number.literal x) = ⟨.number x, Number.literal x, 0⟩ := by
  have hsign : (Binary64.ofFloat x).sign? = some false := by
    cases h with
    | whole _ hnear => exact hnear.sign
    | fraction _ _ hnear => exact hnear.sign
  obtain ⟨fraction, -, hw⟩ := Number.writes_literal hx
  obtain ⟨q, hn, hnear⟩ := hw.numeral hsign
  obtain ⟨d, ds, hd, -⟩ := hn.digits.1
  refine ⟨⟨fun he => ?_, hn.all_isInner⟩, ?_⟩
  · rw [he] at hd
    cases hd
  · have hscan : scan (Number.literal x) = _ := scanFrom_numeral hn hnear 1
    rw [ofText, Scanned.ofSource, hscan, String.ofList_toList]
    rfl

end Treewalk
