import Treewalk.Proofs.Binary64.Rounding
import Treewalk.Proofs.Scanning.Pieces
import Treewalk.Proofs.Scanning.Words

namespace Treewalk

def IsDigits (ds : List Char) : Prop := ds ≠ [] ∧ ds.all Char.isDigit

theorem IsDigits.exists_cons (h : IsDigits ds) :
    ∃ d ds', ds = d :: ds' ∧ d.isDigit ∧ ds'.all Char.isDigit := by
  obtain ⟨hne, hall⟩ := h
  obtain ⟨d, ds', rfl⟩ := List.exists_cons_of_ne_nil hne
  exact ⟨d, ds', rfl, Bool.and_eq_true_iff.mp hall⟩

def decimalValue (whole fraction : List Char) : ℚ :=
  Number.ofDigits whole + Number.ofDigits fraction / 10 ^ fraction.length

inductive Lexeme : List Char → TokenKind → Prop
  | mark (p : Punctuator) : Lexeme p.spelling.toList (.punct p)
  | string : '"' ∉ body → Lexeme ('"' :: (body ++ ['"'])) (.string (String.ofList body))
  | whole : IsDigits ds → Binary64.IsNearest x (decimalValue ds []) → Lexeme ds (.number x)
  | fraction : IsDigits ds → IsDigits fs → Binary64.IsNearest x (decimalValue ds fs) →
      Lexeme (ds ++ '.' :: fs) (.number x)
  | keyword (k : Keyword) : Lexeme k.spelling.toList (.keyword k)
  | identifier : Cut.isWord cs → (∀ k : Keyword, cs ≠ k.spelling.toList) → Lexeme cs .identifier

/-- A lexeme that a text starts with. Two slashes are the start of a comment. -/
structure LexemeAt (text : List Char) (kind : TokenKind) (ahead : List Char) : Prop where
  lexeme : Lexeme text kind
  start : text <+: ahead
  comment : ¬ ['/', '/'] <+: ahead

structure LongestAt (text : List Char) (kind : TokenKind) (ahead : List Char) : Prop extends
    LexemeAt text kind ahead where
  length_le : LexemeAt text' kind' ahead → text'.length ≤ text.length

/-- Something of the grammar starts here. -/
inductive SomethingAt : List Char → Prop
  | lexeme : LexemeAt text kind ahead → SomethingAt ahead
  | blank : c ∈ [' ', '\r', '\t', '\n'] → SomethingAt (c :: cs)
  | comment : SomethingAt ('/' :: '/' :: cs)
  | quote : SomethingAt ('"' :: cs)

theorem Number.ofDigits_append_singleton (ds : List Char) (c : Char) :
    ofDigits (ds ++ [c]) = 10 * ofDigits ds + (c.toNat - '0'.toNat) := by
  rw [ofDigits, List.foldl_append]
  rfl

theorem Number.ofDigits_append (ds fs : List Char) :
    ofDigits (ds ++ fs) = ofDigits ds * 10 ^ fs.length + ofDigits fs := by
  induction fs using List.reverseRecOn with
  | nil => simp [ofDigits]
  | append_singleton fs c ih =>
    rw [← List.append_assoc, ofDigits_append_singleton, ofDigits_append_singleton, ih,
      List.length_append, List.length_singleton, pow_succ]
    ring

theorem isNearest_ofDecimal (ds fs : List Char) :
    Binary64.IsNearest (Number.ofDecimal ds fs) (decimalValue ds fs) := by
  have hpow : 0 < pow10 fs.length := Nat.pow_pos (by decide)
  have h := Binary64.isNearest_nearest hpow (Number.ofDigits (ds ++ fs))
  have hvalue : (Number.ofDigits (ds ++ fs) : ℚ) / pow10 fs.length = decimalValue ds fs := by
    have hten : (pow10 fs.length : ℚ) = 10 ^ fs.length := by simp [pow10]
    rw [Number.ofDigits_append, hten, decimalValue]
    push_cast
    field_simp
  rwa [hvalue] at h

namespace Cut

variable {c : Char} {cs rest : List Char} {kind : TokenKind}

def Lexical (cut : Cut) : Prop := ∀ kind, cut.piece = .token kind → Lexeme cut.text kind

theorem isDigits_cons (hc : c.isDigit) (cs : List Char) :
    IsDigits (c :: cs.takeWhile Char.isDigit) :=
  ⟨List.cons_ne_nil _ _, by simp [hc, List.all_takeWhile]⟩

theorem lexical_number (hc : c.isDigit) (cs : List Char) : (number c cs).Lexical := by
  intro kind h
  cases hf : startsFraction (cs.dropWhile Char.isDigit) with
  | true =>
    obtain ⟨d, ds, heq, hd⟩ := exists_of_startsFraction hf
    rw [number_eq_fraction heq hd] at h ⊢
    cases h
    exact .fraction (isDigits_cons hc cs) (isDigits_cons hd ds) (isNearest_ofDecimal _ _)
  | false =>
    rw [number_eq hf] at h ⊢
    cases h
    exact .whole (isDigits_cons hc cs) (isNearest_ofDecimal _ _)

theorem wordKind_cases (text : List Char) :
    (∃ k : Keyword, wordKind text = .keyword k ∧ text = k.spelling.toList) ∨
      wordKind text = .identifier ∧ ∀ k : Keyword, text ≠ k.spelling.toList := by
  unfold wordKind
  split
  · next k hk =>
    have hspelling : k.spelling = String.ofList text := by simpa using List.find?_some hk
    exact .inl ⟨k, rfl, by rw [hspelling, String.toList_ofList]⟩
  · next hnone =>
    refine .inr ⟨rfl, fun k hk => ?_⟩
    rw [hk, String.ofList_toList, Keyword.ofWord?_spelling] at hnone
    cases hnone

theorem lexeme_wordKind {text : List Char} (hw : isWord text) : Lexeme text (wordKind text) := by
  obtain ⟨k, hkind, rfl⟩ | ⟨hkind, hk⟩ := wordKind_cases text
  · exact hkind ▸ .keyword k
  · exact hkind ▸ .identifier hw hk

theorem lexical_word (hc : isWordStart c) (cs : List Char) : (word c cs).Lexical := by
  rintro _ ⟨⟩
  refine lexeme_wordKind (?_ : (isWordStart c && (cs.takeWhile isWordPart).all isWordPart) = true)
  rw [hc, List.all_takeWhile, Bool.true_and]

theorem spelling_single (h : single? c = some p) : p.spelling.toList = [c] := by
  unfold single? at h
  split at h
  all_goals cases h
  all_goals rfl

theorem spelling_extended (h : extended? c = some (short, long)) :
    short.spelling.toList = [c] ∧ long.spelling.toList = [c, '='] := by
  unfold extended? at h
  split at h
  all_goals cases h
  all_goals exact ⟨rfl, rfl⟩

theorem lexical_operator (he : extended? c = some (short, long)) (cs : List Char) :
    (operator c short long cs).Lexical := by
  obtain ⟨hshort, hlong⟩ := spelling_extended he
  unfold operator
  split
  · rintro _ ⟨⟩
    exact hlong ▸ .mark long
  · rintro _ ⟨⟩
    exact hshort ▸ .mark short

theorem lexical_slash (cs : List Char) : (slash cs).Lexical := by
  unfold slash
  split
  · exact nofun
  · rintro _ ⟨⟩
    exact .mark .slash

theorem lexical_string (cs : List Char) : (string cs).Lexical := by
  have hstarts := starts_dropWhile (· ≠ '"') cs
  unfold string
  split
  · rintro _ ⟨⟩
  · next quote rest hd =>
    rw [hd] at hstarts
    obtain rfl : quote = '"' := by simpa [starts] using hstarts
    rintro _ ⟨⟩
    exact .string (not_mem_takeWhile (by simp) cs)

theorem lexical_first (c : Char) (cs : List Char) : (first c cs).Lexical := by
  unfold first
  split
  · exact nofun
  split
  · exact lexical_slash cs
  split
  · exact lexical_string cs
  split
  · next hc => exact lexical_number hc cs
  split
  · next hc => exact lexical_word hc cs
  split
  · next hp =>
    rintro _ ⟨⟩
    exact spelling_single hp ▸ .mark _
  · next he => exact lexical_operator he cs
  · exact nofun

theorem first_eq_single (h : single? c = some p) (cs : List Char) :
    first c cs = ⟨.token (.punct p), [c], cs⟩ := by
  unfold single? at h
  split at h
  all_goals cases h
  all_goals rfl

theorem first_eq_operator (h : extended? c = some (short, long)) (cs : List Char) :
    first c cs = operator c short long cs := by
  unfold extended? at h
  split at h
  all_goals cases h
  all_goals rfl

theorem first_eq_number (h : c.isDigit) (cs : List Char) : first c cs = number c cs := by
  have hblank : isBlank c = false := by
    cases hb : isBlank c with
    | false => rfl
    | true =>
      simp only [isBlank, Bool.or_eq_true, decide_eq_true_eq] at hb
      obtain ((rfl | rfl) | rfl) | rfl := hb <;> cases h
  have hslash : c ≠ '/' := by
    rintro rfl
    cases h
  have hquote : c ≠ '"' := by
    rintro rfl
    cases h
  rw [first, if_neg (by simp [hblank]), if_neg hslash, if_neg hquote, if_pos h]

theorem takeWhile_append_prefix {p : Char → Bool} {run : List Char} (h : run.all p)
    (rest : List Char) : (run ++ rest).takeWhile p = run ++ rest.takeWhile p := by
  rw [List.takeWhile_append_of_pos (List.all_eq_true.mp h)]

def Covers (cut : Cut) (text : List Char) (kind : TokenKind) : Prop :=
  ∃ more kind', cut.piece = .token kind' ∧ cut.text = text ++ more ∧ (more = [] → kind' = kind)

theorem covers_self (kind : TokenKind) (text rest : List Char) :
    Covers ⟨.token kind, text, rest⟩ text kind :=
  ⟨[], kind, rfl, (List.append_nil text).symm, fun _ => rfl⟩

theorem covers_single (h : single? c = some p) (cs : List Char) :
    (first c cs).Covers [c] (.punct p) := by
  rw [first_eq_single h]
  exact covers_self _ _ _

theorem covers_short (h : extended? c = some (short, long)) (cs : List Char) :
    (first c cs).Covers [c] (.punct short) := by
  rw [first_eq_operator h]
  unfold operator
  split
  · exact ⟨['='], _, rfl, rfl, nofun⟩
  · exact covers_self _ _ _

theorem covers_long (h : extended? c = some (short, long)) (cs : List Char) :
    (first c ('=' :: cs)).Covers [c, '='] (.punct long) := by
  rw [first_eq_operator h]
  exact covers_self _ _ _

theorem covers_slash (hc : ¬ ['/', '/'] <+: '/' :: cs) :
    (first '/' cs).Covers ['/'] (.punct .slash) := by
  have hs : starts (· = '/') cs = false := by
    rw [Bool.eq_false_iff]
    intro hs
    obtain ⟨ds, rfl⟩ := exists_of_starts hs
    exact hc ⟨ds, rfl⟩
  have hslash : first '/' cs = slash cs := rfl
  rw [hslash, slash_eq hs]
  exact covers_self _ _ _

theorem covers_mark (p : Punctuator) (h : p.spelling.toList ++ rest = c :: cs)
    (hc : ¬ ['/', '/'] <+: c :: cs) : (first c cs).Covers p.spelling.toList (.punct p) := by
  cases p with
  | slash =>
    obtain ⟨rfl, rfl⟩ := List.cons.inj h
    exact covers_slash hc
  | bang | equal | greater | less =>
    obtain ⟨rfl, rfl⟩ := List.cons.inj h
    exact covers_short rfl rest
  | bangEqual | equalEqual | greaterEqual | lessEqual =>
    obtain ⟨rfl, rfl⟩ := List.cons.inj h
    exact covers_long rfl rest
  | _ =>
    obtain ⟨rfl, rfl⟩ := List.cons.inj h
    exact covers_single rfl rest

theorem covers_string {body : List Char} (h : '"' ∉ body) (rest : List Char) :
    (string (body ++ '"' :: rest)).Covers ('"' :: (body ++ ['"']))
      (.string (String.ofList body)) := by
  have hall : body.all (· ≠ '"') := by
    simp
    intro d hd
    rintro rfl
    exact h hd
  have hq : starts (· ≠ '"') ('"' :: rest) = false := rfl
  refine ⟨[], .string (String.ofList body), ?_⟩
  simp only [string, takeWhile_append hall hq, dropWhile_append hall hq]
  simp

theorem covers_whole (hcs : cs.all Char.isDigit)
    (hx : Binary64.IsNearest x (decimalValue (c :: cs) [])) (rest : List Char) :
    (number c (cs ++ rest)).Covers (c :: cs) (.number x) := by
  have htake := takeWhile_append_prefix hcs rest
  cases hf : startsFraction ((cs ++ rest).dropWhile Char.isDigit) with
  | true =>
    obtain ⟨d, ds, heq, hd⟩ := exists_of_startsFraction hf
    rw [number_eq_fraction heq hd, htake]
    exact ⟨rest.takeWhile Char.isDigit ++ '.' :: d :: ds.takeWhile Char.isDigit, _, rfl, by simp,
      by simp⟩
  | false =>
    rw [number_eq hf, htake]
    refine ⟨rest.takeWhile Char.isDigit, _, rfl, rfl, fun hnil => ?_⟩
    rw [hnil, List.append_nil, (isNearest_ofDecimal (c :: cs) []).unique hx]

theorem covers_fraction (hcs : cs.all Char.isDigit) (hd : d.isDigit) (hds : ds.all Char.isDigit)
    (hx : Binary64.IsNearest x (decimalValue (c :: cs) (d :: ds))) (rest : List Char) :
    (number c (cs ++ '.' :: d :: (ds ++ rest))).Covers (c :: cs ++ '.' :: d :: ds) (.number x) := by
  have hpoint : starts Char.isDigit ('.' :: d :: (ds ++ rest)) = false := rfl
  rw [number_eq_fraction (dropWhile_append hcs hpoint) hd, takeWhile_append hcs hpoint,
    takeWhile_append_prefix hds]
  refine ⟨rest.takeWhile Char.isDigit, _, rfl, by simp, fun hnil => ?_⟩
  rw [hnil, List.append_nil, (isNearest_ofDecimal (c :: cs) (d :: ds)).unique hx]

theorem covers_word (hcs : cs.all isWordPart) (rest : List Char) :
    (word c (cs ++ rest)).Covers (c :: cs) (wordKind (c :: cs)) := by
  rw [word, takeWhile_append_prefix hcs]
  refine ⟨rest.takeWhile isWordPart, _, rfl, rfl, fun hnil => ?_⟩
  rw [hnil, List.append_nil]

theorem isWord_keyword (k : Keyword) : isWord k.spelling.toList := by cases k <;> decide

theorem wordKind_keyword (k : Keyword) : wordKind k.spelling.toList = .keyword k := by
  rw [wordKind, String.ofList_toList, Keyword.ofWord?_spelling]

theorem wordKind_identifier {text : List Char} (h : ∀ k : Keyword, text ≠ k.spelling.toList) :
    wordKind text = .identifier := by
  obtain ⟨k, -, htext⟩ | ⟨hkind, -⟩ := wordKind_cases text
  · exact absurd htext (h k)
  · exact hkind

theorem exists_of_isWord {text : List Char} (h : isWord text) :
    ∃ d ds, text = d :: ds ∧ isWordStart d ∧ ds.all isWordPart := by
  match text, h with
  | d :: ds, h => exact ⟨d, ds, rfl, Bool.and_eq_true_iff.mp h⟩

theorem covers_first_word {text : List Char} (hw : isWord text) (h : text ++ rest = c :: cs) :
    (first c cs).Covers text (wordKind text) := by
  obtain ⟨d, ds, rfl, hd, hds⟩ := exists_of_isWord hw
  obtain ⟨rfl, rfl⟩ := List.cons.inj h
  rw [first_eq_word hd]
  exact covers_word hds rest

theorem covers_first {text : List Char} (hl : Lexeme text kind) (h : text ++ rest = c :: cs)
    (hc : ¬ ['/', '/'] <+: c :: cs) : (first c cs).Covers text kind := by
  cases hl with
  | mark p => exact covers_mark p h hc
  | @string body hbody =>
    have hrest : '"' :: (body ++ '"' :: rest) = c :: cs := by simpa using h
    obtain ⟨rfl, rfl⟩ := List.cons.inj hrest
    exact covers_string hbody rest
  | whole hds hx =>
    obtain ⟨d, ds, rfl, hd, hds⟩ := hds.exists_cons
    obtain ⟨rfl, rfl⟩ := List.cons.inj h
    rw [first_eq_number hd]
    exact covers_whole hds hx rest
  | fraction hds hfs hx =>
    obtain ⟨d, ds, rfl, hd, hds⟩ := hds.exists_cons
    obtain ⟨f, fs, rfl, hf, hfs⟩ := hfs.exists_cons
    have hrest : d :: (ds ++ '.' :: f :: (fs ++ rest)) = c :: cs := by simpa using h
    obtain ⟨rfl, rfl⟩ := List.cons.inj hrest
    rw [first_eq_number hd]
    exact covers_fraction hds hf hfs hx rest
  | keyword k => exact wordKind_keyword k ▸ covers_first_word (isWord_keyword k) h
  | identifier hw hk => exact wordKind_identifier hk ▸ covers_first_word hw h

theorem not_comment_of_token (h : (first c cs).piece = .token kind) : ¬ ['/', '/'] <+: c :: cs := by
  rintro ⟨rest, hrest⟩
  obtain ⟨rfl, rfl⟩ := List.cons.inj hrest
  cases h

theorem token_iff_longestAt :
    (first c cs).piece = .token kind ↔ LongestAt (first c cs).text kind (c :: cs) := by
  have happend := first_append c cs
  constructor
  · intro h
    refine ⟨⟨lexical_first c cs kind h, ⟨_, happend⟩, not_comment_of_token h⟩, ?_⟩
    rintro text' kind' ⟨hl, ⟨rest, hrest⟩, hc⟩
    obtain ⟨more, -, -, htext, -⟩ := covers_first hl hrest hc
    rw [htext, List.length_append]
    exact Nat.le_add_right _ _
  · rintro ⟨⟨hl, -, hc⟩, -⟩
    obtain ⟨more, kind', hpiece, htext, hkind⟩ := covers_first hl happend hc
    rw [hpiece, hkind (by simpa using htext)]

theorem text_of_keyword {text : List Char} {k : Keyword} (h : Lexeme text (.keyword k)) :
    text = k.spelling.toList := by
  cases h
  rfl

theorem keyword_iff (k : Keyword) :
    (first c cs).piece = .token (.keyword k) ↔ (first c cs).text = k.spelling.toList := by
  constructor
  · exact fun h => text_of_keyword (lexical_first c cs _ h)
  · intro htext
    have happend := first_append c cs
    rw [htext] at happend
    have hcomment : ¬ ['/', '/'] <+: c :: cs := by
      obtain ⟨d, ds, hword, hd, -⟩ := exists_of_isWord (isWord_keyword k)
      rintro ⟨rest, hrest⟩
      rw [hword] at happend
      rw [(List.cons.inj happend).1, ← (List.cons.inj hrest).1] at hd
      cases hd
    obtain ⟨more, kind', hpiece, hmore, hkind⟩ := covers_first (.keyword k) happend hcomment
    rw [hpiece, hkind (by simpa [htext] using hmore)]

theorem nothing_of_unexpected (h : (first c cs).piece = .fault (.unexpectedCharacter d)) :
    ¬ SomethingAt (c :: cs) := by
  intro hsomething
  cases hsomething with
  | lexeme hat =>
    obtain ⟨hl, ⟨rest, hrest⟩, hc⟩ := hat
    obtain ⟨_, kind', hpiece, -⟩ := covers_first hl hrest hc
    rw [h] at hpiece
    cases hpiece
  | blank hblank =>
    have hgap : (first c cs).piece = .gap := by
      simp only [List.mem_cons, List.not_mem_nil, or_false] at hblank
      obtain rfl | rfl | rfl | rfl := hblank <;> rfl
    rw [h] at hgap
    cases hgap
  | comment => cases h
  | quote =>
    have hquote : first '"' cs = string cs := rfl
    rw [hquote, string] at h
    split at h <;> cases h

theorem unexpected_iff (d : Char) :
    (first c cs).piece = .fault (.unexpectedCharacter d) ↔ c = d ∧ ¬ SomethingAt (c :: cs) := by
  have hshape := Shape.first c cs
  have happend := first_append c cs
  have htoken (kind : TokenKind) (h : (first c cs).piece = .token kind) : SomethingAt (c :: cs) :=
    .lexeme (token_iff_longestAt.mp h).toLexemeAt
  have hnot : (first c cs).piece = .fault (.unexpectedCharacter d) → ¬ SomethingAt (c :: cs) :=
    nothing_of_unexpected
  generalize first c cs = cut at *
  cases hshape with
  | blank hblank =>
    obtain ⟨rfl, rfl⟩ := List.cons.inj happend
    exact ⟨nofun, fun h => absurd (.blank hblank) h.2⟩
  | comment =>
    obtain ⟨rfl, rfl⟩ := List.cons.inj happend
    exact ⟨nofun, fun h => absurd .comment h.2⟩
  | token => exact ⟨nofun, fun h => absurd (htoken _ rfl) h.2⟩
  | unexpected =>
    obtain ⟨rfl, rfl⟩ := List.cons.inj happend
    constructor
    · intro h
      cases h
      exact ⟨rfl, hnot rfl⟩
    · rintro ⟨rfl, -⟩
      rfl
  | unterminated =>
    obtain ⟨rfl, rfl⟩ := List.cons.inj happend
    exact ⟨nofun, fun h => absurd .quote h.2⟩

def cuts : List Char → List Cut
  | [] => []
  | c :: cs => first c cs :: cuts (first c cs).rest
termination_by cs => cs.length
decreasing_by exact length_rest_first_lt c cs

def items (line : Nat) : List Cut → List Item
  | [] => [.token ⟨.eof, "", line⟩]
  | cut :: cuts =>
    let last := line + cut.text.count '\n'
    (cut.item? last).toList ++ items last cuts

theorem flatMap_cuts (cs : List Char) : (cuts cs).flatMap text = cs := by
  fun_induction cuts cs with
  | case1 => rfl
  | case2 c cs ih => rw [List.flatMap_cons, ih, first_append]

theorem scanFrom_eq_items (line : Nat) (cs : List Char) :
    scanFrom line cs = items line (cuts cs) := by
  fun_induction scanFrom line cs with
  | case1 line => rw [cuts, items]
  | case2 line c cs cut last ih => rw [cuts, items, ih]

theorem eq_first_of_cuts {before after : List Cut} {cut : Cut}
    (h : cuts cs = before ++ cut :: after) :
    ∃ c ds, (cut :: after).flatMap text = c :: ds ∧ cut = first c ds := by
  fun_induction cuts cs generalizing before with
  | case1 => simp at h
  | case2 c cs ih =>
    cases before with
    | nil =>
      obtain ⟨rfl, rfl⟩ := List.cons.inj h
      exact ⟨c, cs, by rw [List.flatMap_cons, flatMap_cuts, first_append], rfl⟩
    | cons _ before => exact ih (List.cons.inj h).2

end Cut

/-- Longest match: the pieces make up the text, the scanner yields what they yield, and a piece is a
token of some kind just if its text is the longest lexeme that what is ahead starts with, and of
that kind. It is a keyword just if it is spelled like one. Just where nothing of the grammar starts,
the character there is reported as unexpected. -/
theorem scan_longest_match (source : String) :
    let cuts := Cut.cuts source.toList
    cuts.flatMap Cut.text = source.toList ∧ scan source = Cut.items 1 cuts ∧
      (∀ n, (Scanner.new source).nth n = some (scan source)[n]?) ∧
      ∀ before cut after, cuts = before ++ cut :: after →
        let ahead := (cut :: after).flatMap Cut.text
        (∀ kind, cut.piece = .token kind ↔ LongestAt cut.text kind ahead) ∧
        (∀ k : Keyword, cut.piece = .token (.keyword k) ↔ cut.text = k.spelling.toList) ∧
        ∀ c, cut.piece = .fault (.unexpectedCharacter c) ↔
          ahead.head? = some c ∧ ¬ SomethingAt ahead := by
  refine ⟨Cut.flatMap_cuts _, Cut.scanFrom_eq_items 1 _, Scanner.nth_new source, ?_⟩
  intro before cut after hcuts ahead
  obtain ⟨c, ds, hahead, rfl⟩ := Cut.eq_first_of_cuts hcuts
  rw [show ahead = c :: ds from hahead]
  refine ⟨fun kind => Cut.token_iff_longestAt, Cut.keyword_iff, fun d => ?_⟩
  rw [Cut.unexpected_iff, List.head?_cons, Option.some.injEq]

end Treewalk
