import Treewalk.Proofs.Scanning.Encoding

namespace Treewalk

namespace Scanner

def ahead (s : Scanner) : List UInt8 := s.source.toByteArray.data.toList.drop s.curr

def move (s : Scanner) (n : Nat) : Scanner := { s with curr := s.curr + n }

def along (s : Scanner) (bs : List UInt8) : Scanner :=
  { s with curr := s.curr + bs.length, line := s.line + bs.count '\n'.toUInt8 }

section

variable (s : Scanner)

@[simp] theorem along_nil : s.along [] = s := rfl

@[simp] theorem along_along (as bs : List UInt8) : (s.along as).along bs = s.along (as ++ bs) := by
  simp [along, Nat.add_assoc]

@[simp] theorem ahead_along (bs : List UInt8) : (s.along bs).ahead = s.ahead.drop bs.length := by
  simp [ahead, along]

theorem line_along_encode (cs : List Char) :
    (s.along (encode cs)).line = s.line + cs.count '\n' := by
  rw [← count_encode]
  rfl

@[simp] theorem move_zero : s.move 0 = s := rfl

@[simp] theorem move_move (m n : Nat) : (s.move m).move n = s.move (m + n) := by
  simp [move, Nat.add_assoc]

@[simp] theorem ahead_move (n : Nat) : (s.move n).ahead = s.ahead.drop n := by
  simp [ahead, move]

theorem byte?_eq (i : Nat) : s.byte? (s.curr + i) = s.ahead[i]? := by
  simp [byte?, ahead]

theorem length_ahead : s.ahead.length = s.size - s.curr := by
  simp [ahead, size]

theorem isAtEnd_eq : s.isAtEnd = s.ahead.isEmpty := by
  rw [Bool.eq_iff_iff, List.isEmpty_iff_length_eq_zero, length_ahead, isAtEnd, decide_eq_true_iff]
  omega

theorem advance_eq : s.advance = s.ahead.head?.map (·, s.move 1) := by
  have h := s.byte?_eq 0
  rw [Nat.add_zero, ← List.head?_eq_getElem?] at h
  rw [advance, h]
  cases s.ahead.head? <;> rfl

theorem peek_eq : s.peek = some (s.ahead.headD 0) := by
  have h := s.byte?_eq 0
  rw [Nat.add_zero] at h
  rw [peek, isAtEnd_eq, h]
  cases s.ahead <;> rfl

theorem peekNext_eq : s.peekNext = some (s.ahead.tail.headD 0) := by
  have h := s.byte?_eq 1
  have hlen := s.length_ahead
  rw [peekNext, h]
  match hs : s.ahead with
  | [] | [_] =>
    rw [hs] at hlen
    rw [if_pos (by simp at hlen; omega)]
    rfl
  | _ :: b :: bs =>
    rw [hs] at hlen
    rw [if_neg (by simp at hlen; omega)]
    rfl

end

variable {s : Scanner} {b : UInt8} {bs : List UInt8}

theorem along_eq_move (h : bs.count '\n'.toUInt8 = 0) : s.along bs = s.move bs.length := by
  rw [along, h]
  rfl

theorem advance_cons (h : s.ahead = b :: bs) : s.advance = some (b, s.move 1) := by
  rw [advance_eq, h]
  rfl

theorem accept_eq (expected : UInt8) :
    s.accept expected =
      if s.ahead.head? = some expected then some (true, s.move 1) else some (false, s) := by
  rw [accept, isAtEnd_eq, peek_eq]
  cases h : s.ahead with
  | nil => rfl
  | cons b bs =>
    by_cases hb : b = expected <;> simp [hb, advance_cons h]

theorem advanceWhile_eq {p : UInt8 → Bool} (hp : p 0 = false) :
    s.advanceWhile p = some (s.move (s.ahead.takeWhile p).length) := by
  induction h : s.ahead generalizing s with
  | nil =>
    rw [advanceWhile_step, peek_eq, h]
    simp [hp]
  | cons b bs ih =>
    have hmove : (s.move 1).ahead = bs := by rw [ahead_move, h, List.drop_one, List.tail_cons]
    rw [advanceWhile_step, peek_eq, h]
    cases hb : p b with
    | true => simp [hb, advance_cons h, ih hmove, Nat.add_comm]
    | false => simp [hb]

theorem advanceToQuote_eq :
    s.advanceToQuote = some (s.along (s.ahead.takeWhile (· ≠ '"'.toUInt8))) := by
  induction h : s.ahead generalizing s with
  | nil =>
    rw [advanceToQuote_step, isAtEnd_eq, peek_eq, h]
    rfl
  | cons b bs ih =>
    have halong : (s.along [b]).ahead = bs := by
      rw [ahead_along, h, List.length_singleton, List.drop_one, List.tail_cons]
    rw [advanceToQuote_step, isAtEnd_eq, peek_eq, h]
    by_cases hq : b = '"'.toUInt8
    · simp [hq]
    · have hstep : (if b = '\n'.toUInt8 then
          advanceToQuote { s.move 1 with line := (s.move 1).line + 1 }
          else (s.move 1).advanceToQuote) = (s.along [b]).advanceToQuote := by
        by_cases hb : b = '\n'.toUInt8
        · subst hb
          rfl
        · have hcount : [b].count '\n'.toUInt8 = 0 := by simp [hb]
          rw [if_neg hb, along_eq_move hcount, List.length_singleton]
      simp [hq, advance_cons h, hstep, ih halong]

structure Within (s : Scanner) (before text after : List Char) : Prop where
  source : s.source = String.ofList (before ++ text ++ after)
  start : s.start = (encode before).length
  curr : s.curr = (encode (before ++ text)).length

variable {before text more after cs : List Char} {c : Char}

namespace Within

theorem ahead (h : s.Within before text after) : s.ahead = encode after := by
  rw [Scanner.ahead, h.source, h.curr, bytes_ofList, encode_append (before ++ text), List.drop_left]

theorem along (h : s.Within before text cs) (hcs : cs = more ++ after) :
    (s.along (encode more)).Within before (text ++ more) after := by
  subst hcs
  constructor
  · simp [Scanner.along, h.source]
  · exact h.start
  · simp [Scanner.along, h.curr, Nat.add_assoc]

theorem slice (h : s.Within before text after) :
    slice? s.source s.start s.curr = some (String.ofList text) := by
  rw [h.source, h.start, h.curr]
  exact slice?_ofList before text after

theorem bytes (h : s.Within before text after) :
    bytes? s.source s.start s.curr = some (encode text) := by
  rw [h.source, h.start, h.curr]
  exact bytes?_ofList before text after

theorem slice_inner {d : Char} (h : s.Within before (c :: text ++ [d]) after)
    (hc : c.toNat < 128) (hd : d.toNat < 128) :
    slice? s.source (s.start + 1) (s.curr - 1) = some (String.ofList text) := by
  have hsource : s.source = String.ofList ((before ++ [c]) ++ text ++ (d :: after)) := by
    rw [h.source]
    simp
  have hstart : s.start + 1 = (encode (before ++ [c])).length := by
    rw [h.start]
    simp [utf8EncodeChar_ascii hc]
  have hcurr : s.curr - 1 = (encode ((before ++ [c]) ++ text)).length := by
    rw [h.curr]
    simp [utf8EncodeChar_ascii hc, utf8EncodeChar_ascii hd]
  rw [hsource, hstart, hcurr]
  exact slice?_ofList (before ++ [c]) text (d :: after)

theorem advance (h : s.Within before text (c :: cs)) (hc : c.toNat < 128) (hn : c ≠ '\n') :
    s.advance = some (c.toUInt8, s.along (encode [c])) := by
  have hahead : s.ahead = c.toUInt8 :: encode cs := by
    rw [h.ahead, encode_cons, utf8EncodeChar_ascii hc]
    rfl
  have hcount := count_newline_singleton hn
  rw [advance_cons hahead, along_eq_move hcount, encode_cons, utf8EncodeChar_ascii hc]
  rfl

theorem advanceWhile {p : UInt8 → Bool} {q : Char → Bool} (h : s.Within before text cs)
    (hpq : Beside p q) (hp : p 0 = false) (hq : q '\n' = false) :
    s.advanceWhile p = some (s.along (encode (cs.takeWhile q))) := by
  rw [advanceWhile_eq hp, h.ahead, hpq.takeWhile_encode,
    along_eq_move (count_newline_takeWhile hq cs)]

theorem accept {d : Char} (h : s.Within before text cs) (hd : d.toNat < 128) (hn : d ≠ '\n') :
    s.accept d.toUInt8 =
      some (if Cut.starts (· = d) cs then (true, s.along (encode [d])) else (false, s)) := by
  have hcount := count_newline_singleton hn
  have hhead : (s.ahead.head? = some d.toUInt8) ↔ Cut.starts (· = d) cs = true := by
    rw [h.ahead]
    cases cs with
    | nil => simp [Cut.starts]
    | cons c cs =>
      obtain ⟨b, bs, hbs, hb⟩ := exists_mem_utf8EncodeChar c
      have hbeside := (Beside.eq hd).of_mem hb
      simpa [hbs, Cut.starts] using hbeside
  rw [accept_eq, along_eq_move hcount, encode_cons, utf8EncodeChar_ascii hd]
  simp only [hhead, apply_ite some]
  rfl

theorem slice_ahead (h : s.Within before text after) :
    slice? s.source s.curr s.size = some (String.ofList after) := by
  have hslice := slice?_ofList (before ++ text) after []
  rw [List.append_nil] at hslice
  rw [size, h.source, h.curr, utf8ByteSize_ofList]
  exact hslice

theorem bytes_ahead (h : s.Within before text after) :
    bytes? s.source s.curr s.size = some (encode after) := by
  have hbytes := bytes?_ofList (before ++ text) after []
  rw [List.append_nil] at hbytes
  rw [size, h.source, h.curr, utf8ByteSize_ofList]
  exact hbytes

end Within

def past (s : Scanner) (cut : Cut) : Option LexicalFault × Scanner :=
  match cut.piece with
  | .gap => (none, s.along (encode cut.text))
  | .token kind => (none, (s.along (encode cut.text)).found kind)
  | .fault fault => (some fault, s.along (encode cut.text))

theorem string_eq (h : s.Within before [] ('"' :: cs)) :
    (s.along (encode ['"'])).string = some (s.past (.string cs)) := by
  have hne : Beside (· ≠ '"'.toUInt8) (· ≠ '"') := .ne (by decide)
  have h₁ : (s.along (encode ['"'])).Within before ['"'] cs := h.along rfl
  have hquote : (s.along (encode ['"'])).advanceToQuote =
      some (s.along (encode ('"' :: cs.takeWhile (· ≠ '"')))) := by
    rw [advanceToQuote_eq, h₁.ahead, hne.takeWhile_encode, along_along, ← encode_append]
    rfl
  have hcs := (List.takeWhile_append_dropWhile (p := (· ≠ '"')) (l := cs)).symm
  have hstarts := Cut.starts_dropWhile (· ≠ '"') cs
  have h₂ : (s.along (encode ('"' :: cs.takeWhile (· ≠ '"')))).Within before
      ('"' :: cs.takeWhile (· ≠ '"')) (cs.dropWhile (· ≠ '"')) :=
    h.along (congrArg _ hcs)
  rw [string, hquote, Cut.string]
  cases hd : cs.dropWhile (· ≠ '"') with
  | nil =>
    rw [hd] at h₂
    simp only [Option.bind_eq_bind, Option.bind_some, isAtEnd_eq, h₂.ahead]
    rfl
  | cons quote rest =>
    rw [hd] at h₂ hstarts
    obtain rfl : quote = '"' := by simpa [Cut.starts] using hstarts
    have h₃ := h₂.along (show '"' :: rest = ['"'] ++ rest from rfl)
    have hinner := h₃.slice_inner (by decide) (by decide)
    simp only [along_along, ← encode_append] at hinner
    simp only [Option.bind_eq_bind, Option.bind_some, isAtEnd_eq, h₂.ahead,
      h₂.advance (by decide) (by decide), along_along, ← encode_append]
    rw [if_neg (by simp), hinner]
    rfl

theorem ofText_whole {whole : List Char} (h : whole.all Char.isDigit) :
    Number.ofText (String.ofList whole) = Number.ofDecimal whole [] := by
  have hne : whole.all (· ≠ '.') := all_ne_of_all h rfl
  have htake : (whole ++ []).takeWhile (· ≠ '.') = whole := Cut.takeWhile_append hne rfl
  have hdrop : (whole ++ []).dropWhile (· ≠ '.') = [] := Cut.dropWhile_append hne rfl
  rw [List.append_nil] at htake hdrop
  rw [Number.ofText, String.toList_ofList, htake, hdrop]
  rfl

theorem ofText_fraction {whole fraction : List Char} (h : whole.all Char.isDigit) :
    Number.ofText (String.ofList (whole ++ '.' :: fraction)) =
      Number.ofDecimal whole fraction := by
  have hne : whole.all (· ≠ '.') := all_ne_of_all h rfl
  rw [Number.ofText, String.toList_ofList, Cut.takeWhile_append hne rfl,
    Cut.dropWhile_append hne rfl]
  rfl

theorem beside_isDigit : Beside isDigit Char.isDigit :=
  .ofUInt8 fun _ hc => (foreign hc).digit

theorem startsFraction_encode (cs : List Char) :
    (decide ((encode cs).headD 0 = '.'.toUInt8) && isDigit ((encode cs).tail.headD 0)) =
      Cut.startsFraction cs := by
  rw [(Beside.eq (d := '.') (by decide)).headD_encode rfl cs, Cut.startsFraction]
  cases hp : Cut.starts (· = '.') cs with
  | true =>
    obtain ⟨ds, rfl⟩ := Cut.exists_of_starts hp
    exact beside_isDigit.headD_encode rfl ds
  | false => rfl

theorem fraction_stop (h : s.Within before text cs) (hf : Cut.startsFraction cs = false) :
    s.fraction = some s := by
  simp only [fraction, Option.bind_eq_bind, peek_eq, peekNext_eq, Option.bind_some, h.ahead,
    startsFraction_encode, hf]
  rfl

theorem fraction_more {d : Char} {ds : List Char} (h : s.Within before text ('.' :: d :: ds))
    (hd : d.isDigit) :
    s.fraction = some (s.along (encode ('.' :: d :: ds.takeWhile Char.isDigit))) := by
  have hf : Cut.startsFraction ('.' :: d :: ds) = true := hd
  have hmore := h.along (show '.' :: d :: ds = ['.'] ++ d :: ds from rfl)
  simp only [fraction, Option.bind_eq_bind, peek_eq, peekNext_eq, Option.bind_some, h.ahead,
    startsFraction_encode, hf, if_true, h.advance (by decide) (by decide),
    hmore.advanceWhile beside_isDigit rfl rfl, List.takeWhile_cons_of_pos hd, along_along,
    ← encode_append, List.singleton_append]

theorem number_eq (h : s.Within before [] (c :: cs)) (hc : c.isDigit) :
    (s.along (encode [c])).number.map (none, ·) = some (s.past (.number c cs)) := by
  have h₁ : (s.along (encode [c])).Within before [c] cs := h.along rfl
  have h₂ := h₁.along (List.takeWhile_append_dropWhile (p := Char.isDigit) (l := cs)).symm
  have hall : (c :: cs.takeWhile Char.isDigit).all Char.isDigit := by
    simp [hc, List.all_takeWhile]
  simp only [along_along, ← encode_append, List.singleton_append] at h₂
  rw [number, h₁.advanceWhile beside_isDigit rfl rfl]
  simp only [Option.bind_eq_bind, Option.bind_some, along_along, ← encode_append,
    List.singleton_append]
  cases hf : Cut.startsFraction (cs.dropWhile Char.isDigit) with
  | true =>
    obtain ⟨d, ds, hd, hdigit⟩ := Cut.exists_of_startsFraction hf
    rw [hd] at h₂
    have hds : '.' :: d :: ds =
        '.' :: d :: ds.takeWhile Char.isDigit ++ ds.dropWhile Char.isDigit := by simp
    rw [Cut.number_eq_fraction hd hdigit, fraction_more h₂ hdigit, Option.bind_some,
      (h₂.along hds).slice, Option.bind_some, ofText_fraction hall, along_along, ← encode_append]
    rfl
  | false =>
    rw [Cut.number_eq hf, fraction_stop h₂ hf, Option.bind_some, h₂.slice, Option.bind_some,
      ofText_whole hall]
    rfl

theorem word_eq (h : s.Within before [] (c :: cs)) :
    (s.along (encode [c])).word.map (none, ·) = some (s.past (.word c cs)) := by
  have hpart : Beside (fun b => Cut.isWordPart (.ofUInt8 b)) Cut.isWordPart :=
    .ofUInt8 fun _ hc => by simp [Cut.isWordPart, (foreign hc).digit, (foreign hc).word]
  have h₁ : (s.along (encode [c])).Within before [c] cs := h.along rfl
  have h₂ := h₁.along (List.takeWhile_append_dropWhile (p := Cut.isWordPart) (l := cs)).symm
  simp only [along_along, ← encode_append, List.singleton_append] at h₂
  rw [word, h₁.advanceWhile hpart rfl rfl]
  simp only [Option.bind_eq_bind, Option.bind_some, along_along, ← encode_append,
    List.singleton_append, h₂.bytes, ofBytes?_encode]
  rw [Cut.word, past, Cut.wordKind]
  cases Keyword.ofWord? (String.ofList (c :: cs.takeWhile Cut.isWordPart)) <;> rfl

theorem getD_findIdx? (p : UInt8 → Bool) (bs : List UInt8) :
    (bs.findIdx? p).getD bs.length = (bs.takeWhile (!p ·)).length := by
  induction bs with
  | nil => rfl
  | cons b bs ih =>
    rw [List.findIdx?_cons]
    cases hb : p b with
    | true => simp [hb]
    | false =>
      rw [List.takeWhile_cons_of_pos (by simp [hb]), List.length_cons, List.length_cons, ← ih]
      cases bs.findIdx? p <;> simp

theorem comment_eq (h : s.Within before text cs) :
    s.comment = some (s.along (encode (cs.takeWhile (· ≠ '\n')))) := by
  have hne : Beside (· ≠ '\n'.toUInt8) (· ≠ '\n') := .ne (by decide)
  have hlen : ((encode cs).findIdx? (· = '\n'.toUInt8)).getD (encode cs).length =
      ((encode cs).takeWhile (· ≠ '\n'.toUInt8)).length := by
    simpa using getD_findIdx? (· = '\n'.toUInt8) (encode cs)
  have hcount := count_newline_takeWhile (q := (· ≠ '\n')) (by simp) cs
  have hsize : s.size = s.curr + (encode cs).length := by
    rw [size, h.source, utf8ByteSize_ofList, encode_append, List.length_append, h.curr]
  rw [hne.takeWhile_encode] at hlen
  rw [comment, h.bytes_ahead, along_eq_move hcount, ← hlen]
  simp only [Option.bind_eq_bind, Option.bind_some]
  cases (encode cs).findIdx? (· = '\n'.toUInt8) with
  | some i => rfl
  | none =>
    rw [hsize]
    rfl

theorem unexpected_eq (h : s.Within before [] (c :: cs)) (hn : c ≠ '\n') (n : Nat) :
    (s.move n).unexpected = some (some (.unexpectedCharacter c), s.along (encode [c])) := by
  have hcount := count_newline_singleton hn
  have hcurr : s.curr = s.start := by rw [h.curr, h.start, List.append_nil]
  have hslice := h.slice_ahead
  rw [hcurr] at hslice
  have hslice : slice? (s.move n).source (s.move n).start (s.move n).size =
      some (String.ofList (c :: cs)) := hslice
  rw [unexpected, hslice, along_eq_move hcount, move, hcurr]
  simp [move, hcurr]

theorem rest_foreign (hc : 128 ≤ c.toNat) : s.rest c = s.unexpected := by
  have hf := foreign hc
  have hblank : (decide (c = ' ') || decide (c = '\r') || decide (c = '\t')) = false ∧
      c ≠ '\n' := by
    simpa [Cut.isBlank] using hf.blank
  simp [rest, hblank, hf.slash, hf.quote, hf.digit, hf.word, hf.single, hf.extended]

theorem first_foreign (hc : 128 ≤ c.toNat) (cs : List Char) :
    Cut.first c cs = ⟨.fault (.unexpectedCharacter c), [c], cs⟩ := by
  have hf := foreign hc
  simp [Cut.first, hf.blank, hf.slash, hf.quote, hf.digit, hf.word, hf.single, hf.extended]

theorem slash_eq (h : s.Within before [] ('/' :: cs)) :
    (s.along (encode ['/'])).rest '/' = some (s.past (.slash cs)) := by
  have h₁ : (s.along (encode ['/'])).Within before ['/'] cs := h.along rfl
  rw [rest, if_neg (by decide), if_neg (by decide), if_pos rfl, h₁.accept (by decide) (by decide)]
  cases hs : Cut.starts (· = '/') cs with
  | true =>
    obtain ⟨ds, rfl⟩ := Cut.exists_of_starts hs
    have h₂ : (s.along (encode ['/', '/'])).Within before ['/', '/'] ds := h.along rfl
    simp only [if_true, Option.bind_eq_bind, Option.bind_some, along_along, ← encode_append,
      List.singleton_append, comment_eq h₂]
    rfl
  | false =>
    rw [Cut.slash_eq hs]
    rfl

theorem operator_eq (h : s.Within before [] (c :: cs)) (short long : Punctuator) :
    ((s.along (encode [c])).accept '='.toUInt8).map (fun r =>
      (none, r.2.found (.punct (if r.1 then long else short)))) =
      some (s.past (.operator c short long cs)) := by
  have h₁ : (s.along (encode [c])).Within before [c] cs := h.along rfl
  rw [h₁.accept (by decide) (by decide)]
  cases hs : Cut.starts (· = '=') cs with
  | true =>
    obtain ⟨ds, rfl⟩ := Cut.exists_of_starts hs
    simp only [if_true, Option.map_some, along_along, ← encode_append]
    rfl
  | false =>
    rw [Cut.operator_eq short long hs]
    rfl

theorem rest_ascii (h : s.Within before [] (c :: cs)) (hn : c ≠ '\n') :
    (s.along (encode [c])).rest c = some (s.past (.first c cs)) := by
  unfold Cut.first
  by_cases hb : Cut.isBlank c
  · have hblank : (c = ' ' || c = '\r' || c = '\t') = true := by
      simpa [Cut.isBlank, hn] using hb
    rw [if_pos hb, rest, if_pos hblank]
    rfl
  have hblank : ¬ (c = ' ' || c = '\r' || c = '\t') = true := by
    simpa [Cut.isBlank, hn] using hb
  rw [if_neg hb]
  by_cases hs : c = '/'
  · subst hs
    rw [if_pos rfl, slash_eq h]
  rw [if_neg hs, rest, if_neg hblank, if_neg hn, if_neg hs]
  by_cases hq : c = '"'
  · subst hq
    rw [if_pos rfl, if_pos rfl, string_eq h]
  rw [if_neg hq, if_neg hq]
  by_cases hd : c.isDigit
  · rw [if_pos hd, if_pos hd, ← number_eq h hd]
    cases (s.along (encode [c])).number <;> rfl
  rw [if_neg hd, if_neg hd]
  by_cases hw : Cut.isWordStart c
  · rw [if_pos hw, if_pos hw, ← word_eq h]
    cases (s.along (encode [c])).word <;> rfl
  rw [if_neg hw, if_neg hw]
  cases hsingle : Cut.single? c with
  | some p => rfl
  | none =>
    cases hext : Cut.extended? c with
    | some e =>
      rw [← operator_eq h]
      cases (s.along (encode [c])).accept '='.toUInt8 <;> rfl
    | none =>
      have hmove : s.along (encode [c]) = s.move (encode [c]).length :=
        along_eq_move (count_newline_singleton hn)
      change (s.along (encode [c])).unexpected = some (some (.unexpectedCharacter c), _)
      rw [hmove, unexpected_eq h hn, ← hmove]

theorem piece_of_advance {s' : Scanner} (h : s.advance = some (b, s')) :
    s.piece = s'.rest (.ofUInt8 b) := by
  rw [piece, h]
  rfl

theorem piece_eq (h : s.Within before [] (c :: cs)) : s.piece = some (s.past (.first c cs)) := by
  by_cases hc : c.toNat < 128
  · by_cases hn : c = '\n'
    · subst hn
      have hahead : s.ahead = '\n'.toUInt8 :: encode cs := h.ahead
      rw [piece_of_advance (advance_cons hahead)]
      rfl
    · rw [piece_of_advance (h.advance hc hn), ofUInt8_toUInt8 hc]
      exact rest_ascii h hn
  · have hc : 128 ≤ c.toNat := Nat.not_lt.mp hc
    obtain ⟨b, bs, hbs, hb⟩ := exists_mem_utf8EncodeChar c
    have hb : 128 ≤ (Char.ofUInt8 b).toNat := by
      rw [toNat_ofUInt8]
      exact le_of_mem_utf8EncodeChar hc hb
    have hahead : s.ahead = b :: (bs ++ encode cs) := by
      rw [h.ahead, encode_cons, hbs, List.cons_append]
    have hn : c ≠ '\n' := by
      rintro rfl
      exact absurd hc (by decide)
    rw [piece_of_advance (advance_cons hahead), rest_foreign hb, unexpected_eq h hn,
      first_foreign hc]
    rfl

structure Stands (s : Scanner) (before after : List Char) : Prop where
  source : s.source = String.ofList (before ++ after)
  curr : s.curr = (encode before).length

namespace Stands

theorem size (h : s.Stands before after) : s.size = s.curr + (encode after).length := by
  rw [Scanner.size, h.source, h.curr, utf8ByteSize_ofList, encode_append, List.length_append]

theorem within (h : s.Stands before after) : s.ready.Within before [] after := by
  constructor
  · rw [List.append_nil, ← h.source]
    rfl
  · exact h.curr
  · rw [List.append_nil, ← h.curr]
    rfl

theorem along (h : s.Stands before (more ++ after)) :
    (s.along (encode more)).Stands (before ++ more) after := by
  constructor
  · rw [List.append_assoc, ← h.source]
    rfl
  · rw [encode_append, List.length_append, ← h.curr]
    rfl

theorem lt_size (h : s.Stands before (c :: cs)) : s.curr < s.size := by
  obtain ⟨b, bs, hbs, -⟩ := exists_mem_utf8EncodeChar c
  rw [h.size, encode_cons, hbs]
  simp

end Stands

theorem next_cons (h : s.Stands before (c :: cs)) :
    s.next =
      match (Cut.first c cs).item? (s.line + (Cut.first c cs).text.count '\n') with
      | some item => some (some item, s.ready.along (encode (Cut.first c cs).text))
      | none => (s.ready.along (encode (Cut.first c cs).text)).next := by
  have hw := h.within.along (Cut.first_append c cs).symm
  have hline : (s.ready.along (encode (Cut.first c cs).text)).line =
      s.line + (Cut.first c cs).text.count '\n' := line_along_encode s.ready _
  rw [next_step h.lt_size, piece_eq h.within, Cut.item?, ← hline]
  cases hpiece : (Cut.first c cs).piece with
  | gap =>
    simp only [past, hpiece]
    rfl
  | token kind =>
    have hslice : slice? ((s.ready.along (encode (Cut.first c cs).text)).found kind).source
        ((s.ready.along (encode (Cut.first c cs).text)).found kind).start
        ((s.ready.along (encode (Cut.first c cs).text)).found kind).curr =
        some (String.ofList (Cut.first c cs).text) := hw.slice
    simp only [past, hpiece, Option.bind_eq_bind, Option.bind_some, found] at hslice ⊢
    rw [hslice]
    rfl
  | fault fault =>
    simp only [past, hpiece]
    rfl

theorem next_eq (h : s.Stands before after) :
    ∃ item s', s.next = some (some item, s') ∧
      (scanFrom s.line after = [item] ∧ s'.size < s'.curr ∨
        ∃ before' after', s'.Stands before' after' ∧
          scanFrom s.line after = item :: scanFrom s'.line after') := by
  induction hn : after.length using Nat.strongRecOn generalizing s before after with
  | _ n ih =>
    cases after with
    | nil =>
      have hsize : s.curr = s.size := h.size.symm
      rw [next, if_neg (by omega), if_pos hsize, scanFrom]
      exact ⟨_, _, rfl, .inl ⟨rfl, by change s.size < s.curr + 1; omega⟩⟩
    | cons c cs =>
      have hlen : (Cut.first c cs).rest.length < n := hn ▸ Cut.length_rest_first_lt c cs
      have hready : s.ready.Stands before ((Cut.first c cs).text ++ (Cut.first c cs).rest) := by
        rw [Cut.first_append]
        exact ⟨h.source, h.curr⟩
      have hline : (s.ready.along (encode (Cut.first c cs).text)).line =
          s.line + (Cut.first c cs).text.count '\n' := line_along_encode s.ready _
      have hnext := next_cons h
      rw [scanFrom]
      rw [← hline] at hnext ⊢
      cases hitem : (Cut.first c cs).item? (s.ready.along (encode (Cut.first c cs).text)).line with
      | none =>
        rw [hitem] at hnext
        rw [hnext]
        exact ih _ hlen hready.along rfl
      | some item =>
        rw [hitem] at hnext
        exact ⟨item, _, hnext, .inr ⟨_, _, hready.along, rfl⟩⟩

theorem next_beyond (h : s.size < s.curr) : s.next = some (none, s) := by
  rw [next, if_pos h]
  rfl

theorem nth_beyond (h : s.size < s.curr) (n : Nat) : s.nth n = some none := by
  induction n with
  | zero => rw [nth, next_beyond h, Option.map_some]
  | succ n ih =>
    rw [nth, next_beyond h]
    exact ih

theorem nth_eq (h : s.Stands before after) (n : Nat) :
    s.nth n = some (scanFrom s.line after)[n]? := by
  induction n generalizing s before after with
  | zero =>
    obtain ⟨item, s', hnext, ⟨hscan, -⟩ | ⟨_, _, -, hscan⟩⟩ := next_eq h <;>
      rw [nth, hnext, hscan] <;> rfl
  | succ n ih =>
    obtain ⟨item, s', hnext, ⟨hscan, hbeyond⟩ | ⟨_, _, hs', hscan⟩⟩ := next_eq h
    · rw [nth, hnext, hscan]
      -- after the last token there is nothing for ever
      exact nth_beyond hbeyond n
    · rw [nth, hnext, hscan]
      exact ih hs'

theorem nth_new (source : String) (n : Nat) : (new source).nth n = some (scan source)[n]? := by
  have hstands : (new source).Stands [] source.toList := ⟨by simp [new], rfl⟩
  exact nth_eq hstands n

end Scanner

end Treewalk
