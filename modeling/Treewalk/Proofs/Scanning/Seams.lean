import Mathlib.Data.List.Forall2
import Treewalk.Token.Scan

/-!
Where one piece of a text ends and the next begins. A piece depends on what follows it only as far
as it could go on there, so texts can be put together at a newline, and a word can give way to
another.
-/

namespace Treewalk

namespace Cut

def starts (p : Char → Bool) (cs : List Char) : Bool := cs.head?.any p

def startsFraction (cs : List Char) : Bool := starts (· = '.') cs && starts Char.isDigit cs.tail

def continuations : List (Char → Bool) :=
  [Char.isDigit, isWordPart, (· = '='), (· = '/'), (· ≠ '\n')]

/-- Whatever has ended where `rest` begins has ended where `rest'` begins. -/
structure Ends (rest rest' : List Char) : Prop where
  character : ∀ p ∈ continuations, starts p rest = false → starts p rest' = false
  fraction : startsFraction rest = false → startsFraction rest' = false

def extensions : List (Char → Bool) := [Char.isDigit, isWordPart, (· = '='), (· = '/')]

structure Parts (rest rest' : List Char) : Prop where
  character : ∀ p ∈ extensions, starts p rest = false → starts p rest' = false
  fraction : startsFraction rest = false → startsFraction rest' = false

theorem Ends.line {rest rest' : List Char} (h : Ends rest rest') :
    starts (· ≠ '\n') rest = false → starts (· ≠ '\n') rest' = false :=
  h.character _ (by simp [continuations])

theorem Ends.parts {rest rest' : List Char} (h : Ends rest rest') : Parts rest rest' where
  character p hp := h.character p (List.subset_append_left extensions [(· ≠ '\n')] hp)
  fraction := h.fraction

section While

variable {p : Char → Bool} {run rest : List Char}

theorem exists_of_starts {d : Char} {cs : List Char} (h : starts (· = d) cs = true) :
    ∃ ds, cs = d :: ds := by
  cases cs with
  | nil => cases h
  | cons c cs => exact ⟨cs, by simpa [starts] using h⟩

theorem starts_dropWhile (p : Char → Bool) (cs : List Char) :
    starts p (cs.dropWhile p) = false := by
  have h := List.head?_dropWhile_not p cs
  unfold starts
  cases hd : (cs.dropWhile p).head? with
  | none => rfl
  | some c => simpa [hd] using h

theorem takeWhile_append (hr : run.all p) (h : starts p rest = false) :
    (run ++ rest).takeWhile p = run := by
  rw [List.takeWhile_append_of_pos (List.all_eq_true.mp hr)]
  cases rest with
  | nil => simp
  | cons c cs => simp [show p c = false by simpa [starts] using h]

theorem dropWhile_append (hr : run.all p) (h : starts p rest = false) :
    (run ++ rest).dropWhile p = rest := by
  rw [List.dropWhile_append_of_pos (List.all_eq_true.mp hr)]
  cases rest with
  | nil => rfl
  | cons c cs => simp [show p c = false by simpa [starts] using h]

end While

variable {c : Char} {cs rest : List Char}

theorem slash_eq (h : starts (· = '/') cs = false) :
    slash cs = ⟨.token (.punct .slash), ['/'], cs⟩ := by
  unfold slash
  split
  · simp [starts] at h
  · rfl

theorem slash_before (h : Parts (slash cs).rest rest)
    (hn : (slash cs).piece = .gap → starts (· ≠ '\n') (slash cs).rest = false →
      starts (· ≠ '\n') rest = false) :
    slash ((slash cs).text.tail ++ rest) = { slash cs with rest } := by
  cases hs : starts (· = '/') cs with
  | true =>
    obtain ⟨ds, rfl⟩ := exists_of_starts hs
    have hall : (('/' :: ds).takeWhile (· ≠ '\n')).all (· ≠ '\n') := List.all_takeWhile
    have hr : starts (· ≠ '\n') rest = false := hn rfl (starts_dropWhile _ ('/' :: ds))
    have hgap : slash (('/' :: ds).takeWhile (· ≠ '\n') ++ rest) =
        ⟨.gap, '/' :: (('/' :: ds).takeWhile (· ≠ '\n') ++ rest).takeWhile (· ≠ '\n'),
          (('/' :: ds).takeWhile (· ≠ '\n') ++ rest).dropWhile (· ≠ '\n')⟩ := rfl
    rw [takeWhile_append hall hr, dropWhile_append hall hr] at hgap
    exact hgap
  | false =>
    rw [slash_eq hs] at h ⊢
    exact slash_eq (h.character _ (by simp [extensions]) hs)

theorem string_before (hp : (string cs).piece ≠ .fault .unterminatedString) :
    string ((string cs).text.tail ++ rest) = { string cs with rest } := by
  cases hd : cs.dropWhile (· ≠ '"') with
  | nil =>
    refine absurd ?_ hp
    simp only [string, hd]
  | cons quote ds =>
    have hall : (cs.takeWhile (· ≠ '"')).all (· ≠ '"') := List.all_takeWhile
    have hq : starts (· ≠ '"') (quote :: rest) = false := by
      have h := starts_dropWhile (· ≠ '"') cs
      rw [hd] at h
      exact h
    have heq : string cs = ⟨.token (.string (String.ofList (cs.takeWhile (· ≠ '"')))),
        '"' :: (cs.takeWhile (· ≠ '"') ++ [quote]), ds⟩ := by simp only [string, hd]
    rw [heq, List.tail_cons, List.append_assoc, List.singleton_append]
    simp only [string, takeWhile_append hall hq, dropWhile_append hall hq]

theorem exists_of_startsFraction (h : startsFraction cs = true) :
    ∃ d ds, cs = '.' :: d :: ds ∧ d.isDigit := by
  match cs with
  | [] | [_] => simp [startsFraction, starts] at h
  | d :: e :: ds =>
    obtain ⟨rfl, he⟩ : d = '.' ∧ e.isDigit := by simpa [startsFraction, starts] using h
    exact ⟨e, ds, rfl, he⟩

theorem number_eq (h : startsFraction (cs.dropWhile Char.isDigit) = false) :
    number c cs = ⟨.token (.number (Number.ofDecimal (c :: cs.takeWhile Char.isDigit) [])),
      c :: cs.takeWhile Char.isDigit, cs.dropWhile Char.isDigit⟩ := by
  unfold number
  split
  · next d ds hd =>
    rw [hd] at h
    have hdigit : d.isDigit = false := by simpa [startsFraction, starts] using h
    rw [hdigit, hd]
    rfl
  · rfl

theorem number_eq_fraction (h : cs.dropWhile Char.isDigit = '.' :: d :: ds) (hd : d.isDigit) :
    number c cs = ⟨.token (.number (Number.ofDecimal (c :: cs.takeWhile Char.isDigit)
        (d :: ds.takeWhile Char.isDigit))),
      (c :: cs.takeWhile Char.isDigit) ++ '.' :: d :: ds.takeWhile Char.isDigit,
      ds.dropWhile Char.isDigit⟩ := by
  simp only [number, h, hd, if_true]

theorem number_before (h : Parts (number c cs).rest rest) :
    number c ((number c cs).text.tail ++ rest) = { number c cs with rest } := by
  have hall : (cs.takeWhile Char.isDigit).all Char.isDigit := List.all_takeWhile
  cases hf : startsFraction (cs.dropWhile Char.isDigit) with
  | true =>
    obtain ⟨d, ds, heq, hd⟩ := exists_of_startsFraction hf
    have hall' : (ds.takeWhile Char.isDigit).all Char.isDigit := List.all_takeWhile
    rw [number_eq_fraction heq hd] at h ⊢
    have hr := h.character Char.isDigit (by simp [extensions]) (starts_dropWhile _ _)
    have hpoint : starts Char.isDigit ('.' :: d :: (ds.takeWhile Char.isDigit ++ rest)) = false :=
      rfl
    have htext : ((c :: cs.takeWhile Char.isDigit) ++
        '.' :: d :: ds.takeWhile Char.isDigit).tail ++ rest =
        cs.takeWhile Char.isDigit ++ '.' :: d :: (ds.takeWhile Char.isDigit ++ rest) := by simp
    rw [htext, number_eq_fraction (dropWhile_append hall hpoint) hd, takeWhile_append hall hpoint,
      takeWhile_append hall' hr, dropWhile_append hall' hr]
  | false =>
    rw [number_eq hf] at h ⊢
    have hr := h.character Char.isDigit (by simp [extensions]) (starts_dropWhile _ _)
    rw [List.tail_cons, number_eq, takeWhile_append hall hr, dropWhile_append hall hr]
    rw [dropWhile_append hall hr]
    exact h.fraction hf

theorem word_before (h : Parts (word c cs).rest rest) :
    word c ((word c cs).text.tail ++ rest) = { word c cs with rest } := by
  have hs := h.character isWordPart (by simp [extensions]) (starts_dropWhile _ _)
  have hall : (cs.takeWhile isWordPart).all isWordPart := List.all_takeWhile
  simp only [word, List.tail_cons, takeWhile_append hall hs, dropWhile_append hall hs]

theorem operator_eq (short long : Punctuator) (h : starts (· = '=') cs = false) :
    operator c short long cs = ⟨.token (.punct short), [c], cs⟩ := by
  unfold operator
  split
  · simp [starts] at h
  · rfl

theorem operator_before (short long : Punctuator) (h : Parts (operator c short long cs).rest rest) :
    operator c short long ((operator c short long cs).text.tail ++ rest) =
      { operator c short long cs with rest } := by
  cases hs : starts (· = '=') cs with
  | true =>
    obtain ⟨ds, rfl⟩ := exists_of_starts hs
    rfl
  | false =>
    rw [operator_eq short long hs] at h ⊢
    exact operator_eq short long (h.character _ (by simp [extensions]) hs)

theorem first_before (hp : (first c cs).piece ≠ .fault .unterminatedString)
    (h : Parts (first c cs).rest rest)
    (hn : (first c cs).piece = .gap → starts (· ≠ '\n') (first c cs).rest = false →
      starts (· ≠ '\n') rest = false) :
    first c ((first c cs).text.tail ++ rest) = { first c cs with rest } := by
  unfold first at hp h hn ⊢
  by_cases hb : isBlank c
  · simp only [if_pos hb, List.tail_cons, List.nil_append]
  simp only [if_neg hb] at hp h hn ⊢
  by_cases hs : c = '/'
  · simp only [if_pos hs] at h hn ⊢
    exact slash_before h hn
  simp only [if_neg hs] at hp h ⊢
  by_cases hq : c = '"'
  · simp only [if_pos hq] at hp ⊢
    exact string_before hp
  simp only [if_neg hq] at hp h ⊢
  by_cases hd : c.isDigit
  · simp only [if_pos hd] at h ⊢
    exact number_before h
  simp only [if_neg hd] at hp h ⊢
  by_cases hw : isWordStart c
  · simp only [if_pos hw] at h ⊢
    exact word_before h
  simp only [if_neg hw] at hp h ⊢
  cases hsingle : single? c with
  | some p => rfl
  | none =>
    cases hext : extended? c with
    | some e =>
      rw [hsingle, hext] at h
      exact operator_before e.1 e.2 h
    | none => rfl

theorem text_first (c : Char) (cs : List Char) :
    (first c cs).text = c :: (first c cs).text.tail := by
  have h := first_append c cs
  cases ht : (first c cs).text with
  | nil => exact absurd ht (text_first_ne_nil c cs)
  | cons d ds =>
    rw [ht] at h
    rw [(List.cons.inj h).1, List.tail_cons]

theorem ne_eof_of_first (h : (first c cs).piece = .token kind) : kind ≠ .eof := by
  rintro rfl
  simp only [first, slash, string, number, word, wordKind, operator] at h
  repeat' split at h
  all_goals cases h

theorem kind_ne_eof_of_item? (h : (first c cs).item? line = some (.token t)) : t.kind ≠ .eof := by
  unfold item? at h
  split at h
  · cases h
  · next hp =>
    cases h
    exact ne_eof_of_first hp
  · cases h

end Cut

open Cut

variable {c : Char} {cs rest : List Char} {line : Nat}

theorem cut_of_mem_scanFrom (h : .token t ∈ scanFrom line cs) :
    t.kind = .eof ∧ t.lexeme = "" ∨
      ∃ d ds, (first d ds).piece = .token t.kind ∧ (first d ds).text = t.lexeme.toList := by
  fun_induction scanFrom line cs with
  | case1 line =>
    cases List.mem_singleton.mp h
    exact .inl ⟨rfl, rfl⟩
  | case2 line c cs cut last ih =>
    obtain h | h := List.mem_append.mp h
    · rw [Option.mem_toList, item?] at h
      split at h
      · cases h
      · next kind hp =>
        cases h
        exact .inr ⟨c, cs, hp, String.toList_ofList.symm⟩
      · cases h
    · exact ih h

theorem scanFrom_before (hp : (first c cs).piece ≠ .fault .unterminatedString)
    (h : Parts (first c cs).rest rest)
    (hn : (first c cs).piece = .gap → starts (· ≠ '\n') (first c cs).rest = false →
      starts (· ≠ '\n') rest = false) :
    scanFrom line ((first c cs).text ++ rest) =
      ((first c cs).item? (line + (first c cs).text.count '\n')).toList ++
        scanFrom (line + (first c cs).text.count '\n') rest := by
  conv_lhs => rw [text_first, List.cons_append, scanFrom, first_before hp h hn]
  rfl

theorem Cut.ends_newline (rest more : List Char) : Ends rest (rest ++ '\n' :: more) := by
  constructor
  · intro p hp h
    cases rest with
    | nil =>
      simp only [continuations, List.mem_cons, List.not_mem_nil, or_false] at hp
      obtain rfl | rfl | rfl | rfl | rfl := hp <;> rfl
    | cons c cs => exact h
  · intro h
    match rest with
    | [] => rfl
    | [c] => exact Bool.and_false _
    | _ :: _ :: _ => exact h

theorem scanFrom_newline (line : Nat) (cs : List Char)
    (hf : ∀ l, .fault .unterminatedString l ∉ scanFrom line cs) :
    ∃ items : List Item, (∀ t, .token t ∈ items → t.kind ≠ .eof) ∧
      scanFrom line cs = items ++ [.token ⟨.eof, "", line + cs.count '\n'⟩] ∧
      ∀ more, scanFrom line (cs ++ '\n' :: more) =
        items ++ scanFrom (line + cs.count '\n' + 1) more := by
  fun_induction scanFrom line cs with
  | case1 line =>
    refine ⟨[], nofun, rfl, fun more => ?_⟩
    rw [List.nil_append, scanFrom]
    rfl
  | case2 line c cs cut last ih =>
    obtain ⟨items, hkind, hitems, hmore⟩ :=
      ih fun l hmem => hf l (List.mem_append_right _ hmem)
    have hp : cut.piece ≠ .fault .unterminatedString := by
      intro hp
      refine hf last (List.mem_append_left _ ?_)
      simp [item?, hp]
    have hcount : line + (c :: cs).count '\n' = last + cut.rest.count '\n' := by
      rw [← first_append c cs, List.count_append, ← Nat.add_assoc]
    refine ⟨(cut.item? last).toList ++ items, ?_, ?_, fun more => ?_⟩
    · intro t ht
      obtain ht | ht := List.mem_append.mp ht
      · exact kind_ne_eof_of_item? (Option.mem_toList.mp ht)
      · exact hkind t ht
    · rw [hitems, hcount, List.append_assoc]
    · rw [hcount, List.append_assoc, ← hmore, ← first_append c cs, List.append_assoc,
        scanFrom_before hp (ends_newline _ more).parts fun _ => (ends_newline _ more).line]

/-- The same item, some lines further down. -/
def Item.down (n : Nat) : Item → Item
  | token t => token { t with line := t.line + n }
  | fault f line => fault f (line + n)

theorem Cut.toList_item?_add (cut : Cut) (line n : Nat) :
    (cut.item? (line + n)).toList = (cut.item? line).toList.map (Item.down n) := by
  unfold item?
  cases cut.piece <;> rfl

theorem scanFrom_add (line n : Nat) (cs : List Char) :
    scanFrom (line + n) cs = (scanFrom line cs).map (Item.down n) := by
  fun_induction scanFrom line cs with
  | case1 line =>
    rw [scanFrom]
    rfl
  | case2 line c cs cut last ih =>
    have hlast : line + n + cut.text.count '\n' = last + n := by omega
    rw [scanFrom, hlast, ih, toList_item?_add, List.map_append]

inductive Item.SameButLine : Item → Item → Prop
  | token : t'.kind = t.kind → t'.lexeme = t.lexeme → SameButLine (.token t) (.token t')
  | fault : SameButLine (.fault f l) (.fault f l')

theorem Item.sameButLine_down (n : Nat) (item : Item) : item.SameButLine (item.down n) := by
  cases item with
  | token t => exact .token rfl rfl
  | fault f line => exact .fault

theorem scanFrom_lines (line n : Nat) (cs : List Char) :
    List.Forall₂ Item.SameButLine (scanFrom line cs) (scanFrom (line + n) cs) := by
  rw [scanFrom_add, List.forall₂_map_right_iff, List.forall₂_same]
  exact fun item _ => item.sameButLine_down n

/-- Nothing reaches over a newline, unless it is a string that is still open: two texts with a
newline between them yield what the first one yields before its end, and then what the second one
yields, on the lines behind the first. -/
theorem scan_append_newline (a b : String)
    (h : ∀ line, .fault .unterminatedString line ∉ scan a) :
    ∃ (items : List Item) (line : Nat),
      (∀ t, .token t ∈ items → t.kind ≠ .eof) ∧
      scan a = items ++ [.token ⟨.eof, "", line⟩] ∧
      scan (a ++ "\n" ++ b) = items ++ (scan b).map (Item.down (1 + a.toList.count '\n')) := by
  obtain ⟨items, hkind, hitems, hmore⟩ := scanFrom_newline 1 a.toList h
  refine ⟨items, _, hkind, hitems, ?_⟩
  have htext : (a ++ "\n" ++ b).toList = a.toList ++ '\n' :: b.toList := by simp
  rw [scan, htext, hmore, Nat.add_comm, scanFrom_add]
  rfl

theorem scan_append_newline_comment :
    (∀ line, .fault .unterminatedString line ∉ scan "é 1 // one") ∧
      ∃ (items : List Item) (line : Nat),
        (∀ t, .token t ∈ items → t.kind ≠ .eof) ∧
        scan "é 1 // one" = items ++ [.token ⟨.eof, "", line⟩] ∧
        scan ("é 1 // one" ++ "\n" ++ ".5") =
          items ++ (scan ".5").map (Item.down (1 + "é 1 // one".toList.count '\n')) := by
  have hscan : scan "é 1 // one" = [.fault (.unexpectedCharacter 'é') 1,
      .token ⟨.number (Number.ofDecimal ['1'] []), "1", 1⟩, .token ⟨.eof, "", 1⟩] := by
    decide +kernel
  have h (line : Nat) : .fault .unterminatedString line ∉ scan "é 1 // one" := by simp [hscan]
  exact ⟨h, scan_append_newline _ _ h⟩

theorem filterMap_token (ts : List Token) : (ts.map Item.token).filterMap Item.token? = ts := by
  rw [List.filterMap_map]
  exact List.filterMap_some

theorem exists_map_token {items : List Item} (h : ∀ f l, .fault f l ∉ items) :
    ∃ ts : List Token, items = ts.map .token := by
  induction items with
  | nil => exact ⟨[], rfl⟩
  | cons item items ih =>
    obtain ⟨ts, rfl⟩ := ih fun f l hmem => h f l (List.mem_cons_of_mem _ hmem)
    cases item with
    | token t => exact ⟨t :: ts, rfl⟩
    | fault f l => exact absurd List.mem_cons_self (h f l)

theorem filterMap_diagnostic (ts : List Token) :
    (ts.map Item.token).filterMap Item.diagnostic? = [] := by
  simp [Item.diagnostic?]

namespace Scanned

def code (scanned : Scanned) : List Token := scanned.tokens.takeWhile (·.kind ≠ .eof)

theorem ne_eof_of_mem_code {scanned : Scanned} (h : t ∈ scanned.code) : t.kind ≠ .eof :=
  of_decide_eq_true (List.all_eq_true.mp List.all_takeWhile t h)

theorem mem_tokens {source : String} : t ∈ (ofSource source).tokens ↔ .token t ∈ scan source := by
  refine List.mem_filterMap.trans ⟨?_, fun h => ⟨_, h, rfl⟩⟩
  rintro ⟨item, hmem, hitem⟩
  cases item with
  | token => cases hitem; exact hmem
  | fault => cases hitem

theorem mem_tokens_of_mem_code {source : String} (h : t ∈ (ofSource source).code) :
    t ∈ (ofSource source).tokens :=
  (List.takeWhile_prefix _).subset h

theorem code_ofSource {source : String} {ts : List Token} {items : List Item}
    (hts : ∀ t ∈ ts, t.kind ≠ .eof) (h : scan source = ts.map .token ++ items) :
    (ofSource source).code = ts ++ (items.filterMap Item.token?).takeWhile (·.kind ≠ .eof) := by
  change ((scan source).filterMap Item.token?).takeWhile (·.kind ≠ .eof) = _
  rw [h, List.filterMap_append, filterMap_token]
  exact List.takeWhile_append_of_pos fun t ht => decide_eq_true (hts t ht)

theorem faults_ofSource {source : String} {ts : List Token} {items : List Item}
    (h : scan source = ts.map .token ++ items) :
    (ofSource source).faults = items.filterMap Item.diagnostic? := by
  change (scan source).filterMap Item.diagnostic? = _
  rw [h, List.filterMap_append, filterMap_diagnostic, List.nil_append]

theorem scan_newline {source : String} (h : (ofSource source).faults = []) :
    ∃ line, scan source = (ofSource source).code.map .token ++ [.token ⟨.eof, "", line⟩] ∧
      ∀ more, scan (source ++ "\n" ++ more) =
        (ofSource source).code.map .token ++ scanFrom (line + 1) more.toList := by
  have hf (f : LexicalFault) (l : Nat) : .fault f l ∉ scan source := by
    intro hmem
    have hd : .lexical f l ∈ (ofSource source).faults := List.mem_filterMap.mpr ⟨_, hmem, rfl⟩
    rw [h] at hd
    cases hd
  obtain ⟨items, hkind, hitems, hmore⟩ := scanFrom_newline 1 source.toList (hf _)
  have hclean (f : LexicalFault) (l : Nat) : .fault f l ∉ items := by
    intro hmem
    rw [show scan source = _ from hitems] at hf
    exact hf f l (List.mem_append_left _ hmem)
  obtain ⟨ts, rfl⟩ := exists_map_token hclean
  have hcode : (ofSource source).code = ts := by
    rw [code_ofSource (fun t ht => hkind t (List.mem_map_of_mem ht)) hitems]
    exact List.append_nil ts
  rw [hcode]
  refine ⟨_, hitems, fun more => ?_⟩
  rw [scan, String.toList_append, String.toList_append, List.append_assoc]
  exact hmore more.toList

end Scanned

end Treewalk
