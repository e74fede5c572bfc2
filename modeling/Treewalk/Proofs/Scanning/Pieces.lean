import Treewalk.Proofs.Scanning.Bytes

namespace Treewalk

def EndsLine (rest : List Char) : Prop := rest = [] ∨ ∃ more, rest = '\n' :: more

/-- Blanks and comments, before what follows them. -/
inductive Gap : List Char → List Char → Prop
  | nil : Gap [] rest
  | blank : c ∈ [' ', '\r', '\t', '\n'] → Gap cs rest → Gap (c :: cs) rest
  | comment : '\n' ∉ body → EndsLine (cs ++ rest) → Gap cs rest →
      Gap ('/' :: '/' :: body ++ cs) rest

def Item.line : Item → Nat
  | token t => t.line
  | fault _ line => line

/-- The text that an item is read from, before what follows it. -/
inductive Spells : List Char → List Char → Item → Prop
  | token : text ≠ [] → kind ≠ .eof →
      Spells text rest (.token ⟨kind, String.ofList text, line⟩)
  | unexpected : Spells [c] rest (.fault (.unexpectedCharacter c) line)
  | unterminated : '"' ∉ body → Spells ('"' :: body) [] (.fault .unterminatedString line)

inductive Shape : Cut → Prop
  | blank : c ∈ [' ', '\r', '\t', '\n'] → Shape ⟨.gap, [c], rest⟩
  | comment : '\n' ∉ body → EndsLine rest → Shape ⟨.gap, '/' :: '/' :: body, rest⟩
  | token : text ≠ [] → kind ≠ .eof → Shape ⟨.token kind, text, rest⟩
  | unexpected : Shape ⟨.fault (.unexpectedCharacter c), [c], rest⟩
  | unterminated : '"' ∉ body → Shape ⟨.fault .unterminatedString, '"' :: body, []⟩

theorem endsLine_dropWhile (cs : List Char) : EndsLine (cs.dropWhile (· ≠ '\n')) := by
  have hstarts := Cut.starts_dropWhile (· ≠ '\n') cs
  cases hd : cs.dropWhile (· ≠ '\n') with
  | nil => exact .inl rfl
  | cons d more =>
    rw [hd] at hstarts
    obtain rfl : d = '\n' := by simpa [Cut.starts] using hstarts
    exact .inr ⟨more, rfl⟩

namespace Shape

theorem slash (cs : List Char) : Shape (.slash cs) := by
  unfold Cut.slash
  split
  · rw [List.takeWhile_cons_of_pos (by decide), List.dropWhile_cons_of_pos (by decide)]
    exact .comment (not_mem_takeWhile (by simp) _) (endsLine_dropWhile _)
  · exact .token (by simp) (by simp)

theorem string (cs : List Char) : Shape (.string cs) := by
  unfold Cut.string
  split
  · exact .unterminated (not_mem_takeWhile (by simp) _)
  · exact .token (by simp) (by simp)

theorem number (c : Char) (cs : List Char) : Shape (.number c cs) := by
  unfold Cut.number
  split
  · split <;> exact .token (by simp) (by simp)
  · exact .token (by simp) (by simp)

theorem word (c : Char) (cs : List Char) : Shape (.word c cs) := by
  refine .token (List.cons_ne_nil _ _) ?_
  unfold Cut.wordKind
  split <;> simp

theorem operator (c : Char) (short long : Punctuator) (cs : List Char) :
    Shape (.operator c short long cs) := by
  unfold Cut.operator
  split <;> exact .token (by simp) (by simp)

theorem first (c : Char) (cs : List Char) : Shape (.first c cs) := by
  unfold Cut.first
  split
  · next hb => exact .blank (by simpa [Cut.isBlank, or_assoc] using hb)
  split
  · exact slash cs
  split
  · exact string cs
  split
  · exact number c cs
  split
  · exact word c cs
  split
  · exact .token (by simp) (by simp)
  · exact operator c _ _ cs
  · exact .unexpected

end Shape

structure Stretch where
  gap : List Char
  text : List Char
  item : Item

def Stretch.chars (p : Stretch) : List Char := p.gap ++ p.text

/-- A text from a line on, taken apart into stretches and a last gap. -/
inductive Tiles : Nat → List Char → List Stretch → List Char → Prop
  | last : Gap gap [] → Tiles line gap [] gap
  | stretch : Gap gap (text ++ rest) → Spells text rest item →
      item.line = line + (gap ++ text).count '\n' → Tiles item.line rest stretches last →
      Tiles line (gap ++ text ++ rest) (⟨gap, text, item⟩ :: stretches) last

namespace Tiles

variable {line : Nat} {cs last more : List Char}
variable {stretches before after : List Stretch} {p : Stretch}

theorem text (h : Tiles line cs stretches last) :
    cs = stretches.flatMap Stretch.chars ++ last := by
  induction h with
  | last _ => rfl
  | stretch _ _ _ _ ih =>
    rw [List.flatMap_cons, List.append_assoc (Stretch.chars _), ← ih]
    rfl

theorem place (h : Tiles line cs stretches last) (hp : stretches = before ++ p :: after) :
    Gap p.gap (p.text ++ (after.flatMap Stretch.chars ++ last)) ∧
    Spells p.text (after.flatMap Stretch.chars ++ last) p.item ∧
    p.item.line = line + (before.flatMap Stretch.chars ++ p.chars).count '\n' := by
  induction h generalizing before with
  | last _ => simp at hp
  | stretch hgap hspells hline htiles ih =>
    cases before with
    | nil =>
      obtain ⟨rfl, rfl⟩ := List.cons.inj hp
      rw [htiles.text] at hgap hspells
      exact ⟨hgap, hspells, hline⟩
    | cons q before =>
      obtain ⟨rfl, rfl⟩ := List.cons.inj hp
      obtain ⟨hgap', hspells', hline'⟩ := ih rfl
      refine ⟨hgap', hspells', ?_⟩
      rw [hline', hline, Nat.add_assoc, ← List.count_append, List.flatMap_cons,
        List.append_assoc (Stretch.chars _)]
      rfl

theorem lastGap (h : Tiles line cs stretches last) : Gap last [] := by
  induction h with
  | last hgap => exact hgap
  | stretch _ _ _ _ ih => exact ih

theorem widen (hmore : ∀ gap after, gap ++ after = cs → Gap gap after → Gap (more ++ gap) after)
    (h : Tiles (line + more.count '\n') cs stretches last) :
    ∃ stretches' last', Tiles line (more ++ cs) stretches' last' ∧
      stretches'.map Stretch.item = stretches.map Stretch.item := by
  cases h with
  | last hgap => exact ⟨[], _, .last (hmore _ _ (List.append_nil _) hgap), rfl⟩
  | @stretch gap text rest item _ stretches _ hgap hspells hline htiles =>
    have hgap' := hmore gap (text ++ rest) (by simp) hgap
    have hline' : item.line = line + (more ++ gap ++ text).count '\n' := by
      rw [hline, Nat.add_assoc, ← List.count_append, List.append_assoc]
    refine ⟨⟨more ++ gap, text, item⟩ :: stretches, last, ?_, rfl⟩
    have h := Tiles.stretch hgap' hspells hline' htiles
    simpa using h

end Tiles

theorem tiles_cut {cut : Cut} (hcut : Shape cut)
    (h : Tiles (line + cut.text.count '\n') cut.rest stretches last) :
    ∃ stretches' last', Tiles line (cut.text ++ cut.rest) stretches' last' ∧
      stretches'.map Stretch.item =
        (cut.item? (line + cut.text.count '\n')).toList ++ stretches.map Stretch.item := by
  cases hcut with
  | blank hc =>
    apply h.widen
    intro gap after _ hgap
    exact .blank hc hgap
  | comment hbody hends =>
    apply h.widen
    rintro gap after rfl hgap
    exact .comment hbody hends hgap
  | token htext hkind => exact ⟨_, last, .stretch .nil (.token htext hkind) rfl h, rfl⟩
  | unexpected => exact ⟨_, last, .stretch .nil .unexpected rfl h, rfl⟩
  | unterminated hbody => exact ⟨_, last, .stretch .nil (.unterminated hbody) rfl h, rfl⟩

theorem scanFrom_tiles (line : Nat) (cs : List Char) :
    ∃ stretches last, Tiles line cs stretches last ∧
      scanFrom line cs = stretches.map Stretch.item ++
        [.token ⟨.eof, "", line + cs.count '\n'⟩] := by
  fun_induction scanFrom line cs with
  | case1 line => exact ⟨[], [], .last .nil, rfl⟩
  | case2 line c cs cut _ ih =>
    obtain ⟨stretches, last, htiles, hscan⟩ := ih
    obtain ⟨stretches', last', htiles', hitems⟩ := tiles_cut (Shape.first c cs) htiles
    rw [Cut.first_append] at htiles'
    refine ⟨stretches', last', htiles', ?_⟩
    rw [hscan, hitems, List.append_assoc, ← Cut.first_append c cs, List.count_append,
      ← Nat.add_assoc]

theorem line_of_mem_scan {source : String} (h : item ∈ scan source) :
    1 ≤ item.line ∧ item.line ≤ 1 + source.toList.count '\n' := by
  obtain ⟨stretches, last, htiles, hscan⟩ := scanFrom_tiles 1 source.toList
  rw [show scan source = _ from hscan, List.mem_append, List.mem_map, List.mem_singleton] at h
  obtain ⟨p, hp, rfl⟩ | rfl := h
  · obtain ⟨before, after, hsplit⟩ := List.append_of_mem hp
    obtain ⟨-, -, hline⟩ := htiles.place hsplit
    have htext : source.toList =
        before.flatMap Stretch.chars ++ p.chars ++ (after.flatMap Stretch.chars ++ last) := by
      rw [htiles.text, hsplit]
      simp
    have hcount := (List.sublist_append_left (before.flatMap Stretch.chars ++ p.chars)
      (after.flatMap Stretch.chars ++ last)).count_le '\n'
    rw [hline, htext]
    exact ⟨Nat.le_add_right _ _, Nat.add_le_add_left hcount _⟩
  · exact ⟨Nat.le_add_right _ _, Nat.le_refl _⟩

/-- Scanning loses nothing: the text is what its items are read from, each on the line where its
text ends, with only blanks and comments between them. The scanner on bytes yields these items one
by one and then nothing, and never reads out of range or inside a character. -/
theorem scan_lossless (source : String) :
    ∃ (stretches : List Stretch) (last : List Char),
      source.toList = stretches.flatMap Stretch.chars ++ last ∧
      Gap last [] ∧
      scan source = stretches.map Stretch.item ++
        [.token ⟨.eof, "", 1 + source.toList.count '\n'⟩] ∧
      (∀ before p after, stretches = before ++ p :: after →
        Gap p.gap (p.text ++ (after.flatMap Stretch.chars ++ last)) ∧
        Spells p.text (after.flatMap Stretch.chars ++ last) p.item ∧
        p.item.line = 1 + (before.flatMap Stretch.chars ++ p.chars).count '\n') ∧
      ∀ n, (Scanner.new source).nth n = some (scan source)[n]? := by
  obtain ⟨stretches, last, htiles, hscan⟩ := scanFrom_tiles 1 source.toList
  exact ⟨stretches, last, htiles.text, htiles.lastGap, hscan, fun _ _ _ hp => htiles.place hp,
    Scanner.nth_new source⟩

end Treewalk
