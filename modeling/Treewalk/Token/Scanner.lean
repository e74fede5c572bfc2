import Treewalk.Token.Scan

/-!
The scanner as it goes over the bytes of a text, one item at a call. `none` stands for an access
out of range and for a slice that would cut a character in two.
-/

namespace Treewalk

/-- The text between two byte offsets, neither of them inside a character. -/
def slice? (text : String) (i j : Nat) : Option String :=
  if i ≤ j ∧ String.Pos.Raw.IsValid text ⟨i⟩ ∧ String.Pos.Raw.IsValid text ⟨j⟩ then
    String.fromUTF8? (text.toByteArray.extract i j)
  else none

def bytes? (text : String) (i j : Nat) : Option (List UInt8) :=
  if i ≤ j ∧ j ≤ text.utf8ByteSize then some (text.toByteArray.extract i j).data.toList else none

def Number.ofText (text : String) : Float :=
  ofDecimal (text.toList.takeWhile (· ≠ '.')) ((text.toList.dropWhile (· ≠ '.')).drop 1)

def Keyword.ofBytes? (bytes : List UInt8) : Option Keyword :=
  all.find? fun k => k.spelling.toByteArray.data.toList == bytes

structure Scanner where
  source : String
  /-- Where the piece begins that is being read. -/
  start : Nat
  /-- The next byte; beyond the end of the text once the end has been reported. -/
  curr : Nat
  line : Nat
  /-- The kind of a token that has been read and not yet handed out. -/
  pending : Option TokenKind

namespace Scanner

def new (source : String) : Scanner := ⟨source, 0, 0, 1, none⟩

def size (s : Scanner) : Nat := s.source.utf8ByteSize

def isAtEnd (s : Scanner) : Bool := s.size ≤ s.curr

def byte? (s : Scanner) (i : Nat) : Option UInt8 := s.source.toByteArray.data[i]?

def advance (s : Scanner) : Option (UInt8 × Scanner) := do
  let b ← s.byte? s.curr
  return (b, { s with curr := s.curr + 1 })

theorem advance_some {s s' : Scanner} (h : s.advance = some (b, s')) :
    s.curr < s.size ∧ s' = { s with curr := s.curr + 1 } := by
  rw [advance, Option.bind_eq_bind, Option.bind_eq_some_iff] at h
  obtain ⟨_, hbyte, ⟨⟩⟩ := h
  exact ⟨(Array.getElem?_eq_some_iff.mp hbyte).1, rfl⟩

def left (s : Scanner) : Nat := s.size - s.curr

theorem left_lt_of_advance {s s' : Scanner} (h : s.advance = some (b, s')) : s'.left < s.left := by
  obtain ⟨hlt, rfl⟩ := advance_some h
  simp only [left, size] at hlt ⊢
  omega

def peek (s : Scanner) : Option UInt8 := if s.isAtEnd then some 0 else s.byte? s.curr

def peekNext (s : Scanner) : Option UInt8 :=
  if s.size ≤ s.curr + 1 then some 0 else s.byte? (s.curr + 1)

def accept (expected : UInt8) (s : Scanner) : Option (Bool × Scanner) := do
  if !s.isAtEnd && (← s.peek) = expected then
    let (_, s) ← s.advance
    return (true, s)
  else return (false, s)

def advanceWhile (p : UInt8 → Bool) (s : Scanner) : Option Scanner := do
  if p (← s.peek) then
    match h : s.advance with
    | none => none
    | some (_, s') =>
      have := left_lt_of_advance h
      s'.advanceWhile p
  else return s
termination_by s.left

theorem advanceWhile_step (p : UInt8 → Bool) (s : Scanner) : s.advanceWhile p = do
    if p (← s.peek) then
      let (_, s) ← s.advance
      s.advanceWhile p
    else return s := by
  rw [advanceWhile]
  congr 1
  funext b
  split
  · split
    · next h => simp [h]
    · next h => simp [h]
  · rfl

def advanceToQuote (s : Scanner) : Option Scanner := do
  if !s.isAtEnd && (← s.peek) ≠ '"'.toUInt8 then
    match h : s.advance with
    | none => none
    | some (b, s') =>
      have : s'.left < s.left := left_lt_of_advance h
      if b = '\n'.toUInt8 then advanceToQuote { s' with line := s'.line + 1 }
      else s'.advanceToQuote
  else return s
termination_by s.left

theorem advanceToQuote_step (s : Scanner) : s.advanceToQuote = do
    if !s.isAtEnd && (← s.peek) ≠ '"'.toUInt8 then
      let (b, s) ← s.advance
      if b = '\n'.toUInt8 then advanceToQuote { s with line := s.line + 1 } else s.advanceToQuote
    else return s := by
  rw [advanceToQuote]
  congr 1
  funext b
  split
  · split
    · next h => simp [h]
    · next h => simp [h]
  · rfl

def found (s : Scanner) (kind : TokenKind) : Scanner := { s with pending := some kind }

def comment (s : Scanner) : Option Scanner := do
  let ahead ← bytes? s.source s.curr s.size
  match ahead.findIdx? (· = '\n'.toUInt8) with
  | some i => return { s with curr := s.curr + i }
  | none => return { s with curr := s.size }

def string (s : Scanner) : Option (Option LexicalFault × Scanner) := do
  let s ← s.advanceToQuote
  if s.isAtEnd then return (some .unterminatedString, s)
  else
    let (_, s) ← s.advance
    return (none, s.found (.string (← slice? s.source (s.start + 1) (s.curr - 1))))

def isDigit (b : UInt8) : Bool := (Char.ofUInt8 b).isDigit

def fraction (s : Scanner) : Option Scanner := do
  if (← s.peek) = '.'.toUInt8 && isDigit (← s.peekNext) then
    let (_, s) ← s.advance
    s.advanceWhile isDigit
  else return s

def number (s : Scanner) : Option Scanner := do
  let s ← s.advanceWhile isDigit
  let s ← s.fraction
  return s.found (.number (Number.ofText (← slice? s.source s.start s.curr)))

def word (s : Scanner) : Option Scanner := do
  let s ← s.advanceWhile (fun b => Cut.isWordPart (.ofUInt8 b))
  match Keyword.ofBytes? (← bytes? s.source s.start s.curr) with
  | some k => return s.found (.keyword k)
  | none => return s.found .identifier

/-- A character that begins nothing is passed over whole. -/
def unexpected (s : Scanner) : Option (Option LexicalFault × Scanner) := do
  let ahead ← slice? s.source s.start s.size
  let c := ahead.toList.head?.getD '\ufffd'
  return (some (.unexpectedCharacter c), { s with curr := s.start + c.utf8Size })

/-- The rest of the piece that begins with `c`, which leaves a kind behind if it is a token. -/
def rest (c : Char) (s : Scanner) : Option (Option LexicalFault × Scanner) := do
  if c = ' ' || c = '\r' || c = '\t' then return (none, s)
  else if c = '\n' then return (none, { s with line := s.line + 1 })
  else if c = '/' then
    let (isComment, s) ← s.accept '/'.toUInt8
    if isComment then return (none, ← s.comment) else return (none, s.found (.punct .slash))
  else if c = '"' then s.string
  else if c.isDigit then return (none, ← s.number)
  else if Cut.isWordStart c then return (none, ← s.word)
  else match Cut.single? c, Cut.extended? c with
    | some p, _ => return (none, s.found (.punct p))
    | none, some (short, long) =>
      let (isLong, s) ← s.accept '='.toUInt8
      return (none, s.found (.punct (if isLong then long else short)))
    | none, none => s.unexpected

def piece (s : Scanner) : Option (Option LexicalFault × Scanner) := do
  let (b, s) ← s.advance
  s.rest (.ofUInt8 b)

def ready (s : Scanner) : Scanner := { s with start := s.curr, pending := none }

/-- The same piece of the same text, read as far or further. -/
structure Onward (s s' : Scanner) : Prop where
  source : s'.source = s.source
  start : s'.start = s.start
  curr : s.curr ≤ s'.curr

namespace Onward

variable {s s' s'' : Scanner}

theorem refl (s : Scanner) : s.Onward s := ⟨rfl, rfl, Nat.le_refl _⟩

theorem trans (h : s.Onward s') (h' : s'.Onward s'') : s.Onward s'' :=
  ⟨h'.source.trans h.source, h'.start.trans h.start, Nat.le_trans h.curr h'.curr⟩

theorem found (s : Scanner) (kind : TokenKind) : s.Onward (s.found kind) :=
  ⟨rfl, rfl, Nat.le_refl _⟩

theorem advance (h : s.advance = some (b, s')) : s.Onward s' := by
  obtain ⟨-, rfl⟩ := advance_some h
  exact ⟨rfl, rfl, Nat.le_succ _⟩

theorem accept (h : s.accept expected = some (b, s')) : s.Onward s' := by
  simp only [Scanner.accept, Option.bind_eq_bind, Option.bind_eq_some_iff] at h
  obtain ⟨_, -, h⟩ := h
  split at h
  · obtain ⟨⟨_, _⟩, hadvance, ⟨⟩⟩ := Option.bind_eq_some_iff.mp h
    exact .advance hadvance
  · cases h
    exact .refl s

theorem advanceWhile (h : s.advanceWhile p = some s') : s.Onward s' := by
  induction hn : s.left using Nat.strongRecOn generalizing s with
  | _ n ih =>
    rw [advanceWhile_step, Option.bind_eq_bind, Option.bind_eq_some_iff] at h
    obtain ⟨_, -, h⟩ := h
    split at h
    · obtain ⟨⟨_, s₁⟩, hadvance, h⟩ := Option.bind_eq_some_iff.mp h
      exact (Onward.advance hadvance).trans (ih _ (hn ▸ left_lt_of_advance hadvance) h rfl)
    · cases h
      exact .refl _

theorem advanceToQuote (h : s.advanceToQuote = some s') : s.Onward s' := by
  induction hn : s.left using Nat.strongRecOn generalizing s with
  | _ n ih =>
    rw [advanceToQuote_step, Option.bind_eq_bind, Option.bind_eq_some_iff] at h
    obtain ⟨_, -, h⟩ := h
    split at h
    · obtain ⟨⟨b, s₁⟩, hadvance, h⟩ := Option.bind_eq_some_iff.mp h
      have hlt : s₁.left < n := hn ▸ left_lt_of_advance hadvance
      refine (Onward.advance hadvance).trans ?_
      dsimp only at h
      split at h
      · obtain ⟨hsource, hstart, hcurr⟩ := ih _ hlt h rfl
        exact ⟨hsource, hstart, hcurr⟩
      · exact ih _ hlt h rfl
    · cases h
      exact .refl _

theorem comment (h : s.comment = some s') : s.Onward s' := by
  rw [Scanner.comment, Option.bind_eq_bind, Option.bind_eq_some_iff] at h
  obtain ⟨ahead, hahead, h⟩ := h
  have hle : s.curr ≤ s.size := by
    rw [bytes?, Option.ite_none_right_eq_some] at hahead
    exact hahead.1.1
  split at h <;> cases h
  · exact ⟨rfl, rfl, Nat.le_add_right _ _⟩
  · exact ⟨rfl, rfl, hle⟩

theorem string (h : s.string = some (fault?, s')) : s.Onward s' := by
  rw [Scanner.string, Option.bind_eq_bind, Option.bind_eq_some_iff] at h
  obtain ⟨s₁, hquote, h⟩ := h
  refine (advanceToQuote hquote).trans ?_
  split at h
  · cases h
    exact .refl _
  · obtain ⟨⟨_, s₂⟩, hadvance, h⟩ := Option.bind_eq_some_iff.mp h
    obtain ⟨_, -, ⟨⟩⟩ := Option.bind_eq_some_iff.mp h
    exact (advance hadvance).trans (.found _ _)

theorem fraction (h : s.fraction = some s') : s.Onward s' := by
  rw [Scanner.fraction, Option.bind_eq_bind, Option.bind_eq_some_iff] at h
  obtain ⟨_, -, h⟩ := h
  obtain ⟨_, -, h⟩ := Option.bind_eq_some_iff.mp h
  split at h
  · obtain ⟨⟨_, s₁⟩, hadvance, h⟩ := Option.bind_eq_some_iff.mp h
    exact (advance hadvance).trans (advanceWhile h)
  · cases h
    exact .refl _

theorem number (h : s.number = some s') : s.Onward s' := by
  rw [Scanner.number, Option.bind_eq_bind, Option.bind_eq_some_iff] at h
  obtain ⟨s₁, hdigits, h⟩ := h
  obtain ⟨s₂, hfraction, h⟩ := Option.bind_eq_some_iff.mp h
  obtain ⟨_, -, ⟨⟩⟩ := Option.bind_eq_some_iff.mp h
  exact ((advanceWhile hdigits).trans (fraction hfraction)).trans (.found _ _)

theorem word (h : s.word = some s') : s.Onward s' := by
  rw [Scanner.word, Option.bind_eq_bind, Option.bind_eq_some_iff] at h
  obtain ⟨s₁, hword, h⟩ := h
  obtain ⟨_, -, h⟩ := Option.bind_eq_some_iff.mp h
  refine (advanceWhile hword).trans ?_
  split at h <;> cases h
  · exact .found s₁ _
  · exact .found s₁ _

end Onward

theorem unexpected_some {s s' : Scanner} (h : s.unexpected = some (fault?, s')) :
    s'.source = s.source ∧ s.start < s'.curr := by
  obtain ⟨_, -, ⟨⟩⟩ := Option.bind_eq_some_iff.mp h
  exact ⟨rfl, Nat.lt_add_of_pos_right (Char.utf8Size_pos _)⟩

theorem rest_some {s s' : Scanner} (hs : s.start < s.curr) (h : s.rest c = some (fault?, s')) :
    s'.source = s.source ∧ s.start < s'.curr := by
  have honward {s' : Scanner} (h : s.Onward s') : s'.source = s.source ∧ s.start < s'.curr :=
    ⟨h.source, Nat.lt_of_lt_of_le hs h.curr⟩
  unfold rest at h
  split at h
  · cases h
    exact honward (.refl _)
  split at h
  · cases h
    exact ⟨rfl, hs⟩
  split at h
  · obtain ⟨⟨isComment, s₁⟩, haccept, h⟩ := Option.bind_eq_some_iff.mp h
    cases isComment with
    | true =>
      obtain ⟨_, hcomment, ⟨⟩⟩ := Option.bind_eq_some_iff.mp h
      exact honward ((Onward.accept haccept).trans (.comment hcomment))
    | false =>
      cases h
      exact honward ((Onward.accept haccept).trans (.found _ _))
  split at h
  · exact honward (.string h)
  split at h
  · obtain ⟨_, hnumber, ⟨⟩⟩ := Option.bind_eq_some_iff.mp h
    exact honward (.number hnumber)
  split at h
  · obtain ⟨_, hword, ⟨⟩⟩ := Option.bind_eq_some_iff.mp h
    exact honward (.word hword)
  split at h
  · cases h
    exact honward (.found _ _)
  · obtain ⟨⟨isLong, s₁⟩, haccept, ⟨⟩⟩ := Option.bind_eq_some_iff.mp h
    exact honward ((Onward.accept haccept).trans (.found _ _))
  · exact unexpected_some h

theorem left_lt_of_piece {s s' : Scanner} (h : s.ready.piece = some (fault?, s')) :
    s'.left < s.left := by
  obtain ⟨⟨_, s₁⟩, hadvance, h⟩ := Option.bind_eq_some_iff.mp h
  obtain ⟨hlt, rfl⟩ := advance_some hadvance
  obtain ⟨hsource, hcurr⟩ := rest_some (Nat.lt_succ_self s.curr) h
  simp only [left, size, ready] at hlt hsource hcurr ⊢
  rw [hsource]
  omega

def next (s : Scanner) : Option (Option Item × Scanner) := do
  if s.curr > s.size then return (none, s)
  else if s.curr = s.size then
    return (some (.token ⟨.eof, "", s.line⟩), { s with curr := s.curr + 1 })
  else
    match h : s.ready.piece with
    | none => none
    | some (fault?, s') =>
      have := left_lt_of_piece h
      match fault?, s'.pending with
      | some fault, _ => return (some (.fault fault s'.line), s')
      | none, some kind =>
        let lexeme ← slice? s'.source s'.start s'.curr
        return (some (.token ⟨kind, lexeme, s'.line⟩), { s' with pending := none })
      | none, none => s'.next
termination_by s.left

theorem next_step {s : Scanner} (hs : s.curr < s.size) : s.next = (do
    let (fault?, s) ← s.ready.piece
    match fault?, s.pending with
    | some fault, _ => return (some (.fault fault s.line), s)
    | none, some kind =>
      let lexeme ← slice? s.source s.start s.curr
      return (some (.token ⟨kind, lexeme, s.line⟩), { s with pending := none })
    | none, none => s.next) := by
  rw [next, if_neg (Nat.not_lt.mpr (Nat.le_of_lt hs)), if_neg (Nat.ne_of_lt hs)]
  split
  · next h => simp [h]
  · next h => simp [h]

def nth (s : Scanner) : Nat → Option (Option Item)
  | 0 => s.next.map Prod.fst
  | n + 1 => do
    let (_, s) ← s.next
    s.nth n

end Scanner

end Treewalk
