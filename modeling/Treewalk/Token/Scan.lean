import Treewalk.Diagnostic

namespace Treewalk

inductive Piece
  | gap
  | token (kind : TokenKind)
  | fault (fault : LexicalFault)

/-- A piece, its text and the text after it. -/
structure Cut where
  piece : Piece
  text : List Char
  rest : List Char

namespace Cut

def isBlank (c : Char) : Bool := c = ' ' || c = '\r' || c = '\t' || c = '\n'

def isWordStart (c : Char) : Bool := c.isAlpha || c = '_'

def isWordPart (c : Char) : Bool := isWordStart c || c.isDigit

def extended? : Char → Option (Punctuator × Punctuator)
  | '!' => some (.bang, .bangEqual)
  | '=' => some (.equal, .equalEqual)
  | '>' => some (.greater, .greaterEqual)
  | '<' => some (.less, .lessEqual)
  | _ => none

def single? : Char → Option Punctuator
  | '(' => some .leftParen
  | ')' => some .rightParen
  | '\x7b' => some .leftBrace
  | '\x7d' => some .rightBrace
  | ',' => some .comma
  | '.' => some .dot
  | '-' => some .minus
  | '+' => some .plus
  | ';' => some .semicolon
  | '*' => some .star
  | _ => none

def slash (cs : List Char) : Cut :=
  match cs with
  | '/' :: _ => ⟨.gap, '/' :: cs.takeWhile (· ≠ '\n'), cs.dropWhile (· ≠ '\n')⟩
  | _ => ⟨.token (.punct .slash), ['/'], cs⟩

/-- A string runs up to the next quote, over any number of lines. -/
def string (cs : List Char) : Cut :=
  let body := cs.takeWhile (· ≠ '"')
  match cs.dropWhile (· ≠ '"') with
  | [] => ⟨.fault .unterminatedString, '"' :: body, []⟩
  | quote :: rest => ⟨.token (.string (String.ofList body)), '"' :: (body ++ [quote]), rest⟩

/-- A number has a fraction only if a digit follows the point. -/
def number (c : Char) (cs : List Char) : Cut :=
  let whole := c :: cs.takeWhile Char.isDigit
  match cs.dropWhile Char.isDigit with
  | '.' :: d :: rest =>
    if d.isDigit then
      let fraction := d :: rest.takeWhile Char.isDigit
      ⟨.token (.number (Number.ofDecimal whole fraction)), whole ++ '.' :: fraction,
        rest.dropWhile Char.isDigit⟩
    else ⟨.token (.number (Number.ofDecimal whole [])), whole, '.' :: d :: rest⟩
  | rest => ⟨.token (.number (Number.ofDecimal whole [])), whole, rest⟩

def wordKind (word : List Char) : TokenKind :=
  match Keyword.ofWord? (String.ofList word) with
  | some k => .keyword k
  | none => .identifier

def word (c : Char) (cs : List Char) : Cut :=
  let text := c :: cs.takeWhile isWordPart
  ⟨.token (wordKind text), text, cs.dropWhile isWordPart⟩

def operator (c : Char) (short long : Punctuator) (cs : List Char) : Cut :=
  match cs with
  | '=' :: rest => ⟨.token (.punct long), [c, '='], rest⟩
  | _ => ⟨.token (.punct short), [c], cs⟩

def first (c : Char) (cs : List Char) : Cut :=
  if isBlank c then ⟨.gap, [c], cs⟩
  else if c = '/' then slash cs
  else if c = '"' then string cs
  else if c.isDigit then number c cs
  else if isWordStart c then word c cs
  else match single? c, extended? c with
    | some p, _ => ⟨.token (.punct p), [c], cs⟩
    | none, some (short, long) => operator c short long cs
    | none, none => ⟨.fault (.unexpectedCharacter c), [c], cs⟩

@[simp] theorem slash_append (cs : List Char) : (slash cs).text ++ (slash cs).rest = '/' :: cs := by
  unfold slash
  split <;> simp [List.takeWhile_append_dropWhile]

@[simp] theorem string_append (cs : List Char) :
    (string cs).text ++ (string cs).rest = '"' :: cs := by
  have h := List.takeWhile_append_dropWhile (p := (· ≠ '"')) (l := cs)
  unfold string
  split
  · next hd => rw [hd] at h; simpa using h
  · next hd => rw [hd] at h; simpa using h

@[simp] theorem number_append (c : Char) (cs : List Char) :
    (number c cs).text ++ (number c cs).rest = c :: cs := by
  have h := List.takeWhile_append_dropWhile (p := Char.isDigit) (l := cs)
  unfold number
  split
  · next hd =>
    rw [hd] at h
    split <;> simpa using h
  · simp

@[simp] theorem word_append (c : Char) (cs : List Char) :
    (word c cs).text ++ (word c cs).rest = c :: cs := by
  simp [word]

@[simp] theorem operator_append (c : Char) (short long : Punctuator) (cs : List Char) :
    (operator c short long cs).text ++ (operator c short long cs).rest = c :: cs := by
  unfold operator
  split <;> simp

@[simp] theorem first_append (c : Char) (cs : List Char) :
    (first c cs).text ++ (first c cs).rest = c :: cs := by
  unfold first
  repeat' split
  all_goals simp_all

theorem text_first_ne_nil (c : Char) (cs : List Char) : (first c cs).text ≠ [] := by
  simp only [first, slash, string, number, word, operator]
  repeat' split
  all_goals simp

theorem length_rest_first_lt (c : Char) (cs : List Char) :
    (first c cs).rest.length < (c :: cs).length := by
  rw [← first_append c cs, List.length_append]
  have := List.length_pos_iff.mpr (text_first_ne_nil c cs)
  omega

end Cut

inductive Item
  | token (token : Token)
  | fault (fault : LexicalFault) (line : Nat)
  deriving DecidableEq

def Cut.item? (cut : Cut) (line : Nat) : Option Item :=
  match cut.piece with
  | .gap => none
  | .token kind => some (.token ⟨kind, String.ofList cut.text, line⟩)
  | .fault fault => some (.fault fault line)

/-- The items of a text whose first character is on the given line, up to and with the end. -/
def scanFrom (line : Nat) : List Char → List Item
  | [] => [.token ⟨.eof, "", line⟩]
  | c :: cs =>
    let cut := Cut.first c cs
    let last := line + cut.text.count '\n'
    (cut.item? last).toList ++ scanFrom last cut.rest
termination_by cs => cs.length
decreasing_by exact Cut.length_rest_first_lt c cs

def scan (source : String) : List Item := scanFrom 1 source.toList

namespace Item

def token? : Item → Option Token
  | token t => some t
  | fault _ _ => none

def diagnostic? : Item → Option Diagnostic
  | token _ => none
  | fault f line => some (.lexical f line)

end Item

/-- The tokens of a source text and the faults found between them. -/
structure Scanned where
  tokens : List Token
  faults : List Diagnostic

def Scanned.ofSource (source : String) : Scanned :=
  let items := scan source
  ⟨items.filterMap Item.token?, items.filterMap Item.diagnostic?⟩

end Treewalk
