import Treewalk.Diagnostic
import Treewalk.Tree

namespace Treewalk

/-- The tokens ahead, the end behind them, the next free number for a name and the faults so far. -/
structure Cursor where
  rest : List Token
  eof : Token
  nextId : Nat
  faults : List Diagnostic

namespace Cursor

/-- A list of tokens is cut at its first end. One without an end gets it on the line of its last
token. -/
def ofTokens (tokens : List Token) (nextId : Nat) : Cursor where
  rest := tokens.takeWhile (·.kind ≠ .eof)
  eof := (tokens.find? (·.kind = .eof)).getD
    ⟨.eof, "", (tokens.getLast?.map Token.line).getD 1⟩
  nextId
  faults := []

def current (c : Cursor) : Token := c.rest.headD c.eof

def report (c : Cursor) (d : Diagnostic) : Cursor := { c with faults := c.faults ++ [d] }

def opensStatement : TokenKind → Bool
  | .keyword k => k ∈ [.classKw, .funKw, .varKw, .forKw, .ifKw, .whileKw, .printKw, .returnKw]
  | _ => false

/-- What is left after `last`, from the next place where a statement may start. -/
def resume (last : Token) : List Token → List Token
  | [] => []
  | t :: ts =>
    if last.kind = .punct .semicolon || opensStatement t.kind then t :: ts else resume t ts

theorem length_resume_le (last : Token) (ts : List Token) :
    (resume last ts).length ≤ ts.length := by
  induction ts generalizing last with
  | nil => exact Nat.le_refl _
  | cons t ts ih =>
    rw [resume]
    split
    · exact Nat.le_refl _
    · exact Nat.le_succ_of_le (ih t)

def synchronize (c : Cursor) : Cursor :=
  match c.rest with
  | [] => c
  | t :: ts => { c with rest := resume t ts }

theorem length_rest_synchronize_lt (c : Cursor) (h : c.rest ≠ []) :
    c.synchronize.rest.length < c.rest.length := by
  obtain ⟨rest, eof, nextId, faults⟩ := c
  cases rest with
  | nil => exact absurd rfl h
  | cons t ts => exact Nat.lt_succ_of_le (length_resume_le t ts)

end Cursor

abbrev Parse := EStateM Halt Cursor

namespace Parse

def peek : Parse Token := fun c => .ok c.current c

def atEnd : Parse Bool := fun c => .ok c.rest.isEmpty c

/-- Whether the token ahead is of a kind. The end is of no kind. -/
def check (kind : TokenKind) : Parse Bool := fun c => .ok (c.rest.head?.any (·.kind = kind)) c

def take : Parse Token := fun c => .ok c.current { c with rest := c.rest.tail }

def acceptIf (wanted : TokenKind → Bool) : Parse (Option Token) := fun c =>
  match c.rest with
  | [] => .ok none c
  | t :: ts => if wanted t.kind then .ok (some t) { c with rest := ts } else .ok none c

def accept (kind : TokenKind) : Parse (Option Token) := acceptIf (· = kind)

def exhausted {α : Type} : Parse α := fun c => .error .exhausted c

def failHere {α : Type} (fault : SyntaxFault) : Parse α := fun c =>
  .error (.fault (.syntactic fault c.current)) c

def report (fault : SyntaxFault) (token : Token) : Parse Unit := fun c =>
  .ok () (c.report (.syntactic fault token))

def expect (kind : TokenKind) (fault : SyntaxFault) : Parse Token := do
  match ← accept kind with
  | some t => return t
  | none => failHere fault

def expectMark (mark : Punctuator) (place : String) : Parse Token :=
  expect (.punct mark) (.expectedMark mark place)

def expectName (what : String) : Parse Token := expect .identifier (.expectedName what)

def number (token : Token) : Parse Ref := fun c =>
  .ok ⟨c.nextId, token⟩ { c with nextId := c.nextId + 1 }

/-- A fault is kept, and parsing goes on where the next statement may start. -/
def recovering {α : Type} (p : Parse α) : Parse (Option α) := fun c =>
  match p c with
  | .ok a c => .ok (some a) c
  | .error (.fault d) c => .ok none (c.report d).synchronize
  | .error .exhausted c => .error .exhausted c

end Parse

end Treewalk
