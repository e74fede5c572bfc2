import Treewalk.Evaluation
import Treewalk.Grammar.Statement
import Treewalk.Token.Scan

/-!
Sessions: units of source text that run one after another on one machine. A unit is scanned, parsed,
resolved and executed, each only if all before was without fault.
-/

namespace Treewalk

inductive Outcome
  | success
  | malformed (faults : List Diagnostic)
  | unresolved (faults : List Diagnostic)
  | failed (fault : Diagnostic)
  | unfinished

namespace Outcome

def diagnostics : Outcome → List Diagnostic
  | malformed faults | unresolved faults => faults
  | failed fault => [fault]
  | success | unfinished => []

def isMalformed : Outcome → Bool
  | malformed _ => true
  | _ => false

def isUnresolved : Outcome → Bool
  | unresolved _ => true
  | _ => false

def isFailed : Outcome → Bool
  | failed _ => true
  | _ => false

def isSuccess : Outcome → Bool
  | success => true
  | _ => false

def exitCode : Outcome → Nat
  | success => 0
  | malformed _ | unresolved _ => 65
  | failed _ | unfinished => 70

end Outcome

/-- More steps than any program that ends in practice takes. -/
def ampleFuel : Nat := pow2 62

structure Session where
  machine : Machine
  nextId : Nat

namespace Session

def new (sink : Sink) (now : Float) : Session := ⟨.new sink now, 0⟩

def addNative (s : Session) (native : Native) : Session :=
  { s with machine := s.machine.addNative native }

def resolve (s : Session) (stmts : List Stmt) : List Diagnostic × Session :=
  let r := Treewalk.resolve stmts s.machine.distances
  (r.faults, { s with machine := { s.machine with distances := r.distances } })

def interpret (s : Session) (fuel : Nat) (stmts : List Stmt) : Option Halt × Session :=
  match Treewalk.interpret fuel stmts s.machine with
  | .ok () machine => (none, { s with machine })
  | .error halt machine => (some halt, { s with machine })

def evaluate (s : Session) (fuel : Nat) (e : Expr) : Except Halt Value × Session :=
  match Treewalk.evaluate fuel e s.machine with
  | .ok v machine => (.ok v, { s with machine })
  | .error halt machine => (.error halt, { s with machine })

/-- Reads a program; the faults are the lexical ones and then those of the grammar. -/
def parse (s : Session) (source : String) : List Stmt × List Diagnostic × Session :=
  let scanned := Scanned.ofSource source
  let (stmts, c) := (Cursor.ofTokens scanned.tokens s.nextId).program
  (stmts, scanned.faults ++ c.faults, { s with nextId := c.nextId })

/-- Runs one unit of source text with the given number of steps. -/
def runWith (fuel : Nat) (s : Session) (source : String) : Outcome × Session :=
  let (stmts, faults, s) := s.parse source
  if !faults.isEmpty then (.malformed faults, s)
  else
    let (faults, s) := s.resolve stmts
    if !faults.isEmpty then (.unresolved faults, s)
    else
      match s.interpret fuel stmts with
      | (none, s) => (.success, s)
      | (some (.fault d), s) => (.failed d, s)
      | (some .exhausted, s) => (.unfinished, s)

def run (s : Session) (source : String) : Outcome × Session := s.runWith ampleFuel source

end Session

end Treewalk
