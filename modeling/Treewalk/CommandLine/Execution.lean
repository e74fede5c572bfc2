import Treewalk.CommandLine.Help
import Treewalk.Session
import Treewalk.Text.Quoted
import Treewalk.Token.Json
import Treewalk.Tree.Printer

namespace Treewalk

inductive FileFault
  | unopened (reason : String)
  | unread (reason : String)

/-- What a command takes from its host. -/
structure Host where
  file : String → Except FileFault ByteArray
  input : ByteArray
  now : Float

structure Report where
  code : Nat
  stdout : String
  stderr : String
  deriving DecidableEq

namespace Report

def after (stdout stderr : String) (r : Report) : Report :=
  ⟨r.code, stdout ++ r.stdout, stderr ++ r.stderr⟩

def hostFailure (what reason : String) : Report :=
  ⟨1, "", "Error: " ++ what ++ "\n\nCaused by:\n    " ++ reason ++ "\n"⟩

end Report

namespace CommandLine

def notText : String := "stream did not contain valid UTF-8"

def onLines (texts : List String) : String := texts.foldl (fun s t => s ++ t ++ "\n") ""

def displayed (ds : List Diagnostic) : String := onLines (ds.map Diagnostic.display)

def sourceOf (host : Host) (file : String) : Except Report String :=
  match host.file file with
  | .error (.unopened reason) =>
    .error (.hostFailure ("Failed to open file " ++ Text.quoted file) reason)
  | .error (.unread reason) =>
    .error (.hostFailure ("Failed to read file " ++ Text.quoted file) reason)
  | .ok bytes =>
    match String.fromUTF8? bytes with
    | some text => .ok text
    | none => .error (.hostFailure ("Failed to read file " ++ Text.quoted file) notText)

/-- Tokens are shown even where there are faults between them. -/
def tokenizeText (json : Bool) (source : String) : Report :=
  let scanned := Scanned.ofSource source
  let stdout :=
    if json then (Json.array (scanned.tokens.map Token.json)).pretty ++ "\n"
    else onLines (scanned.tokens.map Token.dump)
  ⟨if scanned.faults.isEmpty then 0 else 65, stdout, displayed scanned.faults⟩

def parseText (source : String) : Report :=
  let scanned := Scanned.ofSource source
  let (stmts, c) := (Cursor.ofTokens scanned.tokens 0).program
  let faults := scanned.faults ++ c.faults
  if faults.isEmpty then ⟨0, onLines (stmts.map Stmt.render), ""⟩
  else ⟨65, "", displayed faults⟩

def evaluateText (now : Float) (source : String) : Report :=
  let scanned := Scanned.ofSource source
  let (e?, c) := (Cursor.ofTokens scanned.tokens 0).expression
  let faults := scanned.faults ++ c.faults
  match e?, faults.isEmpty with
  | some e, true =>
    match (Session.new .unlimited now).evaluate ampleFuel e with
    | (.ok v, s) => ⟨0, onLines [s.machine.heap.display v], ""⟩
    | (.error (.fault d), _) => ⟨70, "", displayed [d]⟩
    | (.error .exhausted, _) => ⟨70, "", ""⟩
  | _, _ => ⟨65, "", displayed faults⟩

def perform (s : Session) (source : String) : Outcome × String × Session :=
  let start := s.machine.sink.written.size
  let (outcome, s) := s.run source
  (outcome, s.machine.sink.textFrom start, s)

def runText (now : Float) (source : String) : Report :=
  let (outcome, output, _) := perform (.new .unlimited now) source
  ⟨outcome.exitCode, output, displayed outcome.diagnostics⟩

def linesOf : List UInt8 → List (List UInt8)
  | [] => []
  | b :: bs =>
    if b = 10 then [b] :: linesOf bs
    else match linesOf bs with
      | [] => [[b]]
      | line :: lines => (b :: line) :: lines

def prompt : String := "> "

def replLines (s : Session) : List (List UInt8) → Report
  | [] => ⟨0, prompt ++ "\n", ""⟩
  | line :: lines =>
    match String.fromUTF8? ⟨line.toArray⟩ with
    | none => (Report.hostFailure "Failed to read from stdin" notText).after prompt ""
    | some text =>
      let (outcome, output, s) := perform s text
      (replLines s lines).after (prompt ++ output) (displayed outcome.diagnostics)

def onFile (host : Host) (file : String) (report : String → Report) : Report :=
  match sourceOf host file with
  | .ok text => report text
  | .error failure => failure

def versionText : String := "rox 0.1.0\n"

end CommandLine

open CommandLine

def Command.execute (host : Host) : Command → Report
  | tokenize file json => onFile host file (tokenizeText json)
  | parse file => onFile host file parseText
  | evaluate file => onFile host file (evaluateText host.now)
  | run file => onFile host file (runText host.now)
  | repl => replLines (.new .unlimited host.now) (linesOf host.input.data.toList)

def Request.execute (host : Host) : Request → Report
  | invoke command _ => command.execute host
  | version => ⟨0, versionText, ""⟩
  | help topic => ⟨0, topic.page.render, ""⟩
  | misuse => ⟨2, "", Topic.programPage.usageLine⟩

def Request.keepsLog : Request → Bool
  | invoke _ log => log
  | _ => false

end Treewalk
