import Std.Time.DateTime.Timestamp
import Treewalk.CommandLine.Execution

namespace Treewalk

open CommandLine

def systemReason (e : IO.Error) : String :=
  match e with
  | .noFileOrDirectory _ code details | .inappropriateType _ code details
  | .permissionDenied _ code details | .invalidArgument _ code details
  | .hardwareFault code details | .otherError code details =>
    details ++ " (os error " ++ toString code ++ ")"
  | e => toString e

def readOpen (handle : IO.FS.Handle) : IO (Except FileFault ByteArray) := do
  match ← handle.readBinToEnd.toBaseIO with
  | .ok bytes => return .ok bytes
  | .error e => return .error (.unread (systemReason e))

def readNamed (name : String) : IO (Except FileFault ByteArray) := do
  match ← (IO.FS.Handle.mk name .read).toBaseIO with
  | .ok handle => readOpen handle
  | .error e => return .error (.unopened (systemReason e))

partial def readLine (stdin : IO.FS.Stream) (bytes : ByteArray) : IO ByteArray := do
  let next ← stdin.read 1
  if next.isEmpty then return bytes
  else if next.toList = [10] then return bytes ++ next
  else readLine stdin (bytes ++ next)

partial def converse (s : Session) : IO UInt32 := do
  let stdout ← IO.getStdout
  let stderr ← IO.getStderr
  stdout.putStr prompt
  stdout.flush
  let bytes ← readLine (← IO.getStdin) .empty
  if bytes.isEmpty then
    stdout.putStrLn ""
    return 0
  else
    match String.fromUTF8? bytes with
    | none =>
      let report := Report.hostFailure "Failed to read from stdin" notText
      stderr.putStr report.stderr
      return report.code.toUInt32
    | some text =>
      let (outcome, output, s) := perform s text
      stdout.putStr output
      stderr.putStr (displayed outcome.diagnostics)
      converse s

def epochSeconds : IO Float := do
  let now ← Std.Time.Timestamp.now
  return Float.ofInt now.toMillisecondsSinceUnixEpoch.val / 1000

def respond (request : Request) (now : Float) : IO UInt32 := do
  let contents ← match request with
    | .invoke command _ =>
      match command.file? with
      | some name => readNamed name
      | none => pure (.ok .empty)
    | _ => pure (.ok .empty)
  let report := request.execute ⟨fun _ => contents, .empty, now⟩
  (← IO.getStdout).putStr report.stdout
  (← IO.getStderr).putStr report.stderr
  return report.code.toUInt32

end Treewalk

open Treewalk in
def main (args : List String) : IO UInt32 := do
  let request := Request.ofArguments args
  if request.keepsLog then
    let _ ← IO.FS.Handle.mk "app.log" .write
  let now ← epochSeconds
  match request with
  | .invoke .repl _ => converse (.new .unlimited now)
  | request => respond request now
