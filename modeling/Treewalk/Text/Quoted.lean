import Treewalk.Text.Unprintable
import Treewalk.Text.Combining

namespace Treewalk.Text

/-- A character that shows on its own, whatever stands before it. -/
def isVisible (c : Char) : Bool := !unprintable.contains c && !combining.contains c

def escape (c : Char) : List Char :=
  match c with
  | '\x00' => ['\\', '0']
  | '\t' => ['\\', 't']
  | '\n' => ['\\', 'n']
  | '\r' => ['\\', 'r']
  | '"' => ['\\', '"']
  | '\\' => ['\\', '\\']
  | c =>
    if isVisible c then [c]
    else '\\' :: 'u' :: '\x7b' :: (Nat.toDigits 16 c.toNat ++ ['\x7d'])

def quoted (s : String) : String :=
  "\"" ++ String.ofList (s.toList.flatMap escape) ++ "\""

end Treewalk.Text
