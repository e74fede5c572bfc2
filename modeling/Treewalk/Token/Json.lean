import Treewalk.Json
import Treewalk.Token

namespace Treewalk

def TokenKind.json : TokenKind → Json
  | string text => .object [("STRING", .string text)]
  | number value => .object [("NUMBER", .atom (Number.json value))]
  | kind => .string kind.name

def Token.json (t : Token) : Json :=
  .object [("token_type", t.kind.json), ("lexeme", .string t.lexeme), ("line", .atom (toString t.line))]

end Treewalk
