import Treewalk.Proofs.Grammar.Reading

namespace Treewalk.Grammar

inductive Terminal
  | mark (mark : Punctuator)
  | word (word : Keyword)
  | identifier
  | number
  | string
  | eof

def Terminal.Is : Terminal → TokenKind → Prop
  | .mark m, kind => kind = .punct m
  | .word w, kind => kind = .keyword w
  | .identifier, kind => kind = .identifier
  | .number, kind => ∃ x, kind = .number x
  | .string, kind => ∃ s, kind = .string s
  | .eof, kind => kind = .eof

inductive Symbol
  | program | declaration | classDecl | funDecl | function | parameters | varDecl
  | statement | exprStmt | forStmt | ifStmt | printStmt | returnStmt | whileStmt | block
  | expression | assignment | logicOr | logicAnd | equality | comparison | term | factor
  | unary | call | arguments | primary

/-- The right side of a production. -/
inductive Pattern
  | terminal (t : Terminal)
  | symbol (s : Symbol)
  | seq (a b : Pattern)
  | alt (a b : Pattern)
  | opt (a : Pattern)
  | star (a : Pattern)
  | upTo (limit : Nat) (a : Pattern)

namespace Pattern

def mark (m : Punctuator) : Pattern := terminal (.mark m)

def word (w : Keyword) : Pattern := terminal (.word w)

def name : Pattern := terminal .identifier

def sequence (a : Pattern) : List Pattern → Pattern
  | [] => a
  | b :: bs => seq a (sequence b bs)

def oneOf (a : Pattern) : List Pattern → Pattern
  | [] => a
  | b :: bs => alt a (oneOf b bs)

def list (limit : Nat) (item : Pattern) : Pattern :=
  seq item (upTo (limit - 1) (seq (mark .comma) item))

def chain (operand : Symbol) (operators : Pattern) : Pattern :=
  seq (symbol operand) (star (seq operators (symbol operand)))

end Pattern

open Pattern in
def Symbol.production : Symbol → Pattern
  | program => seq (star (symbol declaration)) (terminal .eof)
  | declaration => oneOf (symbol classDecl) [symbol funDecl, symbol varDecl, symbol statement]
  | classDecl => sequence (word .classKw) [name, opt (seq (mark .less) name), mark .leftBrace,
      star (symbol function), mark .rightBrace]
  | funDecl => seq (word .funKw) (symbol function)
  | function => sequence name [mark .leftParen, opt (symbol parameters), mark .rightParen,
      symbol block]
  | parameters => list maxArity name
  | varDecl => sequence (word .varKw) [name, opt (seq (mark .equal) (symbol expression)),
      mark .semicolon]
  | statement => oneOf (symbol exprStmt) [symbol forStmt, symbol ifStmt, symbol printStmt,
      symbol returnStmt, symbol whileStmt, symbol block]
  | exprStmt => seq (symbol expression) (mark .semicolon)
  | forStmt => sequence (word .forKw) [mark .leftParen,
      oneOf (symbol varDecl) [symbol exprStmt, mark .semicolon], opt (symbol expression),
      mark .semicolon, opt (symbol expression), mark .rightParen, symbol statement]
  | ifStmt => sequence (word .ifKw) [mark .leftParen, symbol expression, mark .rightParen,
      symbol statement, opt (seq (word .elseKw) (symbol statement))]
  | printStmt => sequence (word .printKw) [symbol expression, mark .semicolon]
  | returnStmt => sequence (word .returnKw) [opt (symbol expression), mark .semicolon]
  | whileStmt => sequence (word .whileKw) [mark .leftParen, symbol expression, mark .rightParen,
      symbol statement]
  | block => sequence (mark .leftBrace) [star (symbol declaration), mark .rightBrace]
  | expression => symbol assignment
  | assignment => alt (sequence (opt (seq (symbol call) (mark .dot))) [name, mark .equal,
      symbol assignment]) (symbol logicOr)
  | logicOr => chain logicAnd (word .orKw)
  | logicAnd => chain equality (word .andKw)
  | equality => chain comparison (oneOf (mark .bangEqual) [mark .equalEqual])
  | comparison => chain term (oneOf (mark .greater) [mark .greaterEqual, mark .less,
      mark .lessEqual])
  | term => chain factor (oneOf (mark .minus) [mark .plus])
  | factor => chain unary (oneOf (mark .slash) [mark .star])
  | unary => alt (seq (oneOf (mark .bang) [mark .minus]) (symbol unary)) (symbol call)
  | call => seq (symbol primary) (star (alt
      (sequence (mark .leftParen) [opt (symbol arguments), mark .rightParen])
      (seq (mark .dot) name)))
  | arguments => list maxArity (symbol expression)
  | primary => oneOf (terminal .number) [terminal .string, word .trueKw, word .falseKw, word .nilKw,
      word .thisKw, name, sequence (mark .leftParen) [symbol expression, mark .rightParen],
      sequence (word .superKw) [mark .dot, name]]

inductive Derives : Pattern → List TokenKind → Prop
  | terminal : t.Is kind → Derives (.terminal t) [kind]
  | symbol : Derives s.production w → Derives (.symbol s) w
  | seq : Derives a u → Derives b v → Derives (.seq a b) (u ++ v)
  | left : Derives a w → Derives (.alt a b) w
  | right : Derives b w → Derives (.alt a b) w
  | none : Derives (.opt a) []
  | some : Derives a w → Derives (.opt a) w
  | nil : Derives (.star a) []
  | cons : Derives a u → Derives (.star a) v → Derives (.star a) (u ++ v)
  | stop : Derives (.upTo limit a) []
  | more : Derives a u → Derives (.upTo limit a) v → Derives (.upTo (limit + 1) a) (u ++ v)

end Treewalk.Grammar
