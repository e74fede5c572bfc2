import Treewalk.Number

namespace Treewalk

inductive Punctuator
  | leftParen | rightParen | leftBrace | rightBrace
  | comma | dot | minus | plus | semicolon | slash | star
  | bang | bangEqual | equal | equalEqual
  | greater | greaterEqual | less | lessEqual
  deriving DecidableEq

namespace Punctuator

def all : List Punctuator :=
  [leftParen, rightParen, leftBrace, rightBrace, comma, dot, minus, plus, semicolon, slash, star,
   bang, bangEqual, equal, equalEqual, greater, greaterEqual, less, lessEqual]

def spelling : Punctuator → String
  | leftParen => "("
  | rightParen => ")"
  | leftBrace => "\x7b"
  | rightBrace => "\x7d"
  | comma => ","
  | dot => "."
  | minus => "-"
  | plus => "+"
  | semicolon => ";"
  | slash => "/"
  | star => "*"
  | bang => "!"
  | bangEqual => "!="
  | equal => "="
  | equalEqual => "=="
  | greater => ">"
  | greaterEqual => ">="
  | less => "<"
  | lessEqual => "<="

def name : Punctuator → String
  | leftParen => "LEFT_PAREN"
  | rightParen => "RIGHT_PAREN"
  | leftBrace => "LEFT_BRACE"
  | rightBrace => "RIGHT_BRACE"
  | comma => "COMMA"
  | dot => "DOT"
  | minus => "MINUS"
  | plus => "PLUS"
  | semicolon => "SEMICOLON"
  | slash => "SLASH"
  | star => "STAR"
  | bang => "BANG"
  | bangEqual => "BANG_EQUAL"
  | equal => "EQUAL"
  | equalEqual => "EQUAL_EQUAL"
  | greater => "GREATER"
  | greaterEqual => "GREATER_EQUAL"
  | less => "LESS"
  | lessEqual => "LESS_EQUAL"

theorem mem_all (p : Punctuator) : p ∈ all := by cases p <;> decide

end Punctuator

inductive Keyword
  | andKw | classKw | elseKw | falseKw | forKw | funKw | ifKw | nilKw
  | orKw | printKw | returnKw | superKw | thisKw | trueKw | varKw | whileKw
  deriving DecidableEq

namespace Keyword

def all : List Keyword :=
  [andKw, classKw, elseKw, falseKw, forKw, funKw, ifKw, nilKw,
   orKw, printKw, returnKw, superKw, thisKw, trueKw, varKw, whileKw]

def spelling : Keyword → String
  | andKw => "and"
  | classKw => "class"
  | elseKw => "else"
  | falseKw => "false"
  | forKw => "for"
  | funKw => "fun"
  | ifKw => "if"
  | nilKw => "nil"
  | orKw => "or"
  | printKw => "print"
  | returnKw => "return"
  | superKw => "super"
  | thisKw => "this"
  | trueKw => "true"
  | varKw => "var"
  | whileKw => "while"

def name : Keyword → String
  | andKw => "AND"
  | classKw => "CLASS"
  | elseKw => "ELSE"
  | falseKw => "FALSE"
  | forKw => "FOR"
  | funKw => "FUN"
  | ifKw => "IF"
  | nilKw => "NIL"
  | orKw => "OR"
  | printKw => "PRINT"
  | returnKw => "RETURN"
  | superKw => "SUPER"
  | thisKw => "THIS"
  | trueKw => "TRUE"
  | varKw => "VAR"
  | whileKw => "WHILE"

def ofWord? (word : String) : Option Keyword := all.find? (·.spelling == word)

theorem mem_all (k : Keyword) : k ∈ all := by cases k <;> decide

@[simp] theorem ofWord?_spelling (k : Keyword) : ofWord? k.spelling = some k := by
  cases k <;> decide

end Keyword

inductive TokenKind
  | punct (mark : Punctuator)
  | keyword (word : Keyword)
  | identifier
  | string (text : String)
  | number (value : Float)
  | eof
  deriving DecidableEq

namespace TokenKind

def name : TokenKind → String
  | punct p => p.name
  | keyword k => k.name
  | identifier => "IDENTIFIER"
  | string _ => "STRING"
  | number _ => "NUMBER"
  | eof => "EOF"

def literal : TokenKind → String
  | string text => text
  | number value => Number.literal value
  | _ => "null"

def ofName? (name : String) : Option TokenKind :=
  ((Punctuator.all.map punct ++ Keyword.all.map keyword) ++ [identifier, eof]).find?
    (·.name == name)

end TokenKind

structure Token where
  kind : TokenKind
  lexeme : String
  line : Nat
  deriving DecidableEq

namespace Token

def dump (t : Token) : String :=
  t.kind.name ++ " " ++ t.lexeme ++ " " ++ t.kind.literal

end Token

end Treewalk
