import Treewalk.Token

namespace Treewalk

inductive LexicalFault
  | unexpectedCharacter (c : Char)
  | unterminatedString
  deriving DecidableEq

def LexicalFault.message : LexicalFault → String
  | unexpectedCharacter c => "Unexpected character: " ++ c.toString
  | unterminatedString => "Unterminated string."

inductive SyntaxFault
  | expectedExpression
  | expectedEnd
  | expectedName (what : String)
  | expectedProperty
  | expectedMark (mark : Punctuator) (place : String)
  | invalidTarget
  | tooMany (what : String)
  deriving DecidableEq

def maxArity : Nat := 255

def SyntaxFault.message : SyntaxFault → String
  | expectedExpression => "Expect expression."
  | expectedEnd => "Expect end of expression."
  | expectedName what => "Expect " ++ what ++ " name."
  | expectedProperty => "Expect property name after '.'."
  | expectedMark mark place => "Expect '" ++ mark.spelling ++ "' " ++ place ++ "."
  | invalidTarget => "Invalid assignment target."
  | tooMany what => "Can't have more than " ++ toString maxArity ++ " " ++ what ++ "."

inductive ResolutionFault
  | redeclared
  | readInInitializer
  | returnOutsideFunction
  | valueFromInitializer
  | inheritsItself
  | thisOutsideClass
  | superOutsideClass
  | superWithoutSuperclass
  deriving DecidableEq

def ResolutionFault.message : ResolutionFault → String
  | redeclared => "Already a variable with this name in this scope."
  | readInInitializer => "Can't read local variable in its own initializer."
  | returnOutsideFunction => "Can't return from top-level code."
  | valueFromInitializer => "Can't return a value from an initializer."
  | inheritsItself => "A class can't inherit from itself."
  | thisOutsideClass => "Can't use 'this' outside of a class."
  | superOutsideClass => "Can't use 'super' outside of a class."
  | superWithoutSuperclass => "Can't use 'super' in a class with no superclass."

inductive RuntimeFault
  | operandNotNumber
  | operandsNotNumbers
  | operandsNotAddable
  | invalidUnary
  | invalidBinary
  | undefinedVariable (name : String)
  | undefinedProperty (name : String)
  | notCallable
  | arity (expected got : Nat)
  | propertyOfNonInstance
  | fieldOfNonInstance
  | superclassNotClass
  | superOutsideClass
  | invalidSuperBinding
  | native (reason : String)
  deriving DecidableEq

def RuntimeFault.message : RuntimeFault → String
  | operandNotNumber => "Operand must be a number."
  | operandsNotNumbers => "Operands must be numbers."
  | operandsNotAddable => "Operands must be two numbers or two strings."
  | invalidUnary => "Invalid unary operator."
  | invalidBinary => "Invalid binary operator."
  | undefinedVariable name => "Undefined variable '" ++ name ++ "'."
  | undefinedProperty name => "Undefined property '" ++ name ++ "'."
  | notCallable => "Can only call functions and classes."
  | arity expected got =>
    "Expected " ++ toString expected ++ " arguments but got " ++ toString got ++ "."
  | propertyOfNonInstance => "Only instances have properties."
  | fieldOfNonInstance => "Only instances have fields."
  | superclassNotClass => "Superclass must be a class."
  | superOutsideClass => "Can't use 'super' outside of a class."
  | invalidSuperBinding => "Invalid 'super' binding."
  | native reason => reason

inductive Diagnostic
  | lexical (fault : LexicalFault) (line : Nat)
  | syntactic (fault : SyntaxFault) (token : Token)
  | resolution (fault : ResolutionFault) (token : Token)
  | runtime (fault : RuntimeFault) (token : Token)
  | output (reason : String)
  deriving DecidableEq

namespace Diagnostic

def message : Diagnostic → String
  | lexical fault _ => fault.message
  | syntactic fault _ => fault.message
  | resolution fault _ => fault.message
  | runtime fault _ => fault.message
  | output reason => reason

def line? : Diagnostic → Option Nat
  | lexical _ line => some line
  | syntactic _ token | resolution _ token | runtime _ token => some token.line
  | output _ => none

def quoted (token : Token) : String := " at '" ++ token.lexeme ++ "'"

/-- A token of the text that is read, whose end has no text of its own. -/
def place (token : Token) : String :=
  if token.kind = .eof then " at end" else quoted token

def location : Diagnostic → String
  | lexical _ _ | output _ => ""
  | syntactic _ token | resolution _ token => place token
  | runtime _ token => quoted token

def display (d : Diagnostic) : String :=
  match d with
  | lexical _ line => onLine line
  | syntactic _ token | resolution _ token => onLine token.line
  | runtime _ token => d.message ++ "\n[line " ++ toString token.line ++ "]"
  | output reason => reason
where
  onLine (line : Nat) : String :=
    "[line " ++ toString line ++ "] Error" ++ d.location ++ ": " ++ d.message

def isStatic : Diagnostic → Bool
  | lexical _ _ | syntactic _ _ | resolution _ _ => true
  | runtime _ _ | output _ => false

def isRuntime : Diagnostic → Bool
  | runtime _ _ | output _ => true
  | lexical _ _ | syntactic _ _ | resolution _ _ => false

@[simp] theorem isRuntime_eq_not_isStatic (d : Diagnostic) : d.isRuntime = !d.isStatic := by
  cases d <;> rfl

end Diagnostic

/-- Why something ended without a result: for a fault, or because it was not given enough steps. -/
inductive Halt
  | fault (diagnostic : Diagnostic)
  | exhausted
  deriving DecidableEq

end Treewalk
