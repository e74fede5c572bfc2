import Treewalk.Tree

namespace Treewalk

structure ScopeId where
  index : Nat
  deriving DecidableEq

structure FunctionId where
  index : Nat
  deriving DecidableEq

structure ClassId where
  index : Nat
  deriving DecidableEq

structure ObjectId where
  index : Nat
  deriving DecidableEq

structure NativeId where
  index : Nat
  deriving DecidableEq

inductive Value
  | nil
  | bool (b : Bool)
  | number (x : Float)
  | string (s : String)
  | native (id : NativeId)
  | function (id : FunctionId)
  | cls (id : ClassId)
  | object (id : ObjectId)
  deriving DecidableEq

namespace Value

/-- Only `nil` and `false` count as false. -/
def isTruthy : Value → Bool
  | nil | bool false => false
  | _ => true

def typeName : Value → String
  | nil => "nil"
  | bool _ => "boolean"
  | number _ => "number"
  | string _ => "string"
  | native _ | function _ => "function"
  | cls _ => "class"
  | object _ => "instance"

/-- Equality of the language. NaN differs from itself, and the two zeros are equal. -/
def same : Value → Value → Bool
  | number x, number y => x == y
  | a, b => a = b

end Value

def Literal.value : Literal → Value
  | nil => .nil
  | bool b => .bool b
  | number x => .number x
  | string s => .string s

end Treewalk
