import Treewalk.Bindings
import Treewalk.Value

namespace Treewalk

structure Scope where
  bindings : Bindings Value
  /-- The scopes around this one, nearest first. -/
  enclosing : List ScopeId

/-- A function with the scope that it was made in. -/
structure Closure where
  decl : FunctionDecl Stmt
  scope : ScopeId
  isInitializer : Bool

def Closure.arity (f : Closure) : Nat := f.decl.params.length

structure Class where
  name : String
  /-- The superclass, its superclass and so on. -/
  ancestors : List ClassId
  methods : Bindings Closure

structure Object where
  cls : ClassId
  fields : Bindings Value

structure Heap where
  scopes : Array Scope
  functions : Array Closure
  classes : Array Class
  objects : Array Object

namespace Heap

def empty : Heap := ⟨#[], #[], #[], #[]⟩

def addScope (h : Heap) (scope : Scope) : ScopeId × Heap :=
  (⟨h.scopes.size⟩, { h with scopes := h.scopes.push scope })

/-- A scope and those around it. -/
def chain (h : Heap) (s : ScopeId) : List ScopeId :=
  match h.scopes[s.index]? with
  | some scope => s :: scope.enclosing
  | none => []

def addChild (h : Heap) (parent : ScopeId) (bindings : Bindings Value) : ScopeId × Heap :=
  h.addScope ⟨bindings, h.chain parent⟩

theorem chain_addChild (h : Heap) (parent : ScopeId) (bindings : Bindings Value) :
    (h.addChild parent bindings).2.chain (h.addChild parent bindings).1 =
      (h.addChild parent bindings).1 :: h.chain parent := by
  simp [addChild, addScope, chain]

def binding? (h : Heap) (s : ScopeId) (name : String) : Option Value :=
  match h.scopes[s.index]? with
  | some scope => scope.bindings.get? name
  | none => none

def define (h : Heap) (s : ScopeId) (name : String) (v : Value) : Heap :=
  { h with scopes := h.scopes.modify s.index fun scope =>
      { scope with bindings := scope.bindings.insert name v } }

@[simp] theorem scopes_define (h : Heap) (s : ScopeId) (name : String) (v : Value) (i : Nat) :
    (h.define s name v).scopes[i]? =
      if s.index = i then
        h.scopes[i]?.map fun scope => { scope with bindings := scope.bindings.insert name v }
      else h.scopes[i]? := by
  simp [define, Array.getElem?_modify]

@[simp] theorem chain_define (h : Heap) (s t : ScopeId) (name : String) (v : Value) :
    (h.define s name v).chain t = h.chain t := by
  simp only [chain, scopes_define]
  by_cases hi : s.index = t.index
  · cases h.scopes[t.index]? <;> simp [hi]
  · simp [hi]

theorem binding?_define_self (h : Heap) (s : ScopeId) (name other : String) (v : Value)
    (hs : s.index < h.scopes.size) :
    (h.define s name v).binding? s other = if name = other then some v else h.binding? s other := by
  simp [binding?, hs]

theorem binding?_define_of_ne (h : Heap) {s t : ScopeId} (name other : String) (v : Value)
    (ht : s ≠ t) : (h.define s name v).binding? t other = h.binding? t other := by
  have : s.index ≠ t.index := fun e => ht (by cases s; cases t; simp_all)
  simp [binding?, this]

def lookup? (h : Heap) (s : ScopeId) (name : String) : Option Value :=
  (h.chain s).findSome? (h.binding? · name)

/-- The value of a name exactly `distance` scopes out. -/
def lookupAt? (h : Heap) (s : ScopeId) (distance : Nat) (name : String) : Option Value :=
  match (h.chain s)[distance]? with
  | some t => h.binding? t name
  | none => none

def owner? (h : Heap) (s : ScopeId) (name : String) : Option ScopeId :=
  (h.chain s).find? fun t => (h.binding? t name).isSome

def ownerAt? (h : Heap) (s : ScopeId) (distance : Nat) (name : String) : Option ScopeId :=
  (h.chain s)[distance]?.filter fun t => (h.binding? t name).isSome

def assign? (h : Heap) (s : ScopeId) (name : String) (v : Value) : Option Heap :=
  match h.owner? s name with
  | some t => some (h.define t name v)
  | none => none

def assignAt? (h : Heap) (s : ScopeId) (distance : Nat) (name : String) (v : Value) :
    Option Heap :=
  match h.ownerAt? s distance name with
  | some t => some (h.define t name v)
  | none => none

def addFunction (h : Heap) (f : Closure) : FunctionId × Heap :=
  (⟨h.functions.size⟩, { h with functions := h.functions.push f })

def addClass (h : Heap) (c : Class) : ClassId × Heap :=
  (⟨h.classes.size⟩, { h with classes := h.classes.push c })

def addObject (h : Heap) (o : Object) : ObjectId × Heap :=
  (⟨h.objects.size⟩, { h with objects := h.objects.push o })

def lineage (h : Heap) (c : ClassId) : List ClassId :=
  match h.classes[c.index]? with
  | some cls => c :: cls.ancestors
  | none => []

def ancestorsFrom (h : Heap) : Option ClassId → List ClassId
  | some superclass => h.lineage superclass
  | none => []

def ownMethod? (h : Heap) (c : ClassId) (name : String) : Option Closure :=
  match h.classes[c.index]? with
  | some cls => cls.methods.get? name
  | none => none

def method? (h : Heap) (c : ClassId) (name : String) : Option Closure :=
  (h.lineage c).findSome? (h.ownMethod? · name)

def setField (h : Heap) (o : ObjectId) (name : String) (v : Value) : Heap :=
  { h with objects := h.objects.modify o.index fun obj =>
      { obj with fields := obj.fields.insert name v } }

/-- A method with one more scope around it, in which `this` is the receiver. -/
def bindMethod (h : Heap) (method : Closure) (receiver : Value) : Closure × Heap :=
  let (scope, h) := h.addChild method.scope (Bindings.empty.insert "this" receiver)
  ({ method with scope }, h)

def className (h : Heap) (c : ClassId) : String :=
  match h.classes[c.index]? with
  | some cls => cls.name
  | none => ""

def functionName (h : Heap) (f : FunctionId) : String :=
  match h.functions[f.index]? with
  | some closure => closure.decl.name.lexeme
  | none => ""

def objectClassName (h : Heap) (o : ObjectId) : String :=
  match h.objects[o.index]? with
  | some obj => h.className obj.cls
  | none => ""

def display (h : Heap) : Value → String
  | .nil => "nil"
  | .bool true => "true"
  | .bool false => "false"
  | .number x => Number.display x
  | .string s => s
  | .native _ => "<native fn>"
  | .function f => "<fn " ++ h.functionName f ++ ">"
  | .cls c => h.className c
  | .object o => h.objectClassName o ++ " instance"

/-- The texts that printing a value writes one after another. -/
def pieces (h : Heap) : Value → List String
  | .number x => Number.pieces x
  | .function f => ["<fn ", h.functionName f, ">"]
  | .object o => [h.objectClassName o, " instance"]
  | v => [h.display v]

def line (h : Heap) (v : Value) : List String := h.pieces v ++ ["\n"]

theorem join_pieces (h : Heap) (v : Value) : String.join (h.pieces v) = h.display v := by
  cases v with
  | number x => exact Number.join_pieces x
  | function f => simp [pieces, display, String.append_assoc]
  | object o => simp [pieces, display]
  | _ => simp [pieces]

end Heap

end Treewalk
