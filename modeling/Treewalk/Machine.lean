import Treewalk.Diagnostic
import Treewalk.Heap
import Treewalk.Resolution

/-!
The machine that runs programs: a heap, host functions, the scope that is current, the distances of
the names, and the sink that printing writes to.
-/

namespace Treewalk

/-- A text is refused: how many of its characters are taken all the same, and why no more are. -/
structure Refusal where
  taken : Nat
  reason : String

def Refusal.front (refusal : Refusal) (text : String) : String :=
  String.ofList (text.toList.take refusal.taken)

/-- What printing writes to. It takes a text whole or refuses it, all of it or its end, and which of
these may depend on all that it was offered before. -/
structure Sink where
  /-- Every text so far, with those that were refused. -/
  offered : Array String
  /-- The texts that were taken, and of those that were refused what was taken. -/
  written : Array String
  /-- How a text is refused after others, if it is. -/
  refusal : Array String → String → Option Refusal

namespace Sink

def unlimited : Sink := ⟨#[], #[], fun _ _ => none⟩

def newlines (texts : Array String) : Nat :=
  texts.foldl (fun n s => n + s.toList.count '\n') 0

def limited (lines : Nat) (reason : String) : Sink :=
  ⟨#[], #[], fun texts _ => if newlines texts < lines then none else some ⟨0, reason⟩⟩

/-- Offers a text; nothing comes of an empty one. What comes back is why the sink refused. -/
def offer (sink : Sink) (text : String) : Option String × Sink :=
  if text.isEmpty then (none, sink)
  else
    let offered := sink.offered.push text
    match sink.refusal sink.offered text with
    | none => (none, { sink with offered, written := sink.written.push text })
    | some refusal =>
      (some refusal.reason, { sink with offered, written := sink.written.push (refusal.front text) })

/-- Offers texts one after another, up to the first that is refused. -/
def offerAll (sink : Sink) : List String → Option String × Sink
  | [] => (none, sink)
  | text :: texts =>
    match sink.offer text with
    | (none, sink) => sink.offerAll texts
    | refused => refused

def textFrom (sink : Sink) (start : Nat) : String :=
  (sink.written.foldl (fun s t => s ++ t) "" start)

end Sink

/-- A function of the host. It is pure: its answer depends on the heap and the arguments alone, and it
changes nothing. -/
structure Native where
  name : String
  arity : Nat
  body : Heap → List Value → Except String Value

structure Machine where
  heap : Heap
  natives : Array Native
  globals : ScopeId
  current : ScopeId
  distances : Distances
  sink : Sink

namespace Machine

def addNative (m : Machine) (native : Native) : Machine :=
  let name := native.name
  let id : NativeId := ⟨m.natives.size⟩
  { m with
    natives := m.natives.push native
    heap := m.heap.define m.globals name (.native id) }

/-- The host function that tells the time, in seconds. The time stands still at `now`. -/
def clock (now : Float) : Native := ⟨"clock", 0, fun _ _ => .ok (.number now)⟩

def new (sink : Sink) (now : Float) : Machine :=
  let (globals, heap) := Heap.empty.addScope ⟨.empty, []⟩
  addNative ⟨heap, #[], globals, globals, ∅, sink⟩ (clock now)

/-- The value of a name at its distance, or among the globals if it has none. -/
def find? (m : Machine) (ref : Ref) : Option Value :=
  match m.distances[ref.id]? with
  | some d => m.heap.lookupAt? m.current d ref.token.lexeme
  | none => m.heap.lookup? m.globals ref.token.lexeme

def owner? (m : Machine) (ref : Ref) : Option ScopeId :=
  match m.distances[ref.id]? with
  | some d => m.heap.ownerAt? m.current d ref.token.lexeme
  | none => m.heap.owner? m.globals ref.token.lexeme

end Machine

/-- What happens on a machine: a result or a halt, and in both cases the machine afterwards. -/
abbrev Run := EStateM Halt Machine

namespace Run

variable {α : Type}

def exhausted : Run α := fun m => .error .exhausted m

def fail (fault : RuntimeFault) (token : Token) : Run α := fun m =>
  .error (.fault (.runtime fault token)) m

/-- Runs something in another scope and comes back, however it ends. -/
@[inline] def within (scope : ScopeId) (body : Run α) : Run α := fun m =>
  let saved := m.current
  match body { m with current := scope } with
  | .ok a m => .ok a { m with current := saved }
  | .error e m => .error e { m with current := saved }

def after (m : Machine) (body : Run α) : Machine :=
  match body m with
  | .ok _ m => m
  | .error _ m => m

def heap : Run Heap := fun m => .ok m.heap m

def current : Run ScopeId := fun m => .ok m.current m

def undefined (name : Token) : Diagnostic := .runtime (.undefinedVariable name.lexeme) name

def write (text : String) : Run Unit := fun m =>
  match m.sink.offer text with
  | (none, sink) => .ok () { m with sink }
  | (some reason, sink) => .error (.fault (.output reason)) { m with sink }

def writeAll : List String → Run Unit
  | [] => pure ()
  | text :: texts => do
    write text
    writeAll texts

def print (v : Value) : Run Unit := do
  writeAll ((← heap).line v)

def define (name : String) (v : Value) : Run Unit := fun m =>
  .ok () { m with heap := m.heap.define m.current name v }

def reassign (name : Token) (v : Value) : Run Unit := fun m =>
  match m.heap.owner? m.current name.lexeme with
  | some scope => .ok () { m with heap := m.heap.define scope name.lexeme v }
  | none => .error (.fault (undefined name)) m

def newScope (parent : ScopeId) (bindings : Bindings Value) : Run ScopeId := fun m =>
  let (scope, heap) := m.heap.addChild parent bindings
  .ok scope { m with heap }

def newFunction (f : Closure) : Run Value := fun m =>
  let (id, heap) := m.heap.addFunction f
  .ok (.function id) { m with heap }

def newClass (c : Class) : Run ClassId := fun m =>
  let (id, heap) := m.heap.addClass c
  .ok id { m with heap }

def newObject (cls : ClassId) : Run ObjectId := fun m =>
  let (id, heap) := m.heap.addObject ⟨cls, .empty⟩
  .ok id { m with heap }

def setField (o : ObjectId) (name : String) (v : Value) : Run Unit := fun m =>
  .ok () { m with heap := m.heap.setField o name v }

def bindMethod (method : Closure) (receiver : Value) : Run Closure := fun m =>
  let (closure, heap) := m.heap.bindMethod method receiver
  .ok closure { m with heap }

def read (ref : Ref) : Run Value := fun m =>
  match m.find? ref with
  | some v => .ok v m
  | none => .error (.fault (undefined ref.token)) m

def assign (ref : Ref) (v : Value) : Run Unit := fun m =>
  match m.owner? ref with
  | some scope => .ok () { m with heap := m.heap.define scope ref.token.lexeme v }
  | none => .error (.fault (undefined ref.token)) m

end Run

end Treewalk
