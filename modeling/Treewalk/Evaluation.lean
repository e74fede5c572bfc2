import Treewalk.Machine

/-!
Evaluation of expressions and execution of statements. Every step of the walk takes one unit of
fuel; with enough of it the result does not depend on how much.
-/

namespace Treewalk

inductive Completion
  | normal
  | returned (v : Value)
  deriving DecidableEq

namespace Run

def unary (op : Token) (v : Value) : Run Value :=
  match op.kind, v with
  | .punct .minus, .number x => return .number (-x)
  | .punct .minus, _ => fail .operandNotNumber op
  | .punct .bang, v => return .bool (!v.isTruthy)
  | _, _ => fail .invalidUnary op

def arithmetic (op : Token) (f : Float → Float → Value) : Value → Value → Run Value
  | .number x, .number y => return f x y
  | _, _ => fail .operandsNotNumbers op

def add (op : Token) : Value → Value → Run Value
  | .number x, .number y => return .number (x + y)
  | .string s, .string t => return .string (s ++ t)
  | _, _ => fail .operandsNotAddable op

def binary (op : Token) (a b : Value) : Run Value :=
  match op.kind with
  | .punct .plus => add op a b
  | .punct .equalEqual => return .bool (a.same b)
  | .punct .bangEqual => return .bool (!a.same b)
  | .punct .minus => arithmetic op (fun x y => .number (x - y)) a b
  | .punct .star => arithmetic op (fun x y => .number (x * y)) a b
  | .punct .slash => arithmetic op (fun x y => .number (x / y)) a b
  | .punct .greater => arithmetic op (fun x y => .bool (x > y)) a b
  | .punct .greaterEqual => arithmetic op (fun x y => .bool (x ≥ y)) a b
  | .punct .less => arithmetic op (fun x y => .bool (x < y)) a b
  | .punct .lessEqual => arithmetic op (fun x y => .bool (x ≤ y)) a b
  | _ => fail .invalidBinary op

/-- Whether the left operand alone decides. Whatever is not `or` acts as `and`. -/
def decides (op : Token) (left : Value) : Bool :=
  if op.kind = .keyword .orKw then left.isTruthy else !left.isTruthy

def checkArity (paren : Token) (expected got : Nat) : Run Unit :=
  if expected = got then return () else fail (.arity expected got) paren

def property (o : ObjectId) (name : Token) : Run Value := do
  let h ← heap
  match h.objects[o.index]? with
  | none => fail (.undefinedProperty name.lexeme) name
  | some obj =>
    match obj.fields.get? name.lexeme with
    | some v => return v
    | none =>
      match h.method? obj.cls name.lexeme with
      | some method => newFunction (← bindMethod method (.object o))
      | none => fail (.undefinedProperty name.lexeme) name

/-- A method of the superclass that is bound around the running one, on the running receiver. -/
def inherited (ref : Ref) (method : Token) : Run Value := do
  let m ← get
  match m.distances[ref.id]? with
  | none => fail .superOutsideClass ref.token
  | some 0 => fail .invalidSuperBinding ref.token
  | some (d + 1) =>
    match m.heap.lookupAt? m.current (d + 1) "super", m.heap.lookupAt? m.current d "this" with
    | some (.cls superclass), some receiver =>
      match m.heap.method? superclass method.lexeme with
      | some found => newFunction (← bindMethod found receiver)
      | none => fail (.undefinedProperty method.lexeme) method
    | _, _ => fail .invalidSuperBinding ref.token

/-- Makes a class and binds it. Its name is bound before, so that its methods can refer to it. -/
def declareClass (name : Token) (superclass : Option ClassId) (methods : List (FunctionDecl Stmt)) :
    Run Unit := do
  define name.lexeme .nil
  let scope ← match superclass with
    | some parent => newScope (← current) (Bindings.empty.insert "super" (.cls parent))
    | none => current
  let ancestors := (← heap).ancestorsFrom superclass
  let closures := methods.map fun decl =>
    (decl.name.lexeme, (⟨decl, scope, decl.name.lexeme = initializerName⟩ : Closure))
  let id ← newClass ⟨name.lexeme, ancestors, .ofList closures⟩
  reassign name (.cls id)

def superclassToken (name : Token) : Expr → Token
  | .name ref => ref.token
  | _ => name

def yielded (f : Closure) (completion : Completion) : Run Value := do
  if f.isInitializer then return ((← heap).binding? f.scope "this").getD .nil
  match completion with
  | .normal => return .nil
  | .returned v => return v

end Run

open Run

mutual

def evaluate : Nat → Expr → Run Value
  | 0, _ => exhausted
  | _ + 1, .literal v => return v.value
  | n + 1, .group e => evaluate n e
  | n + 1, .unary op e => do unary op (← evaluate n e)
  | n + 1, .binary l op r => do
    let a ← evaluate n l
    let b ← evaluate n r
    binary op a b
  | n + 1, .logical l op r => do
    let a ← evaluate n l
    if decides op a then return a else evaluate n r
  | _ + 1, .name ref => read ref
  | n + 1, .assign ref e => do
    let v ← evaluate n e
    assign ref v
    return v
  | n + 1, .call callee paren args => do
    let f ← evaluate n callee
    let vs ← evaluateAll n args
    apply n f paren vs
  | n + 1, .get o name => do
    match ← evaluate n o with
    | .object id => property id name
    | _ => fail .propertyOfNonInstance name
  | n + 1, .set o name e => do
    match ← evaluate n o with
    | .object id => do
      let v ← evaluate n e
      setField id name.lexeme v
      return v
    | _ => fail .fieldOfNonInstance name
  | _ + 1, .receiver ref => read ref
  | _ + 1, .inherited ref method => inherited ref method

def evaluateAll : Nat → List Expr → Run (List Value)
  | 0, _ => exhausted
  | _ + 1, [] => return []
  | n + 1, e :: es => do
    let v ← evaluate n e
    let vs ← evaluateAll n es
    return v :: vs

def apply : Nat → Value → Token → List Value → Run Value
  | 0, _, _, _ => exhausted
  | n + 1, f, paren, args => do
    match f with
    | .native id =>
      match (← get).natives[id.index]? with
      | some native => do
        checkArity paren native.arity args.length
        match native.body (← heap) args with
        | .ok v => return v
        | .error reason => fail (.native reason) paren
      | none => fail .notCallable paren
    | .function id =>
      match (← heap).functions[id.index]? with
      | some closure => do
        checkArity paren closure.arity args.length
        invoke n closure args
      | none => fail .notCallable paren
    | .cls id => do
      let initializer := (← heap).method? id initializerName
      checkArity paren ((initializer.map Closure.arity).getD 0) args.length
      let o ← newObject id
      if let some method := initializer then
        let _ ← invoke n (← bindMethod method (.object o)) args
      return .object o
    | _ => fail .notCallable paren

/-- Runs the body of a function in a fresh scope inside the one it was made in. -/
def invoke : Nat → Closure → List Value → Run Value
  | 0, _, _ => exhausted
  | n + 1, f, args => do
    let frame ← newScope f.scope (.ofList ((f.decl.params.map Token.lexeme).zip args))
    let completion ← within frame (executeAll n f.decl.body)
    yielded f completion

def execute : Nat → Stmt → Run Completion
  | 0, _ => exhausted
  | n + 1, .expr e => do
    let _ ← evaluate n e
    return .normal
  | n + 1, .print e => do
    print (← evaluate n e)
    return .normal
  | _ + 1, .var name none => do
    define name.lexeme .nil
    return .normal
  | n + 1, .var name (some e) => do
    define name.lexeme (← evaluate n e)
    return .normal
  | n + 1, .block body => do
    within (← newScope (← current) .empty) (executeAll n body)
  | n + 1, .ifThen c t => do
    if (← evaluate n c).isTruthy then execute n t else return .normal
  | n + 1, .ifElse c t e => do
    if (← evaluate n c).isTruthy then execute n t else execute n e
  | n + 1, .loop c body => iterate n c body
  | _ + 1, .function decl => do
    let f ← newFunction ⟨decl, ← current, false⟩
    define decl.name.lexeme f
    return .normal
  | _ + 1, .ret _ none => return .returned .nil
  | n + 1, .ret _ (some e) => return .returned (← evaluate n e)
  | _ + 1, .classDecl name none methods => do
    declareClass name none methods
    return .normal
  | n + 1, .classDecl name (some e) methods => do
    match ← evaluate n e with
    | .cls parent => do
      declareClass name (some parent) methods
      return .normal
    | _ => fail .superclassNotClass (superclassToken name e)

def executeAll : Nat → List Stmt → Run Completion
  | 0, _ => exhausted
  | _ + 1, [] => return .normal
  | n + 1, s :: ss => do
    match ← execute n s with
    | .normal => executeAll n ss
    | .returned v => return .returned v

def iterate : Nat → Expr → Stmt → Run Completion
  | 0, _, _ => exhausted
  | n + 1, c, body => do
    if (← evaluate n c).isTruthy then
      match ← execute n body with
      | .normal => iterate n c body
      | .returned v => return .returned v
    else return .normal

end

/-- Statements of the global level. A `return` there only ends its own statement. -/
def interpret (fuel : Nat) : List Stmt → Run Unit
  | [] => return ()
  | s :: ss => do
    let _ ← execute fuel s
    interpret fuel ss

end Treewalk
