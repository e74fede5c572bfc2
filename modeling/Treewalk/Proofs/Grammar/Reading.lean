import Treewalk.Grammar.Statement

/-!
The grammar with the trees it stands for. A phrase is read off the front of a token list, from a
free number for names on; what is left is the rest of the list and the next free number.
-/

namespace Treewalk.Grammar

/-- The levels of operators between two operands, from the loosest to the tightest. -/
inductive Level
  | disjunction | conjunction | equality | comparison | term | factor
  deriving DecidableEq

def Level.operators : Level → List TokenKind
  | .disjunction => [.keyword .orKw]
  | .conjunction => [.keyword .andKw]
  | .equality => [.punct .bangEqual, .punct .equalEqual]
  | .comparison => [.punct .greater, .punct .greaterEqual, .punct .less, .punct .lessEqual]
  | .term => [.punct .minus, .punct .plus]
  | .factor => [.punct .star, .punct .slash]

def Level.node : Level → Expr → Token → Expr → Expr
  | .disjunction | .conjunction => .logical
  | .equality | .comparison | .term | .factor => .binary

/-- What a part of an expression is read as. The last three go on from a tree that stands to their
left. -/
inductive Phrase
  | assignment
  | level (l : Level)
  | unary
  | call
  | primary
  | operands (l : Level) (left : Expr)
  | suffixes (callee : Expr)
  | arguments (callee : Expr) (before : List Expr)

def Level.operand : Level → Phrase
  | .disjunction => .level .conjunction
  | .conjunction => .level .equality
  | .equality => .level .comparison
  | .comparison => .level .term
  | .term => .level .factor
  | .factor => .unary

def unaryOperators : List TokenKind := [.punct .bang, .punct .minus]

def literal? : TokenKind → Option Literal
  | .keyword .falseKw => some (.bool false)
  | .keyword .trueKw => some (.bool true)
  | .keyword .nilKw => some .nil
  | .number x => some (.number x)
  | .string s => some (.string s)
  | _ => none

inductive ReadsExpr : Phrase → List Token → Nat → Expr → List Token → Nat → Prop
  | assignName : name.kind = .identifier → equals.kind = .punct .equal →
      ReadsExpr .assignment ts (n + 1) e rest n₁ →
      ReadsExpr .assignment (name :: equals :: ts) n (.assign ⟨n₁, name⟩ e) rest (n₁ + 1)
  | assignProperty : ReadsExpr .call ts n object (dot :: name :: equals :: mid) n₁ →
      dot.kind = .punct .dot → name.kind = .identifier → equals.kind = .punct .equal →
      ReadsExpr .assignment mid n₁ e rest n₂ →
      ReadsExpr .assignment ts n (.set object name e) rest n₂
  | value : ReadsExpr (.level .disjunction) ts n e rest n₁ → ReadsExpr .assignment ts n e rest n₁
  | level {l : Level} : ReadsExpr l.operand ts n left mid n₁ →
      ReadsExpr (.operands l left) mid n₁ e rest n₂ → ReadsExpr (.level l) ts n e rest n₂
  | noOperand : ReadsExpr (.operands l left) ts n left ts n
  | operand {l : Level} {left right : Expr} {op : Token} : op.kind ∈ l.operators →
      ReadsExpr l.operand ts n right mid n₁ →
      ReadsExpr (.operands l (l.node left op right)) mid n₁ e rest n₂ →
      ReadsExpr (.operands l left) (op :: ts) n e rest n₂
  | operator : op.kind ∈ unaryOperators → ReadsExpr .unary ts n e rest n₁ →
      ReadsExpr .unary (op :: ts) n (.unary op e) rest n₁
  | noOperator : ReadsExpr .call ts n e rest n₁ → ReadsExpr .unary ts n e rest n₁
  | call : ReadsExpr .primary ts n callee mid n₁ → ReadsExpr (.suffixes callee) mid n₁ e rest n₂ →
      ReadsExpr .call ts n e rest n₂
  | noSuffix : ReadsExpr (.suffixes e) ts n e ts n
  | property : dot.kind = .punct .dot → name.kind = .identifier →
      ReadsExpr (.suffixes (.get callee name)) ts n e rest n₁ →
      ReadsExpr (.suffixes callee) (dot :: name :: ts) n e rest n₁
  | noArguments : left.kind = .punct .leftParen → right.kind = .punct .rightParen →
      ReadsExpr (.suffixes (.call callee right [])) ts n e rest n₁ →
      ReadsExpr (.suffixes callee) (left :: right :: ts) n e rest n₁
  | arguments : left.kind = .punct .leftParen →
      ReadsExpr (.arguments callee []) ts n called mid n₁ →
      ReadsExpr (.suffixes called) mid n₁ e rest n₂ →
      ReadsExpr (.suffixes callee) (left :: ts) n e rest n₂
  | argument : before.length < maxArity → ReadsExpr .assignment ts n a (comma :: mid) n₁ →
      comma.kind = .punct .comma →
      ReadsExpr (.arguments callee (before ++ [a])) mid n₁ e rest n₂ →
      ReadsExpr (.arguments callee before) ts n e rest n₂
  | lastArgument : before.length < maxArity → ReadsExpr .assignment ts n a (right :: rest) n₁ →
      right.kind = .punct .rightParen →
      ReadsExpr (.arguments callee before) ts n (.call callee right (before ++ [a])) rest n₁
  | literal : literal? t.kind = some v → ReadsExpr .primary (t :: ts) n (.literal v) ts n
  | name : t.kind = .identifier → ReadsExpr .primary (t :: ts) n (.name ⟨n, t⟩) ts (n + 1)
  | receiver : t.kind = .keyword .thisKw →
      ReadsExpr .primary (t :: ts) n (.receiver ⟨n, t⟩) ts (n + 1)
  | inherited : t.kind = .keyword .superKw → dot.kind = .punct .dot →
      method.kind = .identifier →
      ReadsExpr .primary (t :: dot :: method :: ts) n (.inherited ⟨n, t⟩ method) ts (n + 1)
  | group : left.kind = .punct .leftParen → ReadsExpr .assignment ts n e (right :: rest) n₁ →
      right.kind = .punct .rightParen → ReadsExpr .primary (left :: ts) n (.group e) rest n₁

/-- An expression that may be absent, and the mark after it. -/
inductive ReadsOption (mark : Punctuator) :
    List Token → Nat → Option Expr → List Token → Nat → Prop
  | none : m.kind = .punct mark → ReadsOption mark (m :: ts) n none ts n
  | some : ReadsExpr .assignment ts n e (m :: rest) n₁ → m.kind = .punct mark →
      ReadsOption mark ts n (some e) rest n₁

inductive ReadsVariable : List Token → Nat → Stmt → List Token → Nat → Prop
  | plain : name.kind = .identifier → semi.kind = .punct .semicolon →
      ReadsVariable (name :: semi :: ts) n (.var name none) ts n
  | initialized : name.kind = .identifier → equals.kind = .punct .equal →
      ReadsExpr .assignment ts n e (semi :: rest) n₁ → semi.kind = .punct .semicolon →
      ReadsVariable (name :: equals :: ts) n (.var name (some e)) rest n₁

inductive ReadsStart : List Token → Nat → Option Stmt → List Token → Nat → Prop
  | none : semi.kind = .punct .semicolon → ReadsStart (semi :: ts) n none ts n
  | variable : kw.kind = .keyword .varKw → ReadsVariable ts n s rest n₁ →
      ReadsStart (kw :: ts) n (some s) rest n₁
  | expression : ReadsExpr .assignment ts n e (semi :: rest) n₁ → semi.kind = .punct .semicolon →
      ReadsStart ts n (some (.expr e)) rest n₁

inductive ReadsParameters : Nat → List Token → List Token → List Token → Prop
  | last : count < maxArity → name.kind = .identifier → right.kind = .punct .rightParen →
      ReadsParameters count (name :: right :: ts) [name] ts
  | more : count < maxArity → name.kind = .identifier → comma.kind = .punct .comma →
      ReadsParameters (count + 1) ts names rest →
      ReadsParameters count (name :: comma :: ts) (name :: names) rest

inductive ReadsSignature : List Token → List Token → List Token → Prop
  | none : right.kind = .punct .rightParen → ReadsSignature (right :: ts) [] ts
  | some : ReadsParameters 0 ts names rest → ReadsSignature ts names rest

inductive ReadsSuperclass : List Token → Nat → Option Expr → List Token → Nat → Prop
  | none : ReadsSuperclass ts n none ts n
  | some : less.kind = .punct .less → name.kind = .identifier →
      ReadsSuperclass (less :: name :: ts) n (some (.name ⟨n, name⟩)) ts (n + 1)

mutual

/-- A statement, and whether it ends in an `if` that could still take an `else`. The branch before
an `else` never does: an `else` goes with the nearest `if`. -/
inductive ReadsStmt : Bool → List Token → Nat → Stmt → List Token → Nat → Prop
  | expression : ReadsExpr .assignment ts n e (semi :: rest) n₁ → semi.kind = .punct .semicolon →
      ReadsStmt false ts n (.expr e) rest n₁
  | print : kw.kind = .keyword .printKw → ReadsExpr .assignment ts n e (semi :: rest) n₁ →
      semi.kind = .punct .semicolon → ReadsStmt false (kw :: ts) n (.print e) rest n₁
  | ret : kw.kind = .keyword .returnKw → ReadsOption .semicolon ts n v rest n₁ →
      ReadsStmt false (kw :: ts) n (.ret kw v) rest n₁
  | block : left.kind = .punct .leftBrace → ReadsDecls ts n body (right :: rest) n₁ →
      right.kind = .punct .rightBrace → ReadsStmt false (left :: ts) n (.block body) rest n₁
  | loop : kw.kind = .keyword .whileKw → left.kind = .punct .leftParen →
      ReadsExpr .assignment ts n c (right :: mid) n₁ → right.kind = .punct .rightParen →
      ReadsStmt isOpen mid n₁ body rest n₂ →
      ReadsStmt isOpen (kw :: left :: ts) n (.loop c body) rest n₂
  | counting : kw.kind = .keyword .forKw → left.kind = .punct .leftParen →
      ReadsStart ts n start ts₁ n₁ → ReadsOption .semicolon ts₁ n₁ condition ts₂ n₂ →
      ReadsOption .rightParen ts₂ n₂ step ts₃ n₃ → ReadsStmt isOpen ts₃ n₃ body rest n₄ →
      ReadsStmt isOpen (kw :: left :: ts) n (.counting start condition step body) rest n₄
  | ifThen : kw.kind = .keyword .ifKw → left.kind = .punct .leftParen →
      ReadsExpr .assignment ts n c (right :: mid) n₁ → right.kind = .punct .rightParen →
      ReadsStmt isOpen mid n₁ t rest n₂ →
      ReadsStmt true (kw :: left :: ts) n (.ifThen c t) rest n₂
  | ifElse : kw.kind = .keyword .ifKw → left.kind = .punct .leftParen →
      ReadsExpr .assignment ts n c (right :: mid) n₁ → right.kind = .punct .rightParen →
      ReadsStmt false mid n₁ t (other :: mid₁) n₂ → other.kind = .keyword .elseKw →
      ReadsStmt isOpen mid₁ n₂ e rest n₃ →
      ReadsStmt isOpen (kw :: left :: ts) n (.ifElse c t e) rest n₃

inductive ReadsDecl : List Token → Nat → Stmt → List Token → Nat → Prop
  | classDecl : kw.kind = .keyword .classKw → name.kind = .identifier →
      ReadsSuperclass ts n superclass (left :: mid) n₁ → left.kind = .punct .leftBrace →
      ReadsMethods mid n₁ methods (right :: rest) n₂ → right.kind = .punct .rightBrace →
      ReadsDecl (kw :: name :: ts) n (.classDecl name superclass methods) rest n₂
  | function : kw.kind = .keyword .funKw → ReadsFunction ts n decl rest n₁ →
      ReadsDecl (kw :: ts) n (.function decl) rest n₁
  | variable : kw.kind = .keyword .varKw → ReadsVariable ts n s rest n₁ →
      ReadsDecl (kw :: ts) n s rest n₁
  | statement : ReadsStmt isOpen ts n s rest n₁ → ReadsDecl ts n s rest n₁

inductive ReadsDecls : List Token → Nat → List Stmt → List Token → Nat → Prop
  | nil : ReadsDecls ts n [] ts n
  | cons : ReadsDecl ts n s mid n₁ → ReadsDecls mid n₁ ss rest n₂ →
      ReadsDecls ts n (s :: ss) rest n₂

inductive ReadsFunction : List Token → Nat → FunctionDecl Stmt → List Token → Nat → Prop
  | mk : name.kind = .identifier → left.kind = .punct .leftParen →
      ReadsSignature ts names (brace :: mid) → brace.kind = .punct .leftBrace →
      ReadsDecls mid n body (right :: rest) n₁ → right.kind = .punct .rightBrace →
      ReadsFunction (name :: left :: ts) n ⟨name, names, body⟩ rest n₁

inductive ReadsMethods : List Token → Nat → List (FunctionDecl Stmt) → List Token → Nat → Prop
  | nil : ReadsMethods ts n [] ts n
  | cons : ReadsFunction ts n f mid n₁ → ReadsMethods mid n₁ fs rest n₂ →
      ReadsMethods ts n (f :: fs) rest n₂

end

end Treewalk.Grammar
