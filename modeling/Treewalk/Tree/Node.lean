import Treewalk.Number.Numeral

/-!
# Program trees

A program is a list of statements.  Every statement and expression carries the place in the source
text that it was parsed from, and the set of kinds is closed.

## Main definitions

* `Location` — a file, a line and a column.
* `Expr`, `Property` — expressions and the entries of object literals.
* `Stmt`, `Parameter`, `Declarator` — statements and their parts.
* `Program`, `ScopeBlock`, `Block` — the containers of statements.
* `Expr.kindName`, `Stmt.kindName`, `Expr.location`, `Stmt.location`.
-/

namespace Treewalk

/-- A place in a source file.  Lines and columns are 64-bit numbers. -/
structure Location where
  file : String := ""
  line : UInt64 := 0
  column : UInt64 := 0
  deriving DecidableEq, Repr, Inhabited

/-- The text of a location; an empty file name is shown as unknown. -/
def Location.text (l : Location) : String :=
  (if l.file.isEmpty then "<unknown>" else l.file)
    ++ ":" ++ decimal l.line.toNat ++ ":" ++ decimal l.column.toNat

/-- The value of a literal. -/
inductive LiteralValue where
  | null
  | bool (b : Bool)
  | number (x : Float)
  | text (s : String)
  deriving DecidableEq, Inhabited

/-- A literal with its spelling in the source text. -/
structure Literal where
  value : LiteralValue
  raw : String := ""
  location : Location := {}
  deriving DecidableEq, Inhabited

/-- A name as it occurs in a tree. -/
structure Identifier where
  name : String
  location : Location := {}
  deriving DecidableEq, Repr, Inhabited

/-- What an entry of an object literal defines. -/
inductive PropertyKind where
  | init
  | getter
  | setter
  deriving DecidableEq, Repr, Inhabited

/-- The keyword of a variable declaration. -/
inductive DeclarationKind where
  | varKind
  | letKind
  | constKind
  deriving DecidableEq, Repr, Inhabited

mutual

/-- Expressions. -/
inductive Expr where
  | identifier (id : Identifier)
  | literal (node : Literal)
  /-- A member chain with at least one optional link. -/
  | chain (expression : Expr) (location : Location)
  /-- `object.property`, or `object[property]` if computed. -/
  | member (object property : Expr) (computed optional : Bool) (location : Location)
  | assignment (left right : Expr) (location : Location)
  | array (elements : List Expr) (location : Location)
  | object (properties : List Property) (location : Location)
  /-- The operator is kept as it is written. -/
  | binary (left : Expr) (operator : String) (right : Expr) (location : Location)
  | call (callee : Expr) (arguments : List Expr) (location : Location)

/-- An entry of an object literal. -/
structure Property where
  kind : PropertyKind
  key : Expr
  value : Expr
  computed : Bool
  shorthand : Bool
  method : Bool

end

/-- A parameter of a function, with the expression that stands in for a missing argument. -/
structure Parameter where
  id : Identifier
  default : Option Expr

/-- A declared variable with its initializer. -/
structure Declarator where
  id : Identifier
  init : Option Expr

/-- Statements. -/
inductive Stmt where
  | empty (location : Location)
  | debugger (location : Location)
  | ifElse (test : Expr) (consequent : Stmt) (alternate : Option Stmt) (location : Location)
  | whileLoop (test : Expr) (body : Stmt) (location : Location)
  | block (body : List Stmt) (location : Location)
  | expression (expression : Expr) (location : Location)
  /-- The body is a block with a location of its own. -/
  | function (id : Identifier) (isAsync generator : Bool) (params : List Parameter)
      (body : List Stmt) (bodyLocation : Location) (location : Location)
  | declaration (kind : DeclarationKind) (declarations : List Declarator) (location : Location)
  | array (children : List Expr) (location : Location)
  | ret (argument : Option Expr) (location : Location)

/-- The root of a source file. -/
structure Program where
  body : List Stmt

/-- A sequence of statements without a location. -/
structure ScopeBlock where
  body : List Stmt

/-- A sequence of statements in braces. -/
structure Block where
  body : List Stmt
  location : Location := {}

instance : Inhabited Expr := ⟨.identifier default⟩
instance : Inhabited Property := ⟨⟨.init, default, default, false, false, false⟩⟩
instance : Inhabited Stmt := ⟨.empty default⟩
instance : Inhabited Parameter := ⟨⟨default, none⟩⟩
instance : Inhabited Declarator := ⟨⟨default, none⟩⟩
instance : Inhabited Program := ⟨⟨[]⟩⟩
instance : Inhabited ScopeBlock := ⟨⟨[]⟩⟩
instance : Inhabited Block := ⟨{ body := [] }⟩

namespace Expr

/-- The name of the kind of an expression. -/
def kindName : Expr → String
  | .identifier _ => "Identifier"
  | .literal _ => "Literal"
  | .chain .. => "ChainExpression"
  | .member .. => "MemberExpression"
  | .assignment .. => "AssignmentExpression"
  | .array .. => "ArrayExpression"
  | .object .. => "ObjectExpression"
  | .binary .. => "BinaryExpression"
  | .call .. => "CallExpression"

/-- Where an expression stands. -/
def location : Expr → Location
  | .identifier id => id.location
  | .literal node => node.location
  | .chain _ l | .member _ _ _ _ l | .assignment _ _ l | .array _ l | .object _ l | .binary _ _ _ l
  | .call _ _ l => l

end Expr

namespace Stmt

/-- The name of the kind of a statement. -/
def kindName : Stmt → String
  | .empty _ => "EmptyStatement"
  | .debugger _ => "DebuggerStatement"
  | .ifElse .. => "IfStatement"
  | .whileLoop .. => "WhileStatement"
  | .block .. => "BlockStatement"
  | .expression .. => "ExpressionStatement"
  | .function .. => "FunctionDeclarationStatement"
  | .declaration .. => "VariableDeclarationStatement"
  | .array .. => "ArrayStatement"
  | .ret .. => "ReturnStatement"

/-- Where a statement stands. -/
def location : Stmt → Location
  | .empty l | .debugger l | .ifElse _ _ _ l | .whileLoop _ _ l | .block _ l | .expression _ l
  | .function _ _ _ _ _ _ l | .declaration _ _ l | .array _ l | .ret _ l => l

end Stmt

/-- The name that stands for a keyword of a declaration. -/
def DeclarationKind.name : DeclarationKind → String
  | .varKind => "var"
  | .letKind => "let"
  | .constKind => "const"

/-- The name that stands for a kind of property. -/
def PropertyKind.name : PropertyKind → String
  | .init => "init"
  | .getter => "get"
  | .setter => "set"

end Treewalk
