import Treewalk.Number.Styles
import Treewalk.Text.Quoted
import Treewalk.Tree.Node

/-!
# Building trees by hand

Shorthands for trees that do not come from a source text.  Nodes built here have the default
location, and literals are spelled after their value.
-/

namespace Treewalk

/-- The spelling of a literal with a given value. -/
def LiteralValue.spelling : LiteralValue → String
  | .null => "null"
  | .bool b => if b then "true" else "false"
  | .number x => NumberStyle.spelling.text x
  | .text s => Text.quoted s

/-- An identifier. -/
def Identifier.named (name : String) : Identifier := { name }

namespace Expr

/-- A name. -/
def ident (name : String) : Expr := .identifier (.named name)

/-- A literal. -/
def ofValue (value : LiteralValue) : Expr := .literal { value, raw := value.spelling }

/-- A number. -/
def ofFloat (x : Float) : Expr := ofValue (.number x)

/-- A string. -/
def ofString (s : String) : Expr := ofValue (.text s)

/-- A boolean. -/
def ofBool (b : Bool) : Expr := ofValue (.bool b)

/-- Null. -/
def ofNull : Expr := ofValue .null

/-- `left operator right`. -/
def operation (left : Expr) (operator : String) (right : Expr) : Expr :=
  .binary left operator right {}

/-- `name = value`. -/
def assign (name : String) (value : Expr) : Expr := .assignment (ident name) value {}

/-- `name(arguments)`. -/
def callName (name : String) (arguments : List Expr) : Expr := .call (ident name) arguments {}

/-- `object.name`, or `object?.name` if optional. -/
def dot (object : Expr) (name : String) (optional : Bool) : Expr :=
  .member object (ident name) false optional {}

/-- `object[property]`. -/
def index (object property : Expr) : Expr := .member object property true false {}

/-- A member chain. -/
def chained (expression : Expr) : Expr := .chain expression {}

/-- An array literal. -/
def ofElements (elements : List Expr) : Expr := .array elements {}

/-- An object literal with the given names and values. -/
def ofEntries (entries : List (String × Expr)) : Expr :=
  .object (entries.map fun (key, value) => ⟨.init, ident key, value, false, false, false⟩) {}

end Expr

namespace Stmt

/-- An expression as a statement. -/
def ofExpr (expression : Expr) : Stmt := .expression expression {}

/-- The empty statement. -/
def nothing : Stmt := .empty {}

/-- The statement that halts execution. -/
def halt : Stmt := .debugger {}

/-- `let name = init;` -/
def letVariable (name : String) (init : Option Expr) : Stmt :=
  .declaration .letKind [⟨.named name, init⟩] {}

/-- `function name(params) body`. -/
def define (name : String) (params : List String) (body : List Stmt) : Stmt :=
  .function (.named name) false false (params.map fun p => ⟨.named p, none⟩) body {} {}

/-- `return argument;` -/
def giveBack (argument : Option Expr) : Stmt := .ret argument {}

/-- Statements in braces. -/
def braces (body : List Stmt) : Stmt := .block body {}

/-- `if (test) consequent else alternate`. -/
def choose (test : Expr) (consequent : Stmt) (alternate : Option Stmt) : Stmt :=
  .ifElse test consequent alternate {}

/-- `while (test) body`. -/
def loop (test : Expr) (body : Stmt) : Stmt := .whileLoop test body {}

end Stmt

end Treewalk
