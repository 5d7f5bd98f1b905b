import Treewalk.Json.Print
import Treewalk.Number.Styles
import Treewalk.Tree.Node

/-!
# Writing trees

The document of a tree has all fields of every record, in their order and under their names, and
the tag of a node comes first.  A number that is not finite has no numeral and is written as null.

## Main definitions

* `Location.toDoc`, `Literal.toDoc`, `Expr.toDoc`, `Stmt.toDoc`, … — documents of trees.
* `Program.compactText`, `Program.prettyText` — the two written forms of a program.
-/

namespace Treewalk

open Json (Doc)

/-- The document of a location. -/
def Location.toDoc (l : Location) : Doc :=
  .ofMembers [("file", .ofString l.file), ("line", .ofNat l.line.toNat),
    ("column", .ofNat l.column.toNat)]

/-- The document of a number. -/
def numberDoc (x : Float) : Doc :=
  match NumberStyle.document.numeral? x with
  | some n => .number n
  | none => .null

/-- The document of the value of a literal. -/
def LiteralValue.toDoc : LiteralValue → Doc
  | .null => .null
  | .bool b => .boolean b
  | .number x => numberDoc x
  | .text s => .ofString s

/-- The fields of a literal. -/
def Literal.members (l : Literal) : List (String × Doc) :=
  [("value", l.value.toDoc), ("raw", .ofString l.raw), ("location", l.location.toDoc)]

/-- The document of a literal. -/
def Literal.toDoc (l : Literal) : Doc := .ofMembers l.members

/-- The fields of an identifier. -/
def Identifier.members (i : Identifier) : List (String × Doc) :=
  [("name", .ofString i.name), ("location", i.location.toDoc)]

/-- The document of an identifier. -/
def Identifier.toDoc (i : Identifier) : Doc := .ofMembers i.members

/-- The document of a kind of property. -/
def PropertyKind.toDoc (k : PropertyKind) : Doc := .ofString k.name

/-- The document of a keyword of a declaration. -/
def DeclarationKind.toDoc (k : DeclarationKind) : Doc := .ofString k.name

/-- A record with a tag. -/
def tagged (tag : String) (members : List (String × Doc)) : Doc :=
  .ofMembers (("type", .ofString tag) :: members)

mutual

/-- The document of an expression. -/
def Expr.toDoc : Expr → Doc
  | .identifier id => tagged "Identifier" id.members
  | .literal node => tagged "Literal" node.members
  | .chain expression location =>
    tagged "ChainExpression" [("expression", expression.toDoc), ("location", location.toDoc)]
  | .member object property computed optional location =>
    tagged "MemberExpression"
      [("object", object.toDoc), ("property", property.toDoc), ("computed", .boolean computed),
       ("optional", .boolean optional), ("location", location.toDoc)]
  | .assignment left right location =>
    tagged "AssignmentExpression"
      [("left", left.toDoc), ("right", right.toDoc), ("location", location.toDoc)]
  | .array elements location =>
    tagged "ArrayExpression"
      [("elements", .ofList (Expr.toDocs elements)), ("location", location.toDoc)]
  | .object properties location =>
    tagged "ObjectExpression"
      [("properties", .ofList (Property.toDocs properties)), ("location", location.toDoc)]
  | .binary left operator right location =>
    tagged "BinaryExpression"
      [("left", left.toDoc), ("operator", .ofString operator), ("right", right.toDoc),
       ("location", location.toDoc)]
  | .call callee arguments location =>
    tagged "CallExpression"
      [("callee", callee.toDoc), ("arguments", .ofList (Expr.toDocs arguments)),
       ("location", location.toDoc)]

/-- The document of an entry of an object literal. -/
def Property.toDoc : Property → Doc
  | ⟨kind, key, value, computed, shorthand, method⟩ =>
    .ofMembers
      [("kind", kind.toDoc), ("key", key.toDoc), ("value", value.toDoc),
       ("computed", .boolean computed), ("shorthand", .boolean shorthand),
       ("method", .boolean method)]

/-- The documents of expressions. -/
def Expr.toDocs : List Expr → List Doc
  | [] => []
  | e :: es => e.toDoc :: Expr.toDocs es

/-- The documents of the entries of an object literal. -/
def Property.toDocs : List Property → List Doc
  | [] => []
  | p :: ps => p.toDoc :: Property.toDocs ps

end

/-- The document of an expression that may be missing. -/
def optionalExprDoc : Option Expr → Doc
  | none => .null
  | some e => e.toDoc

/-- The document of a parameter. -/
def Parameter.toDoc (p : Parameter) : Doc :=
  .ofMembers [("id", p.id.toDoc), ("default", optionalExprDoc p.default)]

/-- The document of a declared variable. -/
def Declarator.toDoc (d : Declarator) : Doc :=
  .ofMembers [("id", d.id.toDoc), ("init", optionalExprDoc d.init)]

/-- The fields of a block, given the documents of its statements. -/
def blockMembers (body : List Doc) (location : Location) : List (String × Doc) :=
  [("body", .ofList body), ("location", location.toDoc)]

mutual

/-- The document of a statement. -/
def Stmt.toDoc : Stmt → Doc
  | .empty location => tagged "EmptyStatement" [("location", location.toDoc)]
  | .debugger location => tagged "DebuggerStatement" [("location", location.toDoc)]
  | .ifElse test consequent alternate location =>
    tagged "IfStatement"
      [("test", test.toDoc), ("consequent", consequent.toDoc),
       ("alternate", Stmt.optionalDoc alternate), ("location", location.toDoc)]
  | .whileLoop test body location =>
    tagged "WhileStatement"
      [("test", test.toDoc), ("body", body.toDoc), ("location", location.toDoc)]
  | .block body location => tagged "BlockStatement" (blockMembers (Stmt.toDocs body) location)
  | .expression value location =>
    tagged "ExpressionStatement" [("expression", value.toDoc), ("location", location.toDoc)]
  | .function id isAsync generator params body bodyLocation location =>
    tagged "FunctionDeclarationStatement"
      [("id", id.toDoc), ("async", .boolean isAsync), ("generator", .boolean generator),
       ("params", .ofList (params.map Parameter.toDoc)),
       ("body", .ofMembers (blockMembers (Stmt.toDocs body) bodyLocation)),
       ("location", location.toDoc)]
  | .declaration kind declarations location =>
    tagged "VariableDeclarationStatement"
      [("kind", kind.toDoc), ("declarations", .ofList (declarations.map Declarator.toDoc)),
       ("location", location.toDoc)]
  | .array children location =>
    tagged "ArrayStatement"
      [("children", .ofList (children.map Expr.toDoc)), ("location", location.toDoc)]
  | .ret argument location =>
    tagged "ReturnStatement"
      [("argument", optionalExprDoc argument), ("location", location.toDoc)]

/-- The documents of statements. -/
def Stmt.toDocs : List Stmt → List Doc
  | [] => []
  | s :: ss => s.toDoc :: Stmt.toDocs ss

/-- The document of a statement that may be missing. -/
def Stmt.optionalDoc : Option Stmt → Doc
  | none => .null
  | some s => s.toDoc

end

/-- The document of a block. -/
def Block.toDoc (b : Block) : Doc := .ofMembers (blockMembers (Stmt.toDocs b.body) b.location)

/-- The document of a sequence of statements. -/
def ScopeBlock.toDoc (b : ScopeBlock) : Doc := .ofMembers [("body", .ofList (Stmt.toDocs b.body))]

namespace Program

/-- The document of a program. -/
def toDoc (p : Program) : Doc := .ofMembers [("body", .ofList (Stmt.toDocs p.body))]

/-- A program on one line. -/
def compactText (p : Program) : String := p.toDoc.compactText

/-- A program with one field or item a line. -/
def prettyText (p : Program) : String := p.toDoc.prettyText

end Program

end Treewalk
