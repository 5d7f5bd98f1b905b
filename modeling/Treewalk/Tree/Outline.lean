import Treewalk.Number.Styles
import Treewalk.Text.Quoted
import Treewalk.Tree.Node

/-!
# Outlines of trees

The form in which a program is shown to people: every part by its name, one to a line, with four
spaces for every level.

## Main definitions

* `Outline` — nested named parts.
* `Outline.lines` — the layout of an outline.
* `Expr.outline`, `Stmt.outline`, `Program.outline` — outlines of trees.
-/

namespace Treewalk

/-- Nested named parts. -/
inductive Outline where
  | atom (text : String)
  | record (name : String) (fields : List (String × Outline))
  | wrap (name : String) (items : List Outline)
  | list (items : List Outline)

namespace Outline

/-- A line break and four spaces for every level, in front of a text. -/
def newline (level : Nat) (rest : List Char) : List Char :=
  '\n' :: (List.replicate (4 * level) ' ' ++ rest)

mutual

/-- An outline in front of a text.  Each part stands on a line of its own and ends in a comma. -/
def lines (level : Nat) : Outline → List Char → List Char
  | .atom text, rest => text.toList ++ rest
  | .record name fields, rest =>
    name.toList ++ ' ' :: '\x7b' ::
      fieldLines (level + 1) fields (newline level ('\x7d' :: rest))
  | .wrap name items, rest =>
    name.toList ++ '(' :: itemLines (level + 1) items (newline level (')' :: rest))
  | .list [], rest => '[' :: ']' :: rest
  | .list (item :: items), rest =>
    '[' :: newline (level + 1) (item.lines (level + 1)
      (',' :: itemLines (level + 1) items (newline level (']' :: rest))))

/-- Items, each on its own line. -/
def itemLines (level : Nat) : List Outline → List Char → List Char
  | [], rest => rest
  | item :: items, rest => newline level (item.lines level (',' :: itemLines level items rest))

/-- Named fields, each on its own line. -/
def fieldLines (level : Nat) : List (String × Outline) → List Char → List Char
  | [], rest => rest
  | (name, field) :: fields, rest =>
    newline level (name.toList ++ ':' :: ' ' ::
      field.lines level (',' :: fieldLines level fields rest))

end

/-- The text of an outline. -/
def text (o : Outline) : String := String.ofList (o.lines 0 [])

/-- The outline of a flag. -/
def flag (b : Bool) : Outline := .atom (if b then "true" else "false")

/-- The outline of a string. -/
def quoted (s : String) : Outline := .atom (Text.quoted s)

/-- The outline of a number of 64 bits. -/
def word (w : UInt64) : Outline := .atom (decimal w.toNat)

/-- The outline of a part that may be missing. -/
def option : Option Outline → Outline
  | none => .atom "None"
  | some o => .wrap "Some" [o]

/-- The outline of a node: its kind around its record. -/
def node (kind : String) (fields : List (String × Outline)) : Outline :=
  .wrap kind [.record kind fields]

end Outline

/-- The outline of a location. -/
def Location.outline (l : Location) : Outline :=
  .record "Location" [("file", .quoted l.file), ("line", .word l.line), ("column", .word l.column)]

/-- The outline of the value of a literal. -/
def LiteralValue.outline : LiteralValue → Outline
  | .null => .atom "Null"
  | .bool b => .wrap "Bool" [.flag b]
  | .number x => .wrap "Number" [.atom (NumberStyle.outline.text x)]
  | .text s => .wrap "String" [.quoted s]

/-- The fields of a literal. -/
def Literal.outlineFields (l : Literal) : List (String × Outline) :=
  [("value", l.value.outline), ("raw", .quoted l.raw), ("location", l.location.outline)]

/-- The fields of an identifier. -/
def Identifier.outlineFields (i : Identifier) : List (String × Outline) :=
  [("name", .quoted i.name), ("location", i.location.outline)]

/-- The outline of an identifier. -/
def Identifier.outline (i : Identifier) : Outline := .record "Identifier" i.outlineFields

/-- The outline of a kind of property. -/
def PropertyKind.outline : PropertyKind → Outline
  | .init => .atom "Init"
  | .getter => .atom "Get"
  | .setter => .atom "Set"

/-- The outline of a keyword of a declaration. -/
def DeclarationKind.outline : DeclarationKind → Outline
  | .varKind => .atom "Var"
  | .letKind => .atom "Let"
  | .constKind => .atom "Const"

mutual

/-- The outline of an expression. -/
def Expr.outline : Expr → Outline
  | .identifier id => .node "Identifier" id.outlineFields
  | .literal node => .node "Literal" node.outlineFields
  | .chain inner location =>
    .node "ChainExpression"
      [("expression", inner.outline), ("location", location.outline)]
  | .member object property computed optional location =>
    .node "MemberExpression"
      [("object", object.outline), ("property", property.outline), ("computed", .flag computed),
       ("optional", .flag optional), ("location", location.outline)]
  | .assignment left right location =>
    .node "AssignmentExpression"
      [("left", left.outline), ("right", right.outline), ("location", location.outline)]
  | .array elements location =>
    .node "ArrayExpression"
      [("elements", .list (Expr.outlines elements)), ("location", location.outline)]
  | .object properties location =>
    .node "ObjectExpression"
      [("properties", .list (Property.outlines properties)), ("location", location.outline)]
  | .binary left operator right location =>
    .node "BinaryExpression"
      [("left", left.outline), ("operator", .quoted operator), ("right", right.outline),
       ("location", location.outline)]
  | .call callee arguments location =>
    .node "CallExpression"
      [("callee", callee.outline), ("arguments", .list (Expr.outlines arguments)),
       ("location", location.outline)]

/-- The outline of an entry of an object literal. -/
def Property.outline : Property → Outline
  | ⟨kind, key, value, computed, shorthand, method⟩ =>
    .record "Property"
      [("kind", kind.outline), ("key", key.outline), ("value", value.outline),
       ("computed", .flag computed), ("shorthand", .flag shorthand), ("method", .flag method)]

/-- The outlines of expressions. -/
def Expr.outlines : List Expr → List Outline
  | [] => []
  | e :: es => e.outline :: Expr.outlines es

/-- The outlines of the entries of an object literal. -/
def Property.outlines : List Property → List Outline
  | [] => []
  | p :: ps => p.outline :: Property.outlines ps

end

/-- The outline of a parameter. -/
def Parameter.outline (p : Parameter) : Outline :=
  .record "FunctionArgument"
    [("id", p.id.outline), ("default", .option (p.default.map Expr.outline))]

/-- The outline of a declared variable. -/
def Declarator.outline (d : Declarator) : Outline :=
  .record "VariableDeclarator"
    [("id", d.id.outline), ("init", .option (d.init.map Expr.outline))]

/-- The fields of a block, given the outlines of its statements. -/
def blockOutlineFields (body : List Outline) (location : Location) : List (String × Outline) :=
  [("body", .list body), ("location", location.outline)]

mutual

/-- The outline of a statement. -/
def Stmt.outline : Stmt → Outline
  | .empty location =>
    .node "EmptyStatement" [("location", location.outline)]
  | .debugger location =>
    .node "DebuggerStatement" [("location", location.outline)]
  | .ifElse test consequent alternate location =>
    .node "IfStatement"
      [("test", test.outline), ("consequent", consequent.outline),
       ("alternate", .option (Stmt.optionalOutline alternate)), ("location", location.outline)]
  | .whileLoop test body location =>
    .node "WhileStatement"
      [("test", test.outline), ("body", body.outline), ("location", location.outline)]
  | .block body location =>
    .node "BlockStatement" (blockOutlineFields (Stmt.outlines body) location)
  | .expression value location =>
    .node "ExpressionStatement"
      [("expression", value.outline), ("location", location.outline)]
  | .function id isAsync generator params body bodyLocation location =>
    .node "FunctionDeclarationStatement"
      [("id", id.outline), ("is_async", .flag isAsync), ("generator", .flag generator),
       ("params", .list (params.map Parameter.outline)),
       ("body",
        .record "BlockStatement" (blockOutlineFields (Stmt.outlines body) bodyLocation)),
       ("location", location.outline)]
  | .declaration kind declarations location =>
    .node "VariableDeclarationStatement"
      [("kind", kind.outline), ("declarations", .list (declarations.map Declarator.outline)),
       ("location", location.outline)]
  | .array children location =>
    .node "ArrayStatement"
      [("children", .list (children.map Expr.outline)), ("location", location.outline)]
  | .ret argument location =>
    .node "ReturnStatement"
      [("argument", .option (argument.map Expr.outline)), ("location", location.outline)]

/-- The outlines of statements. -/
def Stmt.outlines : List Stmt → List Outline
  | [] => []
  | s :: ss => s.outline :: Stmt.outlines ss

/-- The outline of a statement that may be missing. -/
def Stmt.optionalOutline : Option Stmt → Option Outline
  | none => none
  | some s => some s.outline

end

/-- The outline of a program. -/
def Program.outline (p : Program) : Outline :=
  .record "Program" [("body", .list (Stmt.outlines p.body))]

end Treewalk
