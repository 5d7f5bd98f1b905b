import Treewalk.Tree.Node

/-!
# How trees are laid out in documents

A tree is written as nested records.  This module describes them as data: `Item` names what can
stand in a place of a document and `Item.Carrier` is the type of its values; `Record.fields` lists
the fields of each kind of record in their order, and `Filled.build` makes the value of a record
from the values of its fields.  A statement or an expression is a record with a tag, and
`Family.variants` lists the tags.

The reader in `Treewalk.Tree.Decode` works for all records alike, from these tables.

## Main definitions

* `Item`, `Record`, `Family`, `Choice` — what can stand in a place.
* `Field`, `Record.fields`, `Filled`, `Filled.build` — records.
* `Variant`, `Family.variants` — tagged records.
-/

namespace Treewalk

/-- The two families of tagged nodes. -/
inductive Family where
  | statement
  | expression
  deriving DecidableEq, Repr

/-- The enumerations that are written by name. -/
inductive Choice where
  | declarationKind
  | propertyKind
  deriving DecidableEq, Repr

/-- The records.  The ones named for a statement or an expression hold the fields of a node of that
kind. -/
inductive Record where
  | program
  | scopeBlock
  | block
  | location
  | identifier
  | literal
  | parameter
  | declarator
  | property
  | emptyStatement
  | debuggerStatement
  | ifStatement
  | whileStatement
  | expressionStatement
  | functionDeclaration
  | variableDeclaration
  | arrayStatement
  | returnStatement
  | chainExpression
  | memberExpression
  | assignmentExpression
  | arrayExpression
  | objectExpression
  | binaryExpression
  | callExpression
  deriving DecidableEq, Repr

/-- What can stand in a place of a document. -/
inductive Item where
  | text
  | flag
  /-- A natural number of 64 bits. -/
  | word
  | literalValue
  | choice (c : Choice)
  | record (r : Record)
  | node (f : Family)
  | list (i : Item)
  deriving DecidableEq, Repr

/-- The nodes of a family. -/
def Family.Carrier : Family → Type
  | .statement => Stmt
  | .expression => Expr

/-- The members of an enumeration. -/
def Choice.Carrier : Choice → Type
  | .declarationKind => DeclarationKind
  | .propertyKind => PropertyKind

/-- The values of a record. -/
def Record.Carrier : Record → Type
  | .program => Program
  | .scopeBlock => ScopeBlock
  | .block => Block
  | .location => Location
  | .identifier => Identifier
  | .literal => Literal
  | .parameter => Parameter
  | .declarator => Declarator
  | .property => Property
  | .emptyStatement | .debuggerStatement | .ifStatement | .whileStatement | .expressionStatement
  | .functionDeclaration | .variableDeclaration | .arrayStatement | .returnStatement => Stmt
  | .chainExpression | .memberExpression | .assignmentExpression | .arrayExpression
  | .objectExpression | .binaryExpression | .callExpression => Expr

/-- The values that can stand in a place. -/
def Item.Carrier : Item → Type
  | .text => String
  | .flag => Bool
  | .word => UInt64
  | .literalValue => LiteralValue
  | .choice c => c.Carrier
  | .record r => r.Carrier
  | .node f => f.Carrier
  | .list i => List i.Carrier

/-- A place in a record: an item, or an item that may be null. -/
inductive Shape where
  | plain (i : Item)
  | optional (i : Item)
  deriving DecidableEq, Repr

/-- The values of a place in a record. -/
def Shape.Carrier : Shape → Type
  | .plain i => i.Carrier
  | .optional i => Option i.Carrier

/-- A field of a record.  A field with a fallback may be left out. -/
structure Field where
  name : String
  aliases : List String := []
  shape : Shape
  fallback : Option shape.Carrier := none

namespace Field

/-- A field that has to be given. -/
def required (name : String) (i : Item) (aliases : List String := []) : Field :=
  { name, aliases, shape := .plain i }

/-- A field that may be null or left out. -/
def optional (name : String) (i : Item) (aliases : List String := []) : Field :=
  { name, aliases, shape := .optional i, fallback := some none }

/-- A flag that is off if it is left out. -/
def flag (name : String) : Field :=
  { name, shape := .plain .flag, fallback := some false }

/-- The location of a node. -/
def location : Field :=
  { name := "location", shape := .plain (.record .location), fallback := some ({} : Location) }

/-- Whether a key stands for the field. -/
def answersTo (f : Field) (key : String) : Bool := key == f.name || f.aliases.contains key

end Field

namespace Record

/-- The name of a record in diagnostics. -/
def name : Record → String
  | .program => "Program"
  | .scopeBlock => "ScopeBlock"
  | .block => "BlockStatement"
  | .location => "Location"
  | .identifier => "Identifier"
  | .literal => "Literal"
  | .parameter => "FunctionArgument"
  | .declarator => "VariableDeclarator"
  | .property => "Property"
  | .emptyStatement => "EmptyStatement"
  | .debuggerStatement => "DebuggerStatement"
  | .ifStatement => "IfStatement"
  | .whileStatement => "WhileStatement"
  | .expressionStatement => "ExpressionStatement"
  | .functionDeclaration => "FunctionDeclarationStatement"
  | .variableDeclaration => "VariableDeclarationStatement"
  | .arrayStatement => "ArrayStatement"
  | .returnStatement => "ReturnStatement"
  | .chainExpression => "ChainExpression"
  | .memberExpression => "MemberExpression"
  | .assignmentExpression => "AssignmentExpression"
  | .arrayExpression => "ArrayExpression"
  | .objectExpression => "ObjectExpression"
  | .binaryExpression => "BinaryExpression"
  | .callExpression => "CallExpression"

/-- The fields of a record in their order. -/
def fields : Record → List Field
  | .program | .scopeBlock => [.required "body" (.list (.node .statement))]
  | .block => [.required "body" (.list (.node .statement)), .location]
  | .location => [.required "file" .text, .required "line" .word, .required "column" .word]
  | .identifier => [.required "name" .text, .location]
  | .literal =>
    [.required "value" .literalValue,
     { name := "raw", shape := .plain .text, fallback := some "" },
     .location]
  | .parameter =>
    [.required "id" (.record .identifier), .optional "default" (.node .expression) ["value"]]
  | .declarator =>
    [.required "id" (.record .identifier), .optional "init" (.node .expression)]
  | .property =>
    [{ name := "kind", shape := .plain (.choice .propertyKind),
       fallback := some PropertyKind.init },
     .required "key" (.node .expression),
     .required "value" (.node .expression),
     .flag "computed", .flag "shorthand", .flag "method"]
  | .emptyStatement | .debuggerStatement => [.location]
  | .ifStatement =>
    [.required "test" (.node .expression),
     .required "consequent" (.node .statement) ["body"],
     .optional "alternate" (.node .statement),
     .location]
  | .whileStatement =>
    [.required "test" (.node .expression), .required "body" (.node .statement), .location]
  | .expressionStatement => [.required "expression" (.node .expression), .location]
  | .functionDeclaration =>
    [.required "id" (.record .identifier),
     .flag "async", .flag "generator",
     .required "params" (.list (.record .parameter)) ["args"],
     .required "body" (.record .block),
     .location]
  | .variableDeclaration =>
    [{ name := "kind", shape := .plain (.choice .declarationKind),
       fallback := some DeclarationKind.letKind },
     .required "declarations" (.list (.record .declarator)),
     .location]
  | .arrayStatement => [.required "children" (.list (.node .expression)), .location]
  | .returnStatement => [.optional "argument" (.node .expression), .location]
  | .chainExpression => [.required "expression" (.node .expression), .location]
  | .memberExpression =>
    [.required "object" (.node .expression), .required "property" (.node .expression),
     .flag "computed", .flag "optional", .location]
  | .assignmentExpression =>
    [.required "left" (.node .expression), .required "right" (.node .expression), .location]
  | .arrayExpression => [.required "elements" (.list (.node .expression)), .location]
  | .objectExpression => [.required "properties" (.list (.record .property)), .location]
  | .binaryExpression =>
    [.required "left" (.node .expression), .required "operator" .text,
     .required "right" (.node .expression), .location]
  | .callExpression =>
    [.required "callee" (.node .expression),
     .required "arguments" (.list (.node .expression)) ["args"], .location]

end Record

/-- One value for every field. -/
def Filled : List Field → Type
  | [] => Unit
  | f :: fs => f.shape.Carrier × Filled fs

/-- The value of a record from the values of its fields. -/
def Filled.build : (r : Record) → Filled r.fields → r.Carrier
  | .program, (body, ()) => Program.mk body
  | .scopeBlock, (body, ()) => ScopeBlock.mk body
  | .block, (body, location, ()) => Block.mk body location
  | .location, (file, line, column, ()) => Location.mk file line column
  | .identifier, (name, location, ()) => Identifier.mk name location
  | .literal, (value, raw, location, ()) => Literal.mk value raw location
  | .parameter, (id, default, ()) => Parameter.mk id default
  | .declarator, (id, init, ()) => Declarator.mk id init
  | .property, (kind, key, value, computed, shorthand, method, ()) =>
    Property.mk kind key value computed shorthand method
  | .emptyStatement, (location, ()) => Stmt.empty location
  | .debuggerStatement, (location, ()) => Stmt.debugger location
  | .ifStatement, (test, consequent, alternate, location, ()) =>
    Stmt.ifElse test consequent alternate location
  | .whileStatement, (test, body, location, ()) => Stmt.whileLoop test body location
  | .expressionStatement, (expression, location, ()) => Stmt.expression expression location
  | .functionDeclaration, (id, isAsync, generator, params, body, location, ()) =>
    let block : Block := body
    Stmt.function id isAsync generator params block.body block.location location
  | .variableDeclaration, (kind, declarations, location, ()) =>
    Stmt.declaration kind declarations location
  | .arrayStatement, (children, location, ()) => Stmt.array children location
  | .returnStatement, (argument, location, ()) => Stmt.ret argument location
  | .chainExpression, (expression, location, ()) => Expr.chain expression location
  | .memberExpression, (object, property, computed, optional, location, ()) =>
    Expr.member object property computed optional location
  | .assignmentExpression, (left, right, location, ()) => Expr.assignment left right location
  | .arrayExpression, (elements, location, ()) => Expr.array elements location
  | .objectExpression, (properties, location, ()) => Expr.object properties location
  | .binaryExpression, (left, operator, right, location, ()) =>
    Expr.binary left operator right location
  | .callExpression, (callee, arguments, location, ()) => Expr.call callee arguments location

/-- A kind of tagged node: its tags, and the record that holds its fields. -/
structure Variant (f : Family) where
  tags : List String
  record : Record
  wrap : record.Carrier → f.Carrier

namespace Family

/-- The name of a family in diagnostics. -/
def name : Family → String
  | .statement => "Stmt"
  | .expression => "Expr"

/-- The kinds of nodes in a family, in their order. -/
def variants : (f : Family) → List (Variant f)
  | .statement =>
    [⟨["EmptyStatement"], .emptyStatement, fun s => s⟩,
     ⟨["DebuggerStatement"], .debuggerStatement, fun s => s⟩,
     ⟨["IfStatement"], .ifStatement, fun s => s⟩,
     ⟨["WhileStatement"], .whileStatement, fun s => s⟩,
     ⟨["BlockStatement"], .block, fun b : Block => Stmt.block b.body b.location⟩,
     ⟨["ExpressionStatement"], .expressionStatement, fun s => s⟩,
     ⟨["FunctionDeclaration", "FunctionDeclarationStatement"], .functionDeclaration, fun s => s⟩,
     ⟨["VariableDeclaration", "VariableDeclarationStatement"], .variableDeclaration, fun s => s⟩,
     ⟨["ArrayStatement"], .arrayStatement, fun s => s⟩,
     ⟨["ReturnStatement"], .returnStatement, fun s => s⟩]
  | .expression =>
    [⟨["Identifier"], .identifier, fun i : Identifier => Expr.identifier i⟩,
     ⟨["Literal"], .literal, fun l : Literal => Expr.literal l⟩,
     ⟨["ChainExpression"], .chainExpression, fun e => e⟩,
     ⟨["MemberExpression"], .memberExpression, fun e => e⟩,
     ⟨["AssignmentExpression"], .assignmentExpression, fun e => e⟩,
     ⟨["ArrayExpression"], .arrayExpression, fun e => e⟩,
     ⟨["ObjectExpression"], .objectExpression, fun e => e⟩,
     ⟨["BinaryExpression"], .binaryExpression, fun e => e⟩,
     ⟨["CallExpression"], .callExpression, fun e => e⟩]

/-- All tags of a family, in the order of its kinds. -/
def tags (f : Family) : List String := f.variants.flatMap Variant.tags

/-- The kind of node with a given tag. -/
def variant? (f : Family) (tag : String) : Option (Variant f) :=
  f.variants.find? fun v => v.tags.contains tag

end Family

namespace Choice

/-- The members of an enumeration with their names. -/
def members : (c : Choice) → List (String × c.Carrier)
  | .declarationKind =>
    [("var", DeclarationKind.varKind), ("let", DeclarationKind.letKind),
     ("const", DeclarationKind.constKind)]
  | .propertyKind =>
    [("init", PropertyKind.init), ("get", PropertyKind.getter), ("set", PropertyKind.setter)]

/-- The names of the members of an enumeration. -/
def names (c : Choice) : List String := c.members.map Prod.fst

end Choice

end Treewalk
