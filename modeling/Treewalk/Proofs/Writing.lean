import Treewalk.Proofs.Members
import Treewalk.Proofs.Spelling
import Treewalk.Proofs.Written
import Treewalk.Tree.Encode

/-!
# The writer follows the layout

The reader works from tables of the fields of each record.  The writer is defined tree by tree, and
yet it writes what the tables say: the fields of each record in their order and under their names,
each in the way of its place, and before them a tag if the record is that of a node.  So a bound on
what is written for the fields is a bound on what is written for the whole.  The literals of a tree
are those of its fields likewise.

## Main definitions

* `Shape.toDoc`, `Shape.literals` — what is written in a place, and the literals in it.
* `Filled.members`, `Filled.literals` — the same of the fields of a record.
* `Record.wrote_build`, `Variant.wrote_wrap` — documents of records and of nodes.
* `Record.literals_build`, `Variant.literals_wrap` — literals of records and of nodes.
-/

namespace Treewalk

open Json (Doc)

/-! ## Documents -/

/-- The document of a member of an enumeration. -/
def Choice.toDoc : (c : Choice) → c.Carrier → Doc
  | .declarationKind => DeclarationKind.toDoc
  | .propertyKind => PropertyKind.toDoc

/-- The document of a record. -/
def Record.toDoc : (r : Record) → r.Carrier → Doc
  | .program => Program.toDoc
  | .scopeBlock => ScopeBlock.toDoc
  | .block => Block.toDoc
  | .location => Location.toDoc
  | .identifier => Identifier.toDoc
  | .literal => Literal.toDoc
  | .parameter => Parameter.toDoc
  | .declarator => Declarator.toDoc
  | .property => Property.toDoc
  | .emptyStatement | .debuggerStatement | .ifStatement | .whileStatement | .expressionStatement
  | .functionDeclaration | .variableDeclaration | .arrayStatement | .returnStatement => Stmt.toDoc
  | .chainExpression | .memberExpression | .assignmentExpression | .arrayExpression
  | .objectExpression | .binaryExpression | .callExpression => Expr.toDoc

/-- The document of a node. -/
def Family.toDoc : (f : Family) → f.Carrier → Doc
  | .statement => Stmt.toDoc
  | .expression => Expr.toDoc

/-- The document of an item. -/
def Item.toDoc : (i : Item) → i.Carrier → Doc
  | .text => Doc.ofString
  | .flag => Doc.boolean
  | .word => fun w : UInt64 => .ofNat w.toNat
  | .literalValue => LiteralValue.toDoc
  | .choice c => c.toDoc
  | .record r => r.toDoc
  | .node f => f.toDoc
  | .list i => fun xs => .ofList (xs.map i.toDoc)

/-- What is written in a place of a record. -/
def Shape.toDoc : (s : Shape) → s.Carrier → Doc
  | .plain i => i.toDoc
  | .optional i => fun x => (x.map i.toDoc).getD .null

/-- The members that are written for the fields of a record. -/
def Filled.members : (fs : List Field) → Filled fs → List (String × Doc)
  | [], _ => []
  | f :: fs, (x, xs) => (f.name, f.shape.toDoc x) :: members fs xs

theorem Expr.toDocs_eq_map (es : List Expr) : Expr.toDocs es = es.map Expr.toDoc := by
  induction es with
  | nil => rfl
  | cons e es ih => rw [Expr.toDocs, ih, List.map_cons]

theorem Property.toDocs_eq_map (ps : List Property) :
    Property.toDocs ps = ps.map Property.toDoc := by
  induction ps with
  | nil => rfl
  | cons p ps ih => rw [Property.toDocs, ih, List.map_cons]

theorem Stmt.toDocs_eq_map (ss : List Stmt) : Stmt.toDocs ss = ss.map Stmt.toDoc := by
  induction ss with
  | nil => rfl
  | cons s ss ih => rw [Stmt.toDocs, ih, List.map_cons]

theorem optionalExprDoc_eq (e : Option Expr) :
    optionalExprDoc e = (e.map Expr.toDoc).getD .null := by
  cases e <;> rfl

theorem Stmt.optionalDoc_eq (s : Option Stmt) :
    Stmt.optionalDoc s = (s.map Stmt.toDoc).getD .null := by
  cases s <;> rfl

/-- A document that has some members, and a tag before them if it is that of a node. -/
inductive Wrote (ms : List (String × Doc)) : Doc → Prop where
  | plain : Wrote ms (.ofMembers ms)
  | tagged (tag : String) : Wrote ms (tagged tag ms)

theorem ScopeBlock.wrote (body : List Stmt) :
    Wrote [("body", .ofList (body.map Stmt.toDoc))] (ScopeBlock.mk body).toDoc := by
  rw [← Stmt.toDocs_eq_map]
  exact .plain

theorem Block.wrote (body : List Stmt) (location : Location) :
    Wrote (blockMembers (body.map Stmt.toDoc) location) (Block.mk body location).toDoc := by
  rw [← Stmt.toDocs_eq_map]
  exact .plain

theorem Stmt.wrote_block (body : List Stmt) (location : Location) :
    Wrote (blockMembers (body.map Stmt.toDoc) location) (Stmt.block body location).toDoc := by
  rw [← Stmt.toDocs_eq_map]
  exact .tagged _

theorem Parameter.wrote (id : Identifier) (default : Option Expr) :
    Wrote [("id", id.toDoc), ("default", (default.map Expr.toDoc).getD .null)]
      (Parameter.mk id default).toDoc := by
  rw [← optionalExprDoc_eq]
  exact .plain

theorem Declarator.wrote (id : Identifier) (init : Option Expr) :
    Wrote [("id", id.toDoc), ("init", (init.map Expr.toDoc).getD .null)]
      (Declarator.mk id init).toDoc := by
  rw [← optionalExprDoc_eq]
  exact .plain

theorem Stmt.wrote_ifElse (test : Expr) (consequent : Stmt) (alternate : Option Stmt)
    (location : Location) :
    Wrote [("test", test.toDoc), ("consequent", consequent.toDoc),
        ("alternate", (alternate.map Stmt.toDoc).getD .null), ("location", location.toDoc)]
      (Stmt.ifElse test consequent alternate location).toDoc := by
  rw [← Stmt.optionalDoc_eq, Stmt.toDoc]
  exact .tagged _

theorem Stmt.wrote_ret (argument : Option Expr) (location : Location) :
    Wrote [("argument", (argument.map Expr.toDoc).getD .null), ("location", location.toDoc)]
      (Stmt.ret argument location).toDoc := by
  rw [← optionalExprDoc_eq]
  exact .tagged _

theorem Expr.wrote_array (elements : List Expr) (location : Location) :
    Wrote [("elements", .ofList (elements.map Expr.toDoc)), ("location", location.toDoc)]
      (Expr.array elements location).toDoc := by
  rw [← Expr.toDocs_eq_map]
  exact .tagged _

theorem Expr.wrote_object (properties : List Property) (location : Location) :
    Wrote [("properties", .ofList (properties.map Property.toDoc)), ("location", location.toDoc)]
      (Expr.object properties location).toDoc := by
  rw [← Property.toDocs_eq_map]
  exact .tagged _

theorem Expr.wrote_call (callee : Expr) (arguments : List Expr) (location : Location) :
    Wrote [("callee", callee.toDoc), ("arguments", .ofList (arguments.map Expr.toDoc)),
        ("location", location.toDoc)]
      (Expr.call callee arguments location).toDoc := by
  rw [← Expr.toDocs_eq_map, Expr.toDoc]
  exact .tagged _

/-- The document of a record has the members that are written for its fields. -/
theorem Record.wrote_build (r : Record) (xs : Filled r.fields) :
    Wrote (xs.members r.fields) (r.toDoc (xs.build r)) := by
  cases r with
  | location | identifier | literal | property => exact .plain
  | emptyStatement | debuggerStatement | whileStatement | expressionStatement
  | functionDeclaration | variableDeclaration | arrayStatement | chainExpression
  | memberExpression | assignmentExpression | binaryExpression => exact .tagged _
  | program | scopeBlock => exact ScopeBlock.wrote xs.1
  | block => exact Block.wrote xs.1 xs.2.1
  | parameter => exact Parameter.wrote xs.1 xs.2.1
  | declarator => exact Declarator.wrote xs.1 xs.2.1
  | ifStatement => exact Stmt.wrote_ifElse xs.1 xs.2.1 xs.2.2.1 xs.2.2.2.1
  | returnStatement => exact Stmt.wrote_ret xs.1 xs.2.1
  | arrayExpression => exact Expr.wrote_array xs.1 xs.2.1
  | objectExpression => exact Expr.wrote_object xs.1 xs.2.1
  | callExpression => exact Expr.wrote_call xs.1 xs.2.1 xs.2.2.1

/-- The document of a node has the members that are written for the fields of its record. -/
theorem Variant.wrote_wrap {f : Family} {v : Variant f} (hv : v ∈ f.variants)
    (xs : Filled v.record.fields) :
    Wrote (xs.members v.record.fields) (f.toDoc (v.wrap (xs.build v.record))) := by
  cases f with
  | statement =>
    simp only [Family.variants, List.mem_cons, List.not_mem_nil, or_false] at hv
    rcases hv with rfl | rfl | rfl | rfl | rfl | rfl | rfl | rfl | rfl | rfl <;>
      first
      | exact Record.wrote_build _ xs
      | exact Stmt.wrote_block xs.1 xs.2.1
  | expression =>
    simp only [Family.variants, List.mem_cons, List.not_mem_nil, or_false] at hv
    rcases hv with rfl | rfl | rfl | rfl | rfl | rfl | rfl | rfl | rfl <;>
      first
      | exact Record.wrote_build _ xs
      | exact .tagged _

/-- What is written for the fields bounds how deep the whole nests. -/
theorem Wrote.depth_le {ms : List (String × Doc)} {d : Doc} (h : Wrote ms d) {n : Nat}
    (hms : ∀ m ∈ ms, m.2.depth ≤ n) : d.depth ≤ n + 1 := by
  have hkeyed : ∀ m ∈ Doc.keyed ms, m.2.depth ≤ n := by
    intro m hm
    obtain ⟨m', hm', rfl⟩ := List.mem_map.mp hm
    exact hms m' hm'
  cases h with
  | plain =>
    rw [Doc.ofMembers_eq]
    exact Doc.depth_object_le_iff.mpr hkeyed
  | tagged tag =>
    rw [Treewalk.tagged, Doc.ofMembers_eq, Doc.keyed_cons]
    exact Doc.depth_object_le_iff.mpr (List.forall_mem_cons.mpr ⟨Nat.zero_le _, hkeyed⟩)

/-! ## Literals -/

/-- The literals of a record. -/
def Record.literals : (r : Record) → r.Carrier → List LiteralValue
  | .program => fun p : Program => Stmt.allLiterals p.body
  | .scopeBlock => fun b : ScopeBlock => Stmt.allLiterals b.body
  | .block => fun b : Block => Stmt.allLiterals b.body
  | .location | .identifier => fun _ => []
  | .literal => fun l : Literal => [l.value]
  | .parameter => Parameter.literals
  | .declarator => Declarator.literals
  | .property => Property.literals
  | .emptyStatement | .debuggerStatement | .ifStatement | .whileStatement | .expressionStatement
  | .functionDeclaration | .variableDeclaration | .arrayStatement | .returnStatement =>
    Stmt.literals
  | .chainExpression | .memberExpression | .assignmentExpression | .arrayExpression
  | .objectExpression | .binaryExpression | .callExpression => Expr.literals

/-- The literals of a node. -/
def Family.literals : (f : Family) → f.Carrier → List LiteralValue
  | .statement => Stmt.literals
  | .expression => Expr.literals

/-- The literals of an item. -/
def Item.literals : (i : Item) → i.Carrier → List LiteralValue
  | .text | .flag | .word | .choice _ => fun _ => []
  | .literalValue => fun v => [v]
  | .record r => r.literals
  | .node f => f.literals
  | .list i => fun xs => xs.flatMap i.literals

/-- The literals in a place of a record. -/
def Shape.literals : (s : Shape) → s.Carrier → List LiteralValue
  | .plain i => i.literals
  | .optional i => fun x => x.elim [] i.literals

/-- The literals of the fields of a record. -/
def Filled.literals : (fs : List Field) → Filled fs → List LiteralValue
  | [], _ => []
  | f :: fs, (x, xs) => f.shape.literals x ++ literals fs xs

theorem Expr.allLiterals_eq_flatMap (es : List Expr) :
    Expr.allLiterals es = es.flatMap Expr.literals := by
  induction es with
  | nil => rfl
  | cons e es ih => rw [Expr.allLiterals, ih, List.flatMap_cons]

theorem Property.allLiterals_eq_flatMap (ps : List Property) :
    Property.allLiterals ps = ps.flatMap Property.literals := by
  induction ps with
  | nil => rfl
  | cons p ps ih => rw [Property.allLiterals, ih, List.flatMap_cons]

theorem Stmt.allLiterals_eq_flatMap (ss : List Stmt) :
    Stmt.allLiterals ss = ss.flatMap Stmt.literals := by
  induction ss with
  | nil => rfl
  | cons s ss ih => rw [Stmt.allLiterals, ih, List.flatMap_cons]

theorem optionalExprLiterals_eq (e : Option Expr) :
    optionalExprLiterals e = e.elim [] Expr.literals := by
  cases e <;> rfl

theorem Stmt.optionalLiterals_eq (s : Option Stmt) :
    Stmt.optionalLiterals s = s.elim [] Stmt.literals := by
  cases s <;> rfl

theorem Stmt.literals_ifElse (test : Expr) (consequent : Stmt) (alternate : Option Stmt)
    (location : Location) :
    (Stmt.ifElse test consequent alternate location).literals =
      test.literals ++ (consequent.literals ++ alternate.elim [] Stmt.literals) := by
  rw [Stmt.literals, Stmt.optionalLiterals_eq]

theorem Expr.literals_call (callee : Expr) (arguments : List Expr) (location : Location) :
    (Expr.call callee arguments location).literals =
      callee.literals ++ arguments.flatMap Expr.literals := by
  rw [Expr.literals, Expr.allLiterals_eq_flatMap]

/-- There are no literals after those of the last field that has some. -/
private theorem append_of_last (vs ws : List LiteralValue) : vs ++ ws = vs ++ (ws ++ []) := by
  rw [List.append_nil]

/-- The literals of a record are those of its fields. -/
theorem Record.literals_build (r : Record) (xs : Filled r.fields) :
    r.literals (xs.build r) = xs.literals r.fields := by
  cases r with
  | location | identifier | literal | emptyStatement | debuggerStatement => rfl
  | expressionStatement | variableDeclaration | arrayStatement | chainExpression =>
    exact (List.append_nil _).symm
  | property | whileStatement | functionDeclaration | memberExpression | assignmentExpression
  | binaryExpression => exact append_of_last _ _
  | program | scopeBlock | block =>
    exact (Stmt.allLiterals_eq_flatMap xs.1).trans (List.append_nil _).symm
  | parameter | declarator => exact (optionalExprLiterals_eq xs.2.1).trans (List.append_nil _).symm
  | ifStatement =>
    exact (Stmt.literals_ifElse xs.1 xs.2.1 xs.2.2.1 xs.2.2.2.1).trans
      (congrArg (Expr.literals xs.1 ++ ·) (append_of_last _ _))
  | returnStatement => exact (optionalExprLiterals_eq xs.1).trans (List.append_nil _).symm
  | arrayExpression => exact (Expr.allLiterals_eq_flatMap xs.1).trans (List.append_nil _).symm
  | objectExpression => exact (Property.allLiterals_eq_flatMap xs.1).trans (List.append_nil _).symm
  | callExpression =>
    exact (Expr.literals_call xs.1 xs.2.1 xs.2.2.1).trans (append_of_last _ _)

/-- The literals of a node are those of the fields of its record. -/
theorem Variant.literals_wrap {f : Family} {v : Variant f} (hv : v ∈ f.variants)
    (xs : Filled v.record.fields) :
    f.literals (v.wrap (xs.build v.record)) = xs.literals v.record.fields := by
  cases f with
  | statement =>
    simp only [Family.variants, List.mem_cons, List.not_mem_nil, or_false] at hv
    rcases hv with rfl | rfl | rfl | rfl | rfl | rfl | rfl | rfl | rfl | rfl <;>
      exact Record.literals_build _ xs
  | expression =>
    simp only [Family.variants, List.mem_cons, List.not_mem_nil, or_false] at hv
    rcases hv with rfl | rfl | rfl | rfl | rfl | rfl | rfl | rfl | rfl <;>
      exact Record.literals_build _ xs

/-! ## Fields that are left out -/

/-- What is written for a field that was left out nests one level at most and has no literals. -/
theorem Record.fallback_shallow (r : Record) : ∀ f ∈ r.fields, f.fallback.all (fun x =>
    decide ((f.shape.toDoc x).depth ≤ 1) && (f.shape.literals x).isEmpty) = true := by
  cases r <;> decide

end Treewalk
