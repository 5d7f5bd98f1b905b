import Treewalk.Proofs.Reading
import Treewalk.Proofs.Written

/-!
# The round trip of trees

A printed tree is read as it was written, from either of its two texts, if it does not nest too deep
for the reader; a tree that does is refused as a whole.

Numbers are printed and read by roundings of their own.  What is assumed of them is said number by
number in `ReadsBack`: the text of the number alone is read as the number.

## Main definitions

* `ReadsBack` — numbers whose texts are read as the numbers.
* `Expr.reads`, `Stmt.reads`, … — documents of trees are read as the trees.
* `NodeKind` — the types of trees.
* `decode_print` — the round trip.
-/

namespace Treewalk

open Json (Doc Spells)
open Numeral (Starts)

/-! ## Numbers -/

/-- The printed text of a number is read as that number. -/
def ReadsBack (x : Float) : Prop :=
  Item.literalValue.decode (numberDoc x).compactText.toList = .ok (.number x)

/-- The numbers of a tree that are printed as numbers are read back. -/
def NumbersReadBack (vs : List LiteralValue) : Prop :=
  EachNumber (fun x => Number.isFinite x = true → ReadsBack x) vs

theorem isFinite_eq (style : NumberStyle) (x : Float) :
    Number.isFinite x = (style.numeral? x).isSome := by
  rw [Number.isFinite, NumberStyle.numeral?]
  cases Binary64.ofFloat x <;> rfl

/-- A numeral with ill-formed digits before its point is no document. -/
theorem scan_of_not_whole {n : Numeral} (h : n.Decimal) (hwhole : Digits.isWhole n.whole = false) :
    Json.scan (n.chars true) = (.broken, none) := by
  have hstarts := Numeral.starts_of_mem_head h
  have hscan : Json.scanScalar? (n.chars true) = none := by
    have hnumeral := Json.scanNumeral?_chars h Numeral.stops_nil
    rw [List.append_nil, hwhole] at hnumeral
    rw [Json.scanScalar?_of_starts hstarts, hnumeral]
    rfl
  have hblank : Json.skipBlank (n.chars true) = n.chars true := by
    cases hcs : n.chars true with
    | nil => rfl
    | cons c cs => exact Json.skipBlank_cons (hstarts c (by simp [hcs])).not_space cs
  rw [Json.scan, Json.scanValue, hblank]
  split
  · next hcs => exact absurd (hstarts '[' (by simp [hcs])) (by decide)
  · next hcs => exact absurd (hstarts '{' (by simp [hcs])) (by decide)
  · rw [hscan]

theorem scan_numeral {n : Numeral} (h : n.Decimal) (hwhole : Digits.isWhole n.whole = true) :
    Json.scan (n.chars true) = (.number n, some []) := by
  have hleaf : (Doc.number n).Leaf := .number n h hwhole
  have hspells : Spells (.value (.number n)) ((Doc.number n).scalarChars []) [] :=
    .leaf hleaf Numeral.stops_nil (hleaf.skipBlank_eq [])
  rw [Doc.scalarChars, List.append_nil] at hspells
  exact Json.scan_of_spells hspells

/-- A number is read back exactly if its numeral is a proper one of the same value. -/
theorem readsBack_iff {x : Float} {n : Numeral} (hn : NumberStyle.document.numeral? x = some n) :
    ReadsBack x ↔
      Digits.isWhole n.whole = true ∧ n.quantity?.map Quantity.toFloat = some x := by
  have hdecimal := NumberStyle.decimal_of_numeral? hn
  have htext : (numberDoc x).compactText.toList = n.chars true := by
    simp [numberDoc, hn, Doc.compactText, Doc.compact, Doc.scalarChars]
  rw [ReadsBack, htext, Item.decode]
  cases hwhole : Digits.isWhole n.whole with
  | false =>
    rw [scan_of_not_whole hdecimal hwhole]
    constructor
    · intro h
      cases h
    · rintro ⟨h, -⟩
      cases h
  | true =>
    have hread : Item.literalValue.ofDoc (.number n) =
        Read.literalValue nestingLimit (.number n) := rfl
    rw [scan_numeral hdecimal hwhole]
    simp only [hread, Read.literalValue]
    cases n.quantity? with
    | none =>
      constructor
      · intro h
        cases h
      · rintro ⟨-, h⟩
        cases h
    | some q =>
      constructor
      · intro h
        exact ⟨trivial, congrArg some (LiteralValue.number.inj (Except.ok.inj h))⟩
      · rintro ⟨-, h⟩
        exact congrArg (fun x => Except.ok (LiteralValue.number x)) (Option.some.inj h)

/-! ## Documents of trees -/

theorem LiteralValue.reads (v : LiteralValue) (h : NumbersReadBack [v]) :
    Reads (.plain .literalValue) v.toDoc v.written := by
  cases v with
  | null => exact reads_leaf .null rfl fun _ _ _ _ => rfl
  | bool b => exact reads_leaf (.boolean b) rfl fun _ _ _ _ => rfl
  | text s => exact reads_leaf (.ofString s) rfl fun _ _ _ _ => rfl
  | number x =>
    have hfinite := isFinite_eq NumberStyle.document x
    cases hn : NumberStyle.document.numeral? x with
    | none =>
      rw [hn, Option.isSome_none] at hfinite
      rw [toDoc, written, numberDoc, hn, hfinite]
      exact reads_leaf .null rfl fun _ _ _ _ => rfl
    | some n =>
      rw [hn, Option.isSome_some] at hfinite
      obtain ⟨hwhole, hquantity⟩ := (readsBack_iff hn).mp (h x (by simp) hfinite)
      obtain ⟨q, hq, hvalue⟩ := Option.map_eq_some_iff.mp hquantity
      have hleaf : (Doc.number n).Leaf := .number n (NumberStyle.decimal_of_numeral? hn) hwhole
      rw [toDoc, written, numberDoc, hn, if_pos hfinite]
      refine reads_leaf hleaf ?_ fun room mode inner keptInner => ?_
      · rw [Doc.found?, hq]
        rfl
      · simp only [readLevel, Read.literalValue, hq, hvalue]
        rfl

theorem Location.reads (l : Location) : Reads (.plain (.record .location)) l.toDoc l :=
  reads_record .location
    (.cons (reads_text _) (.cons (reads_word _) (.cons (reads_word _) .nil)))

theorem Identifier.reads (i : Identifier) : Reads (.plain (.record .identifier)) i.toDoc i :=
  reads_record .identifier (.cons (reads_text _) (.cons i.location.reads .nil))

theorem Literal.fieldsRead (l : Literal) (h : NumbersReadBack [l.value]) :
    FieldsRead Record.literal.fields l.members (l.value.written, l.raw, l.location, ()) :=
  .cons (l.value.reads h) (.cons (reads_text _) (.cons l.location.reads .nil))

theorem Literal.reads (l : Literal) (h : NumbersReadBack [l.value]) :
    Reads (.plain (.record .literal)) l.toDoc l.written :=
  reads_record .literal (l.fieldsRead h)

theorem tagged_ne_null (tag : String) (ms : List (String × Doc)) : tagged tag ms ≠ .null := by
  simp [tagged, Doc.ofMembers]

theorem Expr.toDoc_ne_null (e : Expr) : e.toDoc ≠ .null := by
  cases e <;> exact tagged_ne_null _ _

mutual

theorem Expr.reads (e : Expr) (h : NumbersReadBack e.literals) :
    Reads (.plain (.node .expression)) e.toDoc e.written := by
  cases e with
  | identifier id =>
    exact reads_node .expression ⟨_, .identifier, _⟩ rfl
      (.cons (reads_text _) (.cons id.location.reads .nil))
  | literal node => exact reads_node .expression ⟨_, .literal, _⟩ rfl (node.fieldsRead h)
  | chain expression location =>
    exact reads_node .expression ⟨_, .chainExpression, fun e => e⟩ rfl
      (.cons (expression.reads h) (.cons location.reads .nil))
  | member object property computed optional location =>
    obtain ⟨ho, hp⟩ := eachNumber_append.mp h
    exact reads_node .expression ⟨_, .memberExpression, fun e => e⟩ rfl
      (.cons (object.reads ho) (.cons (property.reads hp) (.cons (reads_flag _)
        (.cons (reads_flag _) (.cons location.reads .nil)))))
  | assignment left right location =>
    obtain ⟨hl, hr⟩ := eachNumber_append.mp h
    exact reads_node .expression ⟨_, .assignmentExpression, fun e => e⟩ rfl
      (.cons (left.reads hl) (.cons (right.reads hr) (.cons location.reads .nil)))
  | array elements location =>
    exact reads_node .expression ⟨_, .arrayExpression, fun e => e⟩ rfl
      (.cons (reads_list (Expr.allReads elements h)) (.cons location.reads .nil))
  | object properties location =>
    exact reads_node .expression ⟨_, .objectExpression, fun e => e⟩ rfl
      (.cons (reads_list (Property.allReads properties h)) (.cons location.reads .nil))
  | binary left operator right location =>
    obtain ⟨hl, hr⟩ := eachNumber_append.mp h
    exact reads_node .expression ⟨_, .binaryExpression, fun e => e⟩ rfl
      (.cons (left.reads hl) (.cons (reads_text _) (.cons (right.reads hr)
        (.cons location.reads .nil))))
  | call callee arguments location =>
    obtain ⟨hc, ha⟩ := eachNumber_append.mp h
    exact reads_node .expression ⟨_, .callExpression, fun e => e⟩ rfl
      (.cons (callee.reads hc) (.cons (reads_list (Expr.allReads arguments ha))
        (.cons location.reads .nil)))

theorem Property.reads (p : Property) (h : NumbersReadBack p.literals) :
    Reads (.plain (.record .property)) p.toDoc p.written := by
  obtain ⟨kind, key, value, computed, shorthand, method⟩ := p
  obtain ⟨hk, hv⟩ := eachNumber_append.mp h
  exact reads_record .property
    (.cons (reads_propertyKind kind) (.cons (key.reads hk) (.cons (value.reads hv)
      (.cons (reads_flag _) (.cons (reads_flag _) (.cons (reads_flag _) .nil))))))

theorem Expr.allReads (es : List Expr) (h : NumbersReadBack (Expr.allLiterals es)) :
    List.Forall₂ (Reads (.plain (.node .expression))) (Expr.toDocs es) (Expr.allWritten es) := by
  cases es with
  | nil => exact .nil
  | cons e es =>
    obtain ⟨he, hes⟩ := eachNumber_append.mp h
    exact .cons (e.reads he) (Expr.allReads es hes)

theorem Property.allReads (ps : List Property) (h : NumbersReadBack (Property.allLiterals ps)) :
    List.Forall₂ (Reads (.plain (.record .property))) (Property.toDocs ps)
      (Property.allWritten ps) := by
  cases ps with
  | nil => exact .nil
  | cons p ps =>
    obtain ⟨hp, hps⟩ := eachNumber_append.mp h
    exact .cons (p.reads hp) (Property.allReads ps hps)

end

theorem optionalExpr_reads (e : Option Expr) (h : NumbersReadBack (optionalExprLiterals e)) :
    Reads (.optional (.node .expression)) (optionalExprDoc e) (e.map Expr.written) := by
  cases e with
  | none => exact reads_none _
  | some e => exact reads_some (e.reads h) e.toDoc_ne_null

theorem Parameter.reads (p : Parameter) (h : NumbersReadBack p.literals) :
    Reads (.plain (.record .parameter)) p.toDoc p.written :=
  reads_record .parameter (.cons p.id.reads (.cons (optionalExpr_reads p.default h) .nil))

theorem Declarator.reads (d : Declarator) (h : NumbersReadBack d.literals) :
    Reads (.plain (.record .declarator)) d.toDoc d.written :=
  reads_record .declarator (.cons d.id.reads (.cons (optionalExpr_reads d.init h) .nil))

/-- Documents that are read one by one are read in a list. -/
theorem map_reads {i : Item} {α : Type} {l : List α} {toDoc : α → Doc} {written : α → i.Carrier}
    {literals : α → List LiteralValue}
    (hreads : ∀ a, NumbersReadBack (literals a) → Reads (.plain i) (toDoc a) (written a))
    (h : NumbersReadBack (l.flatMap literals)) :
    Reads (.plain (.list i)) (.ofList (l.map toDoc)) (l.map written) := by
  have hall : ∀ a ∈ l, Reads (.plain i) (toDoc a) (written a) :=
    fun a ha => hreads a (eachNumber_flatMap.mp h a ha)
  refine reads_list ?_
  clear h
  induction l with
  | nil => exact .nil
  | cons a l ih =>
    have hrest := ih fun b hb => hall b (List.mem_cons_of_mem _ hb)
    exact .cons (hall a (by simp)) hrest

theorem Stmt.toDoc_ne_null (s : Stmt) : s.toDoc ≠ .null := by
  cases s <;> exact tagged_ne_null _ _

mutual

theorem Stmt.reads (s : Stmt) (h : NumbersReadBack s.literals) :
    Reads (.plain (.node .statement)) s.toDoc s.written := by
  cases s with
  | empty location =>
    exact reads_node .statement ⟨_, .emptyStatement, fun s => s⟩ rfl (.cons location.reads .nil)
  | debugger location =>
    exact reads_node .statement ⟨_, .debuggerStatement, fun s => s⟩ rfl (.cons location.reads .nil)
  | ifElse test consequent alternate location =>
    obtain ⟨ht, h⟩ := eachNumber_append.mp h
    obtain ⟨hc, ha⟩ := eachNumber_append.mp h
    exact reads_node .statement ⟨_, .ifStatement, fun s => s⟩ rfl
      (.cons (test.reads ht) (.cons (consequent.reads hc)
        (.cons (Stmt.optionalReads alternate ha) (.cons location.reads .nil))))
  | whileLoop test body location =>
    obtain ⟨ht, hb⟩ := eachNumber_append.mp h
    exact reads_node .statement ⟨_, .whileStatement, fun s => s⟩ rfl
      (.cons (test.reads ht) (.cons (body.reads hb) (.cons location.reads .nil)))
  | block body location =>
    exact reads_node .statement ⟨_, .block, fun b : Block => Stmt.block b.body b.location⟩ rfl
      (.cons (reads_list (Stmt.allReads body h)) (.cons location.reads .nil))
  | expression value location =>
    exact reads_node .statement ⟨_, .expressionStatement, fun s => s⟩ rfl
      (.cons (value.reads h) (.cons location.reads .nil))
  | function id isAsync generator params body bodyLocation location =>
    obtain ⟨hp, hb⟩ := eachNumber_append.mp h
    have hbody := reads_record .block
      (.cons (reads_list (Stmt.allReads body hb)) (.cons bodyLocation.reads .nil))
    exact reads_node .statement ⟨_, .functionDeclaration, fun s => s⟩ rfl
      (.cons id.reads (.cons (reads_flag _) (.cons (reads_flag _)
        (.cons (map_reads Parameter.reads hp) (.cons hbody (.cons location.reads .nil))))))
  | declaration kind declarations location =>
    exact reads_node .statement ⟨_, .variableDeclaration, fun s => s⟩ rfl
      (.cons (reads_declarationKind kind) (.cons (map_reads Declarator.reads h)
        (.cons location.reads .nil)))
  | array children location =>
    exact reads_node .statement ⟨_, .arrayStatement, fun s => s⟩ rfl
      (.cons (map_reads Expr.reads h) (.cons location.reads .nil))
  | ret argument location =>
    exact reads_node .statement ⟨_, .returnStatement, fun s => s⟩ rfl
      (.cons (optionalExpr_reads argument h) (.cons location.reads .nil))

theorem Stmt.allReads (ss : List Stmt) (h : NumbersReadBack (Stmt.allLiterals ss)) :
    List.Forall₂ (Reads (.plain (.node .statement))) (Stmt.toDocs ss) (Stmt.allWritten ss) := by
  cases ss with
  | nil => exact .nil
  | cons s ss =>
    obtain ⟨hs, hss⟩ := eachNumber_append.mp h
    exact .cons (s.reads hs) (Stmt.allReads ss hss)

theorem Stmt.optionalReads (s : Option Stmt) (h : NumbersReadBack (Stmt.optionalLiterals s)) :
    Reads (.optional (.node .statement)) (Stmt.optionalDoc s) (Stmt.optionalWritten s) := by
  cases s with
  | none => exact reads_none _
  | some s => exact reads_some (s.reads h) s.toDoc_ne_null

end

theorem Block.reads (b : Block) (h : NumbersReadBack (Stmt.allLiterals b.body)) :
    Reads (.plain (.record .block)) b.toDoc { b with body := Stmt.allWritten b.body } :=
  reads_record .block
    (.cons (reads_list (Stmt.allReads b.body h)) (.cons b.location.reads .nil))

theorem ScopeBlock.reads (b : ScopeBlock) (h : NumbersReadBack (Stmt.allLiterals b.body)) :
    Reads (.plain (.record .scopeBlock)) b.toDoc ⟨Stmt.allWritten b.body⟩ :=
  reads_record .scopeBlock (.cons (reads_list (Stmt.allReads b.body h)) .nil)

theorem Program.reads (p : Program) (h : NumbersReadBack (Stmt.allLiterals p.body)) :
    Reads (.plain (.record .program)) p.toDoc ⟨Stmt.allWritten p.body⟩ :=
  reads_record .program (.cons (reads_list (Stmt.allReads p.body h)) .nil)

/-! ## The types of trees -/

/-- The types of trees that a document may hold. -/
inductive NodeKind where
  | program
  | scopeBlock
  | block
  | statement
  | expression
  | property
  | parameter
  | declarator
  | literal
  | identifier
  | location
  deriving DecidableEq, Repr

namespace NodeKind

/-- What a document of a tree is read as. -/
def item : NodeKind → Item
  | .program => .record .program
  | .scopeBlock => .record .scopeBlock
  | .block => .record .block
  | .statement => .node .statement
  | .expression => .node .expression
  | .property => .record .property
  | .parameter => .record .parameter
  | .declarator => .record .declarator
  | .literal => .record .literal
  | .identifier => .record .identifier
  | .location => .record .location

/-- The trees of a type. -/
def Tree (k : NodeKind) : Type := k.item.Carrier

/-- The document of a tree. -/
def toDoc : (k : NodeKind) → k.Tree → Doc
  | .program => Program.toDoc
  | .scopeBlock => ScopeBlock.toDoc
  | .block => Block.toDoc
  | .statement => Stmt.toDoc
  | .expression => Expr.toDoc
  | .property => Property.toDoc
  | .parameter => Parameter.toDoc
  | .declarator => Declarator.toDoc
  | .literal => Literal.toDoc
  | .identifier => Identifier.toDoc
  | .location => Location.toDoc

/-- The values of the literals in a tree. -/
def literals : (k : NodeKind) → k.Tree → List LiteralValue
  | .program => fun p : Program => Stmt.allLiterals p.body
  | .scopeBlock => fun b : ScopeBlock => Stmt.allLiterals b.body
  | .block => fun b : Block => Stmt.allLiterals b.body
  | .statement => Stmt.literals
  | .expression => Expr.literals
  | .property => Property.literals
  | .parameter => Parameter.literals
  | .declarator => Declarator.literals
  | .literal => fun l : Literal => [l.value]
  | .identifier | .location => fun _ => []

/-- A tree with null for each number in a literal that is not finite. -/
def written : (k : NodeKind) → k.Tree → k.Tree
  | .program => fun p : Program => (⟨Stmt.allWritten p.body⟩ : Program)
  | .scopeBlock => fun b : ScopeBlock => (⟨Stmt.allWritten b.body⟩ : ScopeBlock)
  | .block => fun b : Block => ({ b with body := Stmt.allWritten b.body } : Block)
  | .statement => Stmt.written
  | .expression => Expr.written
  | .property => Property.written
  | .parameter => Parameter.written
  | .declarator => Declarator.written
  | .literal => Literal.written
  | .identifier | .location => fun t => t

theorem reads (k : NodeKind) (t : k.Tree) (h : NumbersReadBack (k.literals t)) :
    Reads (.plain k.item) (k.toDoc t) (k.written t) := by
  cases k with
  | program => exact Program.reads t h
  | scopeBlock => exact ScopeBlock.reads t h
  | block => exact Block.reads t h
  | statement => exact Stmt.reads t h
  | expression => exact Expr.reads t h
  | property => exact Property.reads t h
  | parameter => exact Parameter.reads t h
  | declarator => exact Declarator.reads t h
  | literal => exact Literal.reads t h
  | identifier => exact Identifier.reads t
  | location => exact Location.reads t

theorem written_eq (k : NodeKind) (t : k.Tree) (h : AllFinite (k.literals t)) :
    k.written t = t := by
  cases k with
  | program => exact congrArg Program.mk (Stmt.allWritten_eq _ h)
  | scopeBlock => exact congrArg ScopeBlock.mk (Stmt.allWritten_eq _ h)
  | block =>
    exact congrArg (fun body => ({ body, location := Block.location t } : Block))
      (Stmt.allWritten_eq _ h)
  | statement => exact Stmt.written_eq t h
  | expression => exact Expr.written_eq t h
  | property => exact Property.written_eq t h
  | parameter => exact Parameter.written_eq h
  | declarator => exact Declarator.written_eq h
  | literal =>
    exact congrArg (fun v => ({ value := v, raw := Literal.raw t, location := Literal.location t } :
      Literal)) (LiteralValue.written_eq h)
  | identifier => rfl
  | location => rfl

end NodeKind

/-- The round trip of a tree of any type.  If its document nests at most 127 deep, both texts are
read as the tree, with null for the numbers that are not finite; if it nests deeper, both are
refused as no JSON. -/
theorem decode_print (k : NodeKind) (t : k.Tree) (h : NumbersReadBack (k.literals t)) :
    ((k.toDoc t).depth ≤ 127 →
      k.item.decode (k.toDoc t).compactText.toList = .ok (k.written t) ∧
        k.item.decode (k.toDoc t).prettyText.toList = .ok (k.written t)) ∧
      (127 < (k.toDoc t).depth →
        k.item.decode (k.toDoc t).compactText.toList = .error .notJson ∧
          k.item.decode (k.toDoc t).prettyText.toList = .error .notJson) ∧
      (AllFinite (k.literals t) → k.written t = t) := by
  have hcompact : (k.toDoc t).compactText.toList = (k.toDoc t).compact [] := String.toList_ofList
  have hpretty : (k.toDoc t).prettyText.toList = (k.toDoc t).pretty 0 [] := String.toList_ofList
  obtain ⟨hc, hp⟩ := decode_printed (k.reads t h)
  rw [hcompact, hpretty, hc, hp]
  refine ⟨fun hdepth => ?_, fun hdepth => ?_, k.written_eq t⟩
  · have hok : within (k.toDoc t).depth nestingLimit (k.written t) = .ok (k.written t) :=
      within_of_le hdepth _
    exact ⟨hok, hok⟩
  · have herror : within (k.toDoc t).depth nestingLimit (k.written t) = .error .notJson :=
      within_of_lt hdepth _
    exact ⟨herror, herror⟩

/-- A program that lists two literals. -/
def listOfTwo (v w : LiteralValue) : Program where
  body := [.expression (.array [.literal { value := v }, .literal { value := w }] {}) {}]

/-- A finite number is read back, and what is no number is read as null. -/
theorem listOfTwo_reads_back :
    NumbersReadBack (NodeKind.literals .program (listOfTwo (.number 1.5) (.number Number.nan))) ∧
      (NodeKind.toDoc .program (listOfTwo (.number 1.5) (.number Number.nan))).depth ≤ 127 ∧
      (Item.record .program).decode
          (listOfTwo (.number 1.5) (.number Number.nan)).prettyText.toList =
        .ok (listOfTwo (.number 1.5) .null) := by
  have hfinite : Number.isFinite 1.5 = true := by decide +kernel
  have hnan : Number.isFinite Number.nan = false := by decide +kernel
  have hnumeral : NumberStyle.document.numeral? 1.5 = some ⟨false, [1], [5], none⟩ := by
    decide +kernel
  have hread : ReadsBack 1.5 := (readsBack_iff hnumeral).mpr ⟨rfl, by decide +kernel⟩
  have h : NumbersReadBack
      (NodeKind.literals .program (listOfTwo (.number 1.5) (.number Number.nan))) := by
    intro x hx hxfinite
    have hx : LiteralValue.number x ∈ [LiteralValue.number 1.5, .number Number.nan] := hx
    simp only [List.mem_cons, LiteralValue.number.injEq, List.not_mem_nil, or_false] at hx
    rcases hx with rfl | rfl
    · exact hread
    · rw [hnan] at hxfinite
      cases hxfinite
  have hdepth : (NodeKind.toDoc .program (listOfTwo (.number 1.5) (.number Number.nan))).depth ≤
      127 := by decide
  have hwritten : NodeKind.written .program (listOfTwo (.number 1.5) (.number Number.nan)) =
      listOfTwo (.number 1.5) .null := by
    simp only [NodeKind.written, listOfTwo, Stmt.allWritten, Stmt.written, Expr.written,
      Expr.allWritten, Literal.written, LiteralValue.written, hfinite, hnan]
    rfl
  rw [← hwritten]
  exact ⟨h, hdepth, ((decode_print .program _ h).1 hdepth).2⟩

end Treewalk
