import Treewalk.Number.Binary64
import Treewalk.Tree.Node

/-!
# What is left of a tree when it is written

A document has no numeral for what is no number and for the infinities, so that such a literal is
written as null.  All else is written as it is: a tree whose literals are finite loses nothing.

## Main definitions

* `Expr.literals`, `Stmt.literals`, … — the values of all literals in a tree.
* `Expr.written`, `Stmt.written`, … — a tree with null for the numbers that are not finite.
* `EachNumber` — a property of all numbers among values of literals.
-/

namespace Treewalk

/-- Whether a number is neither an infinity nor no number. -/
def Number.isFinite (x : Float) : Bool :=
  match Binary64.ofFloat x with
  | .finite _ => true
  | _ => false

/-- All numbers among some values of literals have a property. -/
def EachNumber (P : Float → Prop) (vs : List LiteralValue) : Prop :=
  ∀ x, .number x ∈ vs → P x

theorem eachNumber_append {P : Float → Prop} {vs ws : List LiteralValue} :
    EachNumber P (vs ++ ws) ↔ EachNumber P vs ∧ EachNumber P ws := by
  constructor
  · intro h
    constructor
    · intro x hx
      exact h x (List.mem_append_left _ hx)
    · intro x hx
      exact h x (List.mem_append_right _ hx)
  · rintro ⟨hv, hw⟩ x hx
    rcases List.mem_append.mp hx with hx | hx
    · exact hv x hx
    · exact hw x hx

theorem eachNumber_flatMap {α : Type} {P : Float → Prop} {l : List α}
    {f : α → List LiteralValue} :
    EachNumber P (l.flatMap f) ↔ ∀ a ∈ l, EachNumber P (f a) := by
  constructor
  · intro h a ha x hx
    exact h x (List.mem_flatMap.mpr ⟨a, ha, hx⟩)
  · intro h x hx
    obtain ⟨a, ha, hx⟩ := List.mem_flatMap.mp hx
    exact h a ha x hx

/-! ## The literals of a tree -/

mutual

/-- The values of the literals in an expression, in their order. -/
def Expr.literals : Expr → List LiteralValue
  | .identifier _ => []
  | .literal node => [node.value]
  | .chain expression _ => expression.literals
  | .member object property _ _ _ => object.literals ++ property.literals
  | .assignment left right _ | .binary left _ right _ => left.literals ++ right.literals
  | .array elements _ => Expr.allLiterals elements
  | .object properties _ => Property.allLiterals properties
  | .call callee arguments _ => callee.literals ++ Expr.allLiterals arguments

/-- The values of the literals in an entry of an object literal. -/
def Property.literals : Property → List LiteralValue
  | ⟨_, key, value, _, _, _⟩ => key.literals ++ value.literals

/-- The values of the literals in expressions. -/
def Expr.allLiterals : List Expr → List LiteralValue
  | [] => []
  | e :: es => e.literals ++ Expr.allLiterals es

/-- The values of the literals in the entries of an object literal. -/
def Property.allLiterals : List Property → List LiteralValue
  | [] => []
  | p :: ps => p.literals ++ Property.allLiterals ps

end

/-- The values of the literals in an expression that may be missing. -/
def optionalExprLiterals : Option Expr → List LiteralValue
  | none => []
  | some e => e.literals

/-- The values of the literals in a parameter. -/
def Parameter.literals (p : Parameter) : List LiteralValue := optionalExprLiterals p.default

/-- The values of the literals in a declared variable. -/
def Declarator.literals (d : Declarator) : List LiteralValue := optionalExprLiterals d.init

mutual

/-- The values of the literals in a statement, in their order. -/
def Stmt.literals : Stmt → List LiteralValue
  | .empty _ | .debugger _ => []
  | .ifElse test consequent alternate _ =>
    test.literals ++ (consequent.literals ++ Stmt.optionalLiterals alternate)
  | .whileLoop test body _ => test.literals ++ body.literals
  | .block body _ => Stmt.allLiterals body
  | .expression value _ => value.literals
  | .function _ _ _ params body _ _ =>
    params.flatMap Parameter.literals ++ Stmt.allLiterals body
  | .declaration _ declarations _ => declarations.flatMap Declarator.literals
  | .array children _ => children.flatMap Expr.literals
  | .ret argument _ => optionalExprLiterals argument

/-- The values of the literals in statements. -/
def Stmt.allLiterals : List Stmt → List LiteralValue
  | [] => []
  | s :: ss => s.literals ++ Stmt.allLiterals ss

/-- The values of the literals in a statement that may be missing. -/
def Stmt.optionalLiterals : Option Stmt → List LiteralValue
  | none => []
  | some s => s.literals

end

/-! ## Written trees -/

/-- The value of a literal as it is written. -/
def LiteralValue.written : LiteralValue → LiteralValue
  | .number x => if Number.isFinite x then .number x else .null
  | v => v

/-- A literal as it is written. -/
def Literal.written (l : Literal) : Literal := { l with value := l.value.written }

mutual

/-- An expression as it is written. -/
def Expr.written : Expr → Expr
  | .identifier id => .identifier id
  | .literal node => .literal node.written
  | .chain expression location => .chain expression.written location
  | .member object property computed optional location =>
    .member object.written property.written computed optional location
  | .assignment left right location => .assignment left.written right.written location
  | .array elements location => .array (Expr.allWritten elements) location
  | .object properties location => .object (Property.allWritten properties) location
  | .binary left operator right location => .binary left.written operator right.written location
  | .call callee arguments location => .call callee.written (Expr.allWritten arguments) location

/-- An entry of an object literal as it is written. -/
def Property.written : Property → Property
  | ⟨kind, key, value, computed, shorthand, method⟩ =>
    ⟨kind, key.written, value.written, computed, shorthand, method⟩

/-- Expressions as they are written. -/
def Expr.allWritten : List Expr → List Expr
  | [] => []
  | e :: es => e.written :: Expr.allWritten es

/-- The entries of an object literal as they are written. -/
def Property.allWritten : List Property → List Property
  | [] => []
  | p :: ps => p.written :: Property.allWritten ps

end

/-- A parameter as it is written. -/
def Parameter.written (p : Parameter) : Parameter :=
  { p with default := p.default.map Expr.written }

/-- A declared variable as it is written. -/
def Declarator.written (d : Declarator) : Declarator := { d with init := d.init.map Expr.written }

mutual

/-- A statement as it is written. -/
def Stmt.written : Stmt → Stmt
  | .empty location => .empty location
  | .debugger location => .debugger location
  | .ifElse test consequent alternate location =>
    .ifElse test.written consequent.written (Stmt.optionalWritten alternate) location
  | .whileLoop test body location => .whileLoop test.written body.written location
  | .block body location => .block (Stmt.allWritten body) location
  | .expression value location => .expression value.written location
  | .function id isAsync generator params body bodyLocation location =>
    .function id isAsync generator (params.map Parameter.written) (Stmt.allWritten body)
      bodyLocation location
  | .declaration kind declarations location =>
    .declaration kind (declarations.map Declarator.written) location
  | .array children location => .array (children.map Expr.written) location
  | .ret argument location => .ret (argument.map Expr.written) location

/-- Statements as they are written. -/
def Stmt.allWritten : List Stmt → List Stmt
  | [] => []
  | s :: ss => s.written :: Stmt.allWritten ss

/-- A statement that may be missing as it is written. -/
def Stmt.optionalWritten : Option Stmt → Option Stmt
  | none => none
  | some s => some s.written

end

/-! ## Finite literals -/

/-- All numbers are finite. -/
def AllFinite (vs : List LiteralValue) : Prop := EachNumber (fun x => Number.isFinite x = true) vs

theorem LiteralValue.written_eq {v : LiteralValue} (h : AllFinite [v]) : v.written = v := by
  cases v with
  | number x => exact if_pos (h x (by simp))
  | _ => rfl

mutual

theorem Expr.written_eq (e : Expr) (h : AllFinite e.literals) : e.written = e := by
  cases e with
  | identifier id => rfl
  | literal node => rw [Expr.written, Literal.written, LiteralValue.written_eq h]
  | chain expression location => rw [Expr.written, expression.written_eq h]
  | member object property computed optional location =>
    obtain ⟨ho, hp⟩ := eachNumber_append.mp h
    rw [Expr.written, object.written_eq ho, property.written_eq hp]
  | assignment left right location =>
    obtain ⟨hl, hr⟩ := eachNumber_append.mp h
    rw [Expr.written, left.written_eq hl, right.written_eq hr]
  | array elements location => rw [Expr.written, Expr.allWritten_eq elements h]
  | object properties location => rw [Expr.written, Property.allWritten_eq properties h]
  | binary left operator right location =>
    obtain ⟨hl, hr⟩ := eachNumber_append.mp h
    rw [Expr.written, left.written_eq hl, right.written_eq hr]
  | call callee arguments location =>
    obtain ⟨hc, ha⟩ := eachNumber_append.mp h
    rw [Expr.written, callee.written_eq hc, Expr.allWritten_eq arguments ha]

theorem Property.written_eq (p : Property) (h : AllFinite p.literals) : p.written = p := by
  obtain ⟨kind, key, value, computed, shorthand, method⟩ := p
  obtain ⟨hk, hv⟩ := eachNumber_append.mp h
  rw [Property.written, key.written_eq hk, value.written_eq hv]

theorem Expr.allWritten_eq (es : List Expr) (h : AllFinite (Expr.allLiterals es)) :
    Expr.allWritten es = es := by
  cases es with
  | nil => rfl
  | cons e es =>
    obtain ⟨he, hes⟩ := eachNumber_append.mp h
    rw [Expr.allWritten, e.written_eq he, Expr.allWritten_eq es hes]

theorem Property.allWritten_eq (ps : List Property) (h : AllFinite (Property.allLiterals ps)) :
    Property.allWritten ps = ps := by
  cases ps with
  | nil => rfl
  | cons p ps =>
    obtain ⟨hp, hps⟩ := eachNumber_append.mp h
    rw [Property.allWritten, p.written_eq hp, Property.allWritten_eq ps hps]

end

theorem optionalExprWritten_eq {e : Option Expr} (h : AllFinite (optionalExprLiterals e)) :
    e.map Expr.written = e := by
  cases e with
  | none => rfl
  | some e => exact congrArg some (e.written_eq h)

theorem Parameter.written_eq {p : Parameter} (h : AllFinite p.literals) : p.written = p := by
  rw [Parameter.written, optionalExprWritten_eq h]

theorem Declarator.written_eq {d : Declarator} (h : AllFinite d.literals) : d.written = d := by
  rw [Declarator.written, optionalExprWritten_eq h]

/-- What is written as it is one by one is written as it is in a list. -/
theorem map_written_eq {α : Type} {l : List α} {f : α → List LiteralValue} {written : α → α}
    (hwritten : ∀ a, AllFinite (f a) → written a = a) (h : AllFinite (l.flatMap f)) :
    l.map written = l := by
  have hid : ∀ a ∈ l, written a = id a := fun a ha => hwritten a (eachNumber_flatMap.mp h a ha)
  rw [List.map_congr_left hid, List.map_id]

mutual

theorem Stmt.written_eq (s : Stmt) (h : AllFinite s.literals) : s.written = s := by
  cases s with
  | empty location => rfl
  | debugger location => rfl
  | ifElse test consequent alternate location =>
    obtain ⟨ht, h⟩ := eachNumber_append.mp h
    obtain ⟨hc, ha⟩ := eachNumber_append.mp h
    rw [Stmt.written, test.written_eq ht, consequent.written_eq hc,
      Stmt.optionalWritten_eq alternate ha]
  | whileLoop test body location =>
    obtain ⟨ht, hb⟩ := eachNumber_append.mp h
    rw [Stmt.written, test.written_eq ht, body.written_eq hb]
  | block body location => rw [Stmt.written, Stmt.allWritten_eq body h]
  | expression value location => rw [Stmt.written, value.written_eq h]
  | function id isAsync generator params body bodyLocation location =>
    obtain ⟨hp, hb⟩ := eachNumber_append.mp h
    rw [Stmt.written, map_written_eq (fun _ => Parameter.written_eq) hp,
      Stmt.allWritten_eq body hb]
  | declaration kind declarations location =>
    rw [Stmt.written, map_written_eq (fun _ => Declarator.written_eq) h]
  | array children location => rw [Stmt.written, map_written_eq Expr.written_eq h]
  | ret argument location => rw [Stmt.written, optionalExprWritten_eq h]

theorem Stmt.allWritten_eq (ss : List Stmt) (h : AllFinite (Stmt.allLiterals ss)) :
    Stmt.allWritten ss = ss := by
  cases ss with
  | nil => rfl
  | cons s ss =>
    obtain ⟨hs, hss⟩ := eachNumber_append.mp h
    rw [Stmt.allWritten, s.written_eq hs, Stmt.allWritten_eq ss hss]

theorem Stmt.optionalWritten_eq (s : Option Stmt) (h : AllFinite (Stmt.optionalLiterals s)) :
    Stmt.optionalWritten s = s := by
  cases s with
  | none => rfl
  | some s => rw [Stmt.optionalWritten, s.written_eq h]

end

end Treewalk
