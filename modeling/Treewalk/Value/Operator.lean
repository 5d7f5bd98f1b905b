import Treewalk.Value.Basic

/-!
# Binary operators

An operator is kept in a tree as it is written and looked up when it is applied.  Addition joins
texts if one of its operands is a string, an array or an object; otherwise all operators work on
numbers.

## Main definitions

* `Operator`, `Operator.ofSymbol?`, `Operator.symbol`
* `Operator.apply`
-/

namespace Treewalk

/-- The binary operators. -/
inductive Operator where
  | add
  | subtract
  | multiply
  | divide
  | remainder
  deriving DecidableEq, Repr, Inhabited

namespace Operator

/-- How an operator is written. -/
def symbol : Operator → String
  | .add => "+"
  | .subtract => "-"
  | .multiply => "*"
  | .divide => "/"
  | .remainder => "%"

/-- The operator that is written in a given way. -/
def ofSymbol? : String → Option Operator
  | "+" => some .add
  | "-" => some .subtract
  | "*" => some .multiply
  | "/" => some .divide
  | "%" => some .remainder
  | _ => none

/-- Whether addition with this operand joins texts. -/
def joins : Value → Bool
  | .text _ | .array _ | .object _ => true
  | _ => false

/-- Apply an operator to numbers. -/
def onNumbers : Operator → Float → Float → Float
  | .add, x, y => x + y
  | .subtract, x, y => x - y
  | .multiply, x, y => x * y
  | .divide, x, y => x / y
  | .remainder, x, y => Number.remainder x y

/-- Apply an operator. -/
def apply (o : Operator) (l r : Value) : Value :=
  if o = .add ∧ (joins l || joins r) then .text (l.display ++ r.display)
  else .number (o.onNumbers l.toNumber r.toNumber)

end Operator

end Treewalk
