import Treewalk.Number.Numeral

/-!
# What the numerals of a document stand for

A numeral without point and exponent is an integer as long as 64 bits hold it; any other numeral is
a binary64 number, found by scaling the leading digits by one power of ten.  The scaling rounds, so
a long numeral may end up one place beside the nearest number.

## Main definitions

* `Quantity` — a natural number, a negative integer or a binary64 number.
* `Numeral.quantity?` — the value of a numeral, if it is in range.
-/

namespace Treewalk

/-- The value of a numeral. -/
inductive Quantity where
  /-- An integer from zero on. -/
  | natural (n : UInt64)
  /-- The integer `-n`, where `n` is positive. -/
  | negative (n : UInt64)
  | real (x : Float)
  deriving DecidableEq, Inhabited

/-- The value of a quantity as a binary64 number. -/
def Quantity.toFloat : Quantity → Float
  | .natural n => n.toFloat
  | .negative n => -n.toFloat
  | .real x => x

namespace Numeral

/-- Append digits to a coefficient as long as the result fits in 64 bits.  The second component
counts the digits that are left. -/
def absorb : Nat → List Nat → Nat × Nat
  | a, [] => (a, 0)
  | a, d :: ds =>
    if 10 * a + d < UInt64.size then absorb (10 * a + d) ds else (a, ds.length + 1)

/-- The binary64 number nearest to a power of ten, `k ≤ 308`. -/
def powerOfTen (k : Nat) : Float := Float.ofScientific 1 false k

/-- Scale a coefficient by a power of ten, with at most two divisions or one multiplication.  There
is no result if it is out of range. -/
def scale? (coefficient : Nat) (exponent : Int) : Option Float :=
  let x := (UInt64.ofNat coefficient).toFloat
  let k := exponent.natAbs
  if 0 ≤ exponent then
    if 308 < k then (if coefficient = 0 then some x else none)
    else
      let y := x * powerOfTen k
      if y.isInf then none else some y
  else if k ≤ 308 then some (x / powerOfTen k)
  else if k ≤ 616 then some (x / powerOfTen 308 / powerOfTen (k - 308))
  else some 0

/-- The magnitude of a numeral as a binary64 number.  Digits of the whole part beyond 64 bits count
as zeros and such digits of the fraction are dropped; an exponent is out of range beyond 31 bits
unless it makes the number zero. -/
def magnitude? (n : Numeral) : Option Float :=
  let (a, unread) := absorb 0 n.whole
  let (coefficient, dropped) := absorb a n.fraction
  let exponent : Int := (unread : Int) - ((n.fraction.length - dropped : Nat) : Int)
  match n.power with
  | none => scale? coefficient exponent
  | some p =>
    if p.natAbs < Nat.pow 2 31 then scale? coefficient (exponent + p)
    else if coefficient ≠ 0 ∧ 0 < p then none
    else some 0

/-- The integer of a numeral.  A negative zero is none, and a negative integer has 63 bits. -/
def integer? (n : Numeral) : Option Quantity :=
  let (a, unread) := absorb 0 n.whole
  if n.fraction ≠ [] ∨ n.power ≠ none ∨ unread ≠ 0 then none
  else if !n.negative then some (.natural (UInt64.ofNat a))
  else if 0 < a ∧ a ≤ Nat.pow 2 63 then some (.negative (UInt64.ofNat a))
  else none

/-- The value of a numeral: an integer if it is one, else a binary64 number. -/
def quantity? (n : Numeral) : Option Quantity :=
  match n.integer? with
  | some q => some q
  | none => n.magnitude?.map fun x => .real (if n.negative then -x else x)

end Numeral

end Treewalk
