import Treewalk.Number.Binary64
import Treewalk.Number.Numeral

/-!
# The shortest decimal that reads back

Among the decimals that lie in the rounding interval of a number, the one with the fewest digits is
chosen, and among those the nearest.  The search is in exact integer arithmetic: on ever finer
decimal grids it tests the two neighbours of the number on the grid, and the first grid with a hit
wins.

## Main definitions

* `Decimal` — digits and a power of ten.
* `Dyadic.shortest` — the search.
* `NumberStyle` — how the digits are laid out, one record per output format.
* `NumberStyle.numeral?`, `NumberStyle.text` — a number written in a style.
-/

namespace Treewalk

/-- The number `coefficient · 10 ^ exponent`. -/
structure Decimal where
  coefficient : Nat
  exponent : Int
  deriving DecidableEq, Repr, Inhabited

/-- Which of two equally near neighbours is taken. -/
inductive Tie where
  | up
  | even
  deriving DecidableEq, Repr, Inhabited

namespace Dyadic

/-- The reals that round to `d` lie between `lower` and `upper`, in quarters of its last place.
Below a power of two the neighbour is at half the distance. -/
def lower (d : Dyadic) : Nat :=
  if d.significand = Binary64.hiddenBit ∧ -1074 < d.exponent then 4 * d.significand - 1
  else 4 * d.significand - 2

/-- The upper end of the rounding interval, in quarters of the last place. -/
def upper (d : Dyadic) : Nat := 4 * d.significand + 2

/-- The neighbour of `d` on the grid of multiples of `10 ^ g` that reads back as `d`, if there is
one; of two, the nearer.  The ends of the interval belong to it if the significand is even. -/
def onGrid? (tie : Tie) (d : Dyadic) (g : Int) : Option Nat :=
  let e := d.exponent - 2
  let step := Nat.pow 10 g.toNat * Nat.pow 2 (-e).toNat
  let unit := Nat.pow 2 e.toNat * Nat.pow 10 (-g).toNat
  let exact := 4 * d.significand * unit
  let below := exact / step
  let within (k : Nat) : Bool :=
    if d.significand % 2 = 0 then
      decide (d.lower * unit ≤ k * step) && decide (k * step ≤ d.upper * unit)
    else
      decide (d.lower * unit < k * step) && decide (k * step < d.upper * unit)
  let above := below + 1
  match within below, within above with
  | false, false => none
  | true, false => some below
  | false, true => some above
  | true, true =>
    let down := exact - below * step
    let up := above * step - exact
    if down < up then some below
    else if up < down then some above
    else match tie with
      | .up => some above
      | .even => some (if below % 2 = 0 then below else above)

/-- Try the grids `10 ^ g`, `10 ^ (g - 1)`, … until one has a hit. -/
def search (tie : Tie) (d : Dyadic) : Nat → Int → Decimal
  | 0, g => ⟨(d.onGrid? tie g).getD 0, g⟩
  | tries + 1, g =>
    match d.onGrid? tie g with
    | some k => ⟨k, g⟩
    | none => search tie d tries (g - 1)

/-- A power of ten above the number: `2 ^ 10 < 10 ^ 3.0103`. -/
def topPower (d : Dyadic) : Int :=
  (d.exponent + (d.significand.log2 : Int) + 1) * 30103 / 100000 + 1

/-- The shortest decimal that reads back as a positive number.  Seventeen digits always do. -/
def shortest (tie : Tie) (d : Dyadic) : Decimal :=
  d.search tie 20 d.topPower

end Dyadic

/-- How a format writes numbers. -/
structure NumberStyle where
  /-- Which of two shortest decimals is taken. -/
  tie : Tie
  /-- The decimal exponents of the numbers that are written without an exponent. -/
  positional : Int → Bool
  /-- Whether an integral number written without an exponent has the fraction `.0`. -/
  pointZero : Bool
  /-- Whether a positive exponent has a plus sign. -/
  plus : Bool
  nan : String
  infinity : String

namespace NumberStyle

/-- Lay out a nonempty list of digits with the point after the first `point` of them, where `point`
may lie outside the list. -/
def positionalNumeral (style : NumberStyle) (negative : Bool) (digits : List Nat) (point : Int) :
    Numeral :=
  if point ≤ 0 then
    ⟨negative, [0], List.replicate (-point).toNat 0 ++ digits, none⟩
  else
    let fraction := digits.drop point.toNat
    ⟨negative,
      digits.take point.toNat ++ List.replicate (point.toNat - digits.length) 0,
      if fraction.isEmpty && style.pointZero then [0] else fraction,
      none⟩

/-- Lay out a nonempty list of digits with one digit before the point. -/
def scientificNumeral (negative : Bool) (digits : List Nat) (point : Int) : Numeral :=
  ⟨negative, digits.take 1, digits.drop 1, some (point - 1)⟩

/-- Digits without the zeros at the end. -/
def significant (digits : List Nat) : List Nat :=
  (digits.reverse.dropWhile (· == 0)).reverse

/-- The numeral of a finite number. -/
def finite (style : NumberStyle) (d : Dyadic) : Numeral :=
  if d.significand = 0 then style.positionalNumeral d.negative [0] 1
  else
    let s := d.shortest style.tie
    let digits := Digits.ofNat s.coefficient
    let point := s.exponent + (digits.length : Int)
    if style.positional (point - 1) then
      style.positionalNumeral d.negative (significant digits) point
    else scientificNumeral d.negative (significant digits) point

/-- The numeral of a number, if the number is finite. -/
def numeral? (style : NumberStyle) (x : Float) : Option Numeral :=
  match Binary64.ofFloat x with
  | .finite d => some (style.finite d)
  | _ => none

/-- The text of a number. -/
def text (style : NumberStyle) (x : Float) : String :=
  match Binary64.ofFloat x with
  | .nan => style.nan
  | .infinite negative => if negative then "-" ++ style.infinity else style.infinity
  | .finite d => (style.finite d).text style.plus

end NumberStyle

end Treewalk
