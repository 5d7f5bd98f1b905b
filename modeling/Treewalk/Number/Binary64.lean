/-!
# Binary64 numbers as exact integers

The numbers of the language are `Float`s.  Whatever the arithmetic of `Float` does not give
exactly (digits, remainders, indices) is computed here on integers: `Binary64.ofFloat` takes the
64-bit pattern of a number apart into a sign, a significand and a power of two.

## Main definitions

* `Dyadic` — a sign, a significand and an exponent of two.
* `Binary64` — what a bit pattern stands for: no number, an infinity or a dyadic number.
* `Binary64.ofFloat`, `Dyadic.toFloat` — from bits and back.
* `Number.remainder` — the remainder of truncated division, computed without rounding.
* `Number.index?` — the natural number that a number is equal to, if it is one.
-/

namespace Treewalk

/-- The number `± significand · 2 ^ exponent`. -/
structure Dyadic where
  negative : Bool
  significand : Nat
  exponent : Int
  deriving DecidableEq, Repr, Inhabited

/-- What a 64-bit pattern stands for. -/
inductive Binary64 where
  | nan
  | infinite (negative : Bool)
  | finite (value : Dyadic)
  deriving DecidableEq, Repr, Inhabited

namespace Binary64

/-- The weight of the sign bit in a pattern. -/
def signBit : Nat := Nat.pow 2 63

/-- The weight of the lowest bit of the exponent in a pattern, and of the bit of the significand
that a pattern leaves out. -/
def hiddenBit : Nat := Nat.pow 2 52

/-- Take a pattern apart: one sign bit, eleven bits of biased exponent, fifty-two bits of fraction.
A zero biased exponent marks the subnormal numbers, whose significand has no hidden bit. -/
def ofFloat (x : Float) : Binary64 :=
  let bits := x.toBits.toNat
  let negative := decide (signBit ≤ bits)
  let biased : Nat := bits / hiddenBit % 2048
  let fraction : Nat := bits % hiddenBit
  if biased = 2047 then
    if fraction = 0 then .infinite negative else .nan
  else if biased = 0 then
    .finite ⟨negative, fraction, -1074⟩
  else
    .finite ⟨negative, fraction + hiddenBit, (biased : Int) - 1075⟩

end Binary64

namespace Dyadic

/-- The pattern of a number that 64 bits can hold: the significand is moved to fifty-three bits, or
to the exponent of the subnormal numbers if that is reached first. -/
def toFloat (d : Dyadic) : Float :=
  let target := max (d.exponent + (d.significand.log2 : Int) - 52) (-1074)
  let significand :=
    if d.exponent ≤ target then d.significand / Nat.pow 2 (target - d.exponent).toNat
    else d.significand * Nat.pow 2 (d.exponent - target).toNat
  let magnitude :=
    if d.significand = 0 then 0
    else if significand < Binary64.hiddenBit then significand
    else (target + 1075).toNat * Binary64.hiddenBit + (significand - Binary64.hiddenBit)
  Float.ofBits (UInt64.ofNat (if d.negative then magnitude + Binary64.signBit else magnitude))

/-- The significand when the exponent is lowered to `e`, which must not be above it. -/
def scaled (d : Dyadic) (e : Int) : Nat :=
  d.significand * Nat.pow 2 (d.exponent - e).toNat

/-- The remainder of the division rounded toward zero; it has the sign of the dividend. -/
def remainder (x y : Dyadic) : Dyadic :=
  let e := min x.exponent y.exponent
  ⟨x.negative, x.scaled e % y.scaled e, e⟩

/-- The natural number that `d` is equal to.  A negative zero is zero. -/
def toNat? (d : Dyadic) : Option Nat :=
  if d.significand = 0 then some 0
  else if d.negative then none
  else if 0 ≤ d.exponent then some (d.significand * Nat.pow 2 d.exponent.toNat)
  else
    let unit := Nat.pow 2 (-d.exponent).toNat
    if d.significand % unit = 0 then some (d.significand / unit) else none

end Dyadic

namespace Number

/-- Not a number. -/
def nan : Float := 0.0 / 0.0

/-- Positive infinity. -/
def infinity : Float := 1.0 / 0.0

/-- The remainder with the sign of the dividend.  There is none of an infinite dividend or by zero;
an infinite divisor leaves a finite dividend as it is. -/
def remainder (x y : Float) : Float :=
  match Binary64.ofFloat x, Binary64.ofFloat y with
  | .finite a, .finite b => if b.significand = 0 then nan else (a.remainder b).toFloat
  | .finite _, .infinite _ => x
  | _, _ => nan

/-- The natural number that `x` is equal to, if there is one. -/
def index? (x : Float) : Option Nat :=
  match Binary64.ofFloat x with
  | .finite d => d.toNat?
  | _ => none

end Number

end Treewalk
