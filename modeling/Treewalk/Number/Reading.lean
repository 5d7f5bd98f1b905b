import Treewalk.Number.Binary64
import Treewalk.Number.Numeral
import Treewalk.Text.Blank

/-!
# Reading numbers from text

`Number.ofDecimal` is the number nearest to a decimal; `Number.read?` reads the texts that the
arithmetic operators take for numbers: an optional sign, then a name of infinity or of no number in
any letter case, or digits with an optional point and an optional exponent.
-/

namespace Treewalk.Number

/-- The number nearest to `coefficient · 10 ^ exponent`.  The first two cases only keep the powers
of ten small: above `10 ^ 309` there is only infinity and below `10 ^ -324` only zero. -/
def ofDecimal (coefficient : Nat) (exponent : Int) : Float :=
  let top := ((Nat.toDigits 10 coefficient).length : Int) + exponent
  if coefficient = 0 ∨ top < -330 then 0
  else if 310 < top then infinity
  else Float.ofScientific coefficient (decide (exponent < 0)) exponent.natAbs

/-- Whether a character is one of the ten ASCII digits. -/
def isDigit (c : Char) : Bool := decide ('0' ≤ c) && decide (c ≤ '9')

/-- The value of an ASCII digit. -/
def digitValue (c : Char) : Nat := c.toNat - '0'.toNat

/-- The digits at the head of a text and what follows them. -/
def spanDigits (cs : List Char) : List Nat × List Char :=
  ((cs.takeWhile isDigit).map digitValue, cs.dropWhile isDigit)

/-- Take a sign off a text; true stands for minus. -/
def takeSign : List Char → Bool × List Char
  | '-' :: cs => (true, cs)
  | '+' :: cs => (false, cs)
  | cs => (false, cs)

/-- The exponent that makes up the whole of a text, which is zero if the text is empty. -/
def readPower? : List Char → Option Int
  | [] => some 0
  | c :: cs =>
    if c = 'e' ∨ c = 'E' then
      let (negative, cs) := takeSign cs
      let (digits, rest) := spanDigits cs
      if digits.isEmpty || !rest.isEmpty then none
      else if negative then some (-(Digits.value digits : Int))
      else some (Digits.value digits)
    else none

/-- A number without its sign. -/
def readMagnitude? (cs : List Char) : Option Float :=
  if Text.sameLetters cs "inf".toList || Text.sameLetters cs "infinity".toList then some infinity
  else if Text.sameLetters cs "nan".toList then some nan
  else
    let (whole, rest) := spanDigits cs
    let (fraction, rest) :=
      match rest with
      | '.' :: rest => spanDigits rest
      | rest => ([], rest)
    if whole.isEmpty && fraction.isEmpty then none
    else
      (readPower? rest).map fun power =>
        ofDecimal (Digits.value (whole ++ fraction)) (power - (fraction.length : Int))

/-- Read a text that is a number as a whole. -/
def read? (cs : List Char) : Option Float :=
  let (negative, cs) := takeSign cs
  (readMagnitude? cs).map fun x => if negative then -x else x

end Treewalk.Number
