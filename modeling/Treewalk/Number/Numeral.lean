/-!
# Decimal numerals as they are written

A `Numeral` keeps the shape of a written number: its sign, the digits before and after the point
and its power of ten.  Printers lay a number out as a numeral and the scanner of documents hands
numerals on, so that both sides speak of the same thing.

## Main definitions

* `Numeral` — sign, digits and power of ten.
* `Digits.value`, `Digits.ofNat` — lists of digits, most significant first, and their values.
* `Numeral.text` — the written form.
-/

namespace Treewalk

namespace Digits

/-- The value of a list of digits, most significant first. -/
def value (digits : List Nat) : Nat :=
  digits.foldl (fun n d => 10 * n + d) 0

/-- The digits of a number, most significant first, without leading zeros; zero has one digit. -/
def ofNat (n : Nat) : List Nat :=
  (Nat.toDigits 10 n).map fun c => c.toNat - '0'.toNat

/-- The characters of a list of digits. -/
def chars (digits : List Nat) : List Char :=
  digits.map fun d => Char.ofNat ('0'.toNat + d)

end Digits

/-- The decimal text of a natural number. -/
def decimal (n : Nat) : String :=
  String.ofList (Nat.toDigits 10 n)

/-- A written decimal number.  No `fraction` means that there is no point, and no `power` that there
is no exponent. -/
structure Numeral where
  negative : Bool
  whole : List Nat
  fraction : List Nat
  power : Option Int
  deriving DecidableEq, Repr, Inhabited

namespace Numeral

/-- The numeral of a natural number. -/
def ofNat (n : Nat) : Numeral :=
  ⟨false, Digits.ofNat n, [], none⟩

/-- The characters of an exponent.  A positive one is marked with a plus sign only if `plus` is
set. -/
def powerChars (plus : Bool) (e : Int) : List Char :=
  let sign := if e < 0 then ['-'] else if plus then ['+'] else []
  'e' :: (sign ++ Nat.toDigits 10 e.natAbs)

/-- The characters of a numeral. -/
def chars (plus : Bool) (n : Numeral) : List Char :=
  (if n.negative then ['-'] else [])
    ++ Digits.chars n.whole
    ++ (if n.fraction.isEmpty then [] else '.' :: Digits.chars n.fraction)
    ++ (match n.power with
        | none => []
        | some e => powerChars plus e)

/-- The written form of a numeral. -/
def text (plus : Bool) (n : Numeral) : String :=
  String.ofList (n.chars plus)

end Numeral

end Treewalk
