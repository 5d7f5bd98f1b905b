import Treewalk.Value.Basic

/-!
# Members of values

`Value.member` is what a member expression yields once its object and its key are known.  It never
fails: whatever has no such member yields the absent value.

## Main definitions

* `Value.index?` — the position that a key denotes, as far as there are indices.
* `Value.member` — the member under a key.
-/

namespace Treewalk.Value

/-- The largest index, which is the largest word. -/
def maxIndex : Nat := UInt64.size - 1

/-- The position that a key denotes: a number that is a natural number, or a text of digits.  A
number that is too large for an index is taken for the largest one, and a text of such digits for
none. -/
def index? : Value → Option Nat
  | .number x => (Number.index? x).map (min maxIndex)
  | .text s =>
    let cs := s.toList
    if !cs.isEmpty && cs.all Number.isDigit then
      let n := Digits.value (cs.map Number.digitValue)
      if n ≤ maxIndex then some n else none
    else none
  | _ => none

/-- Whether a key asks for the number of elements. -/
def isLengthKey : Value → Bool
  | .text s => s == "length"
  | _ => false

/-- One of `count` elements by its key, or their number. -/
def element (count : Nat) (at? : Nat → Option Value) (key : Value) : Value :=
  if key.isLengthKey then .number (UInt64.ofNat count).toFloat
  else (key.index?.bind at?).getD .absent

/-- The member of a value under a key.  A string has its characters for elements. -/
def member (object key : Value) : Value :=
  match object with
  | .object entries => (Entries.get? key.display entries).getD .absent
  | .array items => element items.length (fun i => items[i]?) key
  | .text s => element s.length (fun i => s.toList[i]?.map fun c => .text (String.singleton c)) key
  | _ => .absent

end Treewalk.Value
