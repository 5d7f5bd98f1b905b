import Treewalk.Number.Reading
import Treewalk.Number.Styles
import Treewalk.Tree.Node
import Treewalk.Value.Entries

/-!
# Values

The results of expressions.  Arrays and objects never change once they are built.

## Main definitions

* `Value` — values.
* `Value.display` — the text of a value, as it is shown, concatenated and used for keys.
* `Value.isTruthy`, `Value.toNumber`, `Value.typeName` — conversions.
* `Value.same` — equality of values.
-/

namespace Treewalk

/-- A value. -/
inductive Value where
  /-- The value of an unbound name, a missing initializer or a missing key. -/
  | absent
  | null
  | bool (b : Bool)
  | number (x : Float)
  | text (s : String)
  | array (items : List Value)
  | object (entries : List (String × Value))
  deriving Inhabited

/-- The value of a literal. -/
def LiteralValue.toValue : LiteralValue → Value
  | .null => .null
  | .bool b => .bool b
  | .number x => .number x
  | .text s => .text s

/-- The text of a number.  Neither zero has a sign. -/
def numberText (x : Float) : String :=
  if x == 0 then "0" else NumberStyle.plain.text x

namespace Value

/-- Whether a value is the absent one. -/
def isAbsent : Value → Bool
  | .absent => true
  | _ => false

/-- Whether a value is absent or null. -/
def isNullish : Value → Bool
  | .absent | .null => true
  | _ => false

/-- Whether a value counts as true.  Absent and null, zeros, what is not a number, and the empty
string do not. -/
def isTruthy : Value → Bool
  | .absent | .null => false
  | .bool b => b
  | .number x => !(x == 0) && !x.isNaN
  | .text s => !s.isEmpty
  | .array _ | .object _ => true

/-- The number that an arithmetic operator takes a value for.  A blank string is zero. -/
def toNumber : Value → Float
  | .absent | .array _ | .object _ => Number.nan
  | .null => 0
  | .bool b => if b then 1 else 0
  | .number x => x
  | .text s =>
    let cs := Text.trim s.toList
    if cs.isEmpty then 0 else (Number.read? cs).getD Number.nan

/-- The name of the type of a value. -/
def typeName : Value → String
  | .absent => "undefined"
  | .null => "null"
  | .bool _ => "boolean"
  | .number _ => "number"
  | .text _ => "string"
  | .array _ => "array"
  | .object _ => "object"

mutual

/-- The text of a value.  The items of an array are separated by commas, and an absent item or null
has the empty text. -/
def display : Value → String
  | .absent => "undefined"
  | .null => "null"
  | .bool b => if b then "true" else "false"
  | .number x => numberText x
  | .text s => s
  | .array items => String.intercalate "," (displayItems items)
  | .object _ => "[object Object]"

/-- The texts of the items of an array. -/
def displayItems : List Value → List String
  | [] => []
  | v :: vs => (if v.isNullish then "" else v.display) :: displayItems vs

end

mutual

/-- Equality of values: part by part, and of numbers by value.  The entries of objects have to be in
the same order. -/
def same : Value → Value → Bool
  | .absent, .absent => true
  | .null, .null => true
  | .bool a, .bool b => a == b
  | .number x, .number y => x == y
  | .text s, .text t => s == t
  | .array as, .array bs => sameItems as bs
  | .object as, .object bs => sameEntries as bs
  | _, _ => false

/-- Whether two lists of values are the same. -/
def sameItems : List Value → List Value → Bool
  | [], [] => true
  | a :: as, b :: bs => a.same b && sameItems as bs
  | _, _ => false

/-- Whether two lists of entries are the same. -/
def sameEntries : List (String × Value) → List (String × Value) → Bool
  | [], [] => true
  | (k, a) :: as, (l, b) :: bs => k == l && a.same b && sameEntries as bs
  | _, _ => false

end

end Value

end Treewalk
