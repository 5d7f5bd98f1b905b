import Treewalk.Json.Doc
import Treewalk.Number.Reading

/-!
# Scanning documents

`scan` turns a text into the document at its head and what follows it.  It never fails: a text that
is not JSON gives a document with a broken place, after which nothing is scanned.

## Main definitions

* `skipBlank`, `scanNumeral?`, `scanString?` — the leaves.
* `scanValue` — documents, with a bound on the number of nested steps.
* `scan` — documents, the bound taken from the length of the text.
-/

namespace Treewalk.Json

/-- The characters that may stand between the parts of a document. -/
def isSpace (c : Char) : Bool := c == ' ' || c == '\n' || c == '\t' || c == '\r'

/-- Drop the spaces at the head of a text. -/
def skipBlank (cs : List Char) : List Char := cs.dropWhile isSpace

/-- Drop a given text at the head of a text. -/
def dropPrefix? : List Char → List Char → Option (List Char)
  | [], cs => some cs
  | _ :: _, [] => none
  | p :: ps, c :: cs => if p = c then dropPrefix? ps cs else none

/-- The digits before the point: a zero, or digits that do not begin with one. -/
def scanWhole? (cs : List Char) : Option (List Nat × List Char) :=
  let (digits, rest) := Number.spanDigits cs
  match digits with
  | [] => none
  | 0 :: _ :: _ => none
  | digits => some (digits, rest)

/-- The point and the digits after it, if there is a point. -/
def scanFraction? : List Char → Option (List Nat × List Char)
  | '.' :: cs =>
    let (digits, rest) := Number.spanDigits cs
    if digits.isEmpty then none else some (digits, rest)
  | cs => some ([], cs)

/-- The exponent, if there is one. -/
def scanPower? : List Char → Option (Option Int × List Char)
  | [] => some (none, [])
  | c :: cs =>
    if c = 'e' ∨ c = 'E' then
      let (negative, cs) := Number.takeSign cs
      let (digits, rest) := Number.spanDigits cs
      let power : Int := Digits.value digits
      if digits.isEmpty then none else some (some (if negative then -power else power), rest)
    else some (none, c :: cs)

/-- A numeral and what follows it. -/
def scanNumeral? (cs : List Char) : Option (Numeral × List Char) := do
  let (negative, cs) := match cs with
    | '-' :: cs => (true, cs)
    | cs => (false, cs)
  let (whole, cs) ← scanWhole? cs
  let (fraction, cs) ← scanFraction? cs
  let (power, cs) ← scanPower? cs
  return (⟨negative, whole, fraction, power⟩, cs)

/-- The value of a hexadecimal digit. -/
def hexValue? (c : Char) : Option Nat :=
  if '0' ≤ c ∧ c ≤ '9' then some (c.toNat - '0'.toNat)
  else if 'a' ≤ c ∧ c ≤ 'f' then some (c.toNat - 'a'.toNat + 10)
  else if 'A' ≤ c ∧ c ≤ 'F' then some (c.toNat - 'A'.toNat + 10)
  else none

/-- The value of four hexadecimal digits. -/
def hexValue4? (a b c d : Char) : Option Nat := do
  let a ← hexValue? a
  let b ← hexValue? b
  let c ← hexValue? c
  let d ← hexValue? d
  return ((a * 16 + b) * 16 + c) * 16 + d

/-- The character of an escape of one letter. -/
def escaped? : Char → Option Char
  | '"' => some '"'
  | '\\' => some '\\'
  | '/' => some '/'
  | 'b' => some '\x08'
  | 'f' => some '\x0c'
  | 'n' => some '\n'
  | 'r' => some '\r'
  | 't' => some '\t'
  | _ => none

/-- What is left to scan of a string gives its value, if it has one, and what follows it. -/
abbrev StringTail := Option (Option (List Char) × List Char)

/-- Put a character in front of the value of a string. -/
def StringTail.cons (c : Char) (tail : StringTail) : StringTail :=
  tail.map fun (value, rest) => (value.map (c :: ·), rest)

/-- The string has no value if the first half of a surrogate pair is still open. -/
def StringTail.settle (half : Option Nat) (tail : StringTail) : StringTail :=
  match half with
  | none => tail
  | some _ => tail.map fun (_, rest) => (none, rest)

/-- The character of a surrogate pair. -/
def pairChar (high low : Nat) : Char :=
  Char.ofNat (0x10000 + (high - 0xD800) * 0x400 + (low - 0xDC00))

/-- The rest of a string after its opening quote, up to the closing quote, and what follows that.
`half` is the first half of a surrogate pair if an escape of one comes right before.  There is no
result if the text is no string. -/
def scanString? : Option Nat → List Char → StringTail
  | _, [] => none
  | half, c :: cs =>
    if c = '"' then .settle half (some (some [], cs))
    else if c.toNat < 0x20 then none
    else if c = '\\' then
      match cs with
      | [] => none
      | e :: cs =>
        if e = 'u' then
          match cs with
          | h1 :: h2 :: h3 :: h4 :: cs =>
            match hexValue4? h1 h2 h3 h4, half with
            | none, _ => none
            | some n, none =>
              if n < 0xD800 ∨ 0xDFFF < n then .cons (Char.ofNat n) (scanString? none cs)
              else if n < 0xDC00 then scanString? (some n) cs
              else .settle (some n) (scanString? none cs)
            | some n, some m =>
              if n < 0xDC00 ∨ 0xDFFF < n then
                .settle (some m) (scanString? (if n < 0xD800 ∨ 0xDFFF < n then none else some n) cs)
              else .cons (pairChar m n) (scanString? none cs)
          | _ => none
        else
          match escaped? e with
          | none => none
          | some c => .settle half (.cons c (scanString? none cs))
    else .settle half (.cons c (scanString? none cs))

/-- A string from its opening quote on. -/
def scanText? : List Char → Option (Option String × List Char)
  | '"' :: cs => (scanString? none cs).map fun (value, rest) => (value.map String.ofList, rest)
  | _ => none

/-- A document without parts, and what follows it. -/
def scanScalar? (cs : List Char) : Option (Doc × List Char) :=
  match cs with
  | 'n' :: cs => (dropPrefix? "ull".toList cs).map (.null, ·)
  | 't' :: cs => (dropPrefix? "rue".toList cs).map (.boolean true, ·)
  | 'f' :: cs => (dropPrefix? "alse".toList cs).map (.boolean false, ·)
  | '"' :: _ => (scanText? cs).map fun (s, rest) => (.text s, rest)
  | cs => (scanNumeral? cs).map fun (n, rest) => (.number n, rest)

mutual

/-- The document at the head of a text and what follows it; nothing follows a broken place.  With
the bound used up the document is broken. -/
def scanValue : Nat → List Char → Doc × Option (List Char)
  | 0, _ => (.broken, none)
  | bound + 1, cs =>
    match skipBlank cs with
    | '[' :: cs =>
      match skipBlank cs with
      | ']' :: rest => (.list [] .closed, some rest)
      | cs =>
        let (items, ending, rest) := scanItems bound cs
        (.list items ending, rest)
    | '{' :: cs =>
      match skipBlank cs with
      | '}' :: rest => (.object [] .closed, some rest)
      | cs =>
        let (members, ending, rest) := scanMembers bound cs
        (.object members ending, rest)
    | cs =>
      match scanScalar? cs with
      | some (d, rest) => (d, some rest)
      | none => (.broken, none)

/-- The items of a list up to its closing bracket. -/
def scanItems : Nat → List Char → List Doc × Ending × Option (List Char)
  | 0, _ => ([], .broken, none)
  | bound + 1, cs =>
    match scanValue bound cs with
    | (d, none) => ([d], .broken, none)
    | (d, some rest) =>
      match skipBlank rest with
      | ']' :: rest => ([d], .closed, some rest)
      | ',' :: rest =>
        let (ds, ending, rest) := scanItems bound rest
        (d :: ds, ending, rest)
      | _ => ([d], .broken, none)

/-- The members of an object up to its closing brace. -/
def scanMembers : Nat → List Char → List (Option String × Doc) × Ending × Option (List Char)
  | 0, _ => ([], .broken, none)
  | bound + 1, cs =>
    match skipBlank cs with
    | '"' :: cs =>
      match scanText? ('"' :: cs) with
      | none => ([], .broken, none)
      | some (key, rest) =>
        match skipBlank rest with
        | ':' :: rest =>
          match scanValue bound rest with
          | (d, none) => ([(key, d)], .broken, none)
          | (d, some rest) =>
            match skipBlank rest with
            | '}' :: rest => ([(key, d)], .closed, some rest)
            | ',' :: rest =>
              let (ms, ending, rest) := scanMembers bound rest
              ((key, d) :: ms, ending, rest)
            | _ => ([(key, d)], .broken, none)
        | _ => ([(key, .broken)], .broken, none)
    | _ => ([], .broken, none)

end

/-- The document at the head of a text and what follows it.  Each step takes a character or goes
one level down, and no level is empty, so that twice the length bounds the nesting of steps. -/
def scan (cs : List Char) : Doc × Option (List Char) :=
  scanValue (2 * cs.length + 2) cs

end Treewalk.Json
