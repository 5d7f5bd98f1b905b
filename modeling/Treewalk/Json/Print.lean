import Treewalk.Json.Doc

/-!
# Printing documents

Two written forms of a document: `Doc.compact` without any spaces, and `Doc.pretty` with one item or
member a line.  Each printer puts the text of a document in front of a given text, so that a whole
document is written in one pass.

## Main definitions

* `quoted` — a string with its quotes and escapes.
* `Doc.compact`, `Doc.pretty` — the two forms.
* `Doc.compactText`, `Doc.prettyText` — the same as strings.
-/

namespace Treewalk.Json

/-- The character of a hexadecimal digit. -/
def hexDigit (n : Nat) : Char :=
  if n < 10 then Char.ofNat ('0'.toNat + n) else Char.ofNat ('a'.toNat + (n - 10))

/-- A character inside a string.  Quotes, backslashes and controls are escaped, nothing else. -/
def escape (c : Char) : List Char :=
  match c with
  | '"' => ['\\', '"']
  | '\\' => ['\\', '\\']
  | '\n' => ['\\', 'n']
  | '\t' => ['\\', 't']
  | '\r' => ['\\', 'r']
  | '\x08' => ['\\', 'b']
  | '\x0c' => ['\\', 'f']
  | c =>
    if c.toNat < 0x20 then ['\\', 'u', '0', '0', hexDigit (c.toNat / 16), hexDigit (c.toNat % 16)]
    else [c]

/-- The inside of a string and its closing quote, in front of a text. -/
def escaped : List Char → List Char → List Char
  | [], rest => '"' :: rest
  | c :: cs, rest => escape c ++ escaped cs rest

/-- A string with its quotes, in front of a text. -/
def quoted (s : String) (rest : List Char) : List Char := '"' :: escaped s.toList rest

namespace Doc

/-- A document without parts.  What has no text is written as null. -/
def scalarChars : Doc → List Char → List Char
  | .boolean true, rest => "true".toList ++ rest
  | .boolean false, rest => "false".toList ++ rest
  | .number n, rest => n.chars true ++ rest
  | .text (some s), rest => quoted s rest
  | _, rest => "null".toList ++ rest

mutual

/-- A document without spaces, in front of a text. -/
def compact : Doc → List Char → List Char
  | .list items _, rest => '[' :: compactItems items (']' :: rest)
  | .object members _, rest => '{' :: compactMembers members ('}' :: rest)
  | d, rest => d.scalarChars rest

/-- Items with commas between them. -/
def compactItems : List Doc → List Char → List Char
  | [], rest => rest
  | [d], rest => d.compact rest
  | d :: d' :: ds, rest => d.compact (',' :: compactItems (d' :: ds) rest)

/-- Members with commas between them. -/
def compactMembers : List (Option String × Doc) → List Char → List Char
  | [], rest => rest
  | [(k, d)], rest => quoted (k.getD "") (':' :: d.compact rest)
  | (k, d) :: m :: ms, rest =>
    quoted (k.getD "") (':' :: d.compact (',' :: compactMembers (m :: ms) rest))

end

/-- A line break and two spaces for every level, in front of a text. -/
def newline (level : Nat) (rest : List Char) : List Char :=
  '\n' :: (List.replicate (2 * level) ' ' ++ rest)

mutual

/-- A document with one item or member a line, in front of a text.  An empty list or object stays on
its line. -/
def pretty (level : Nat) : Doc → List Char → List Char
  | .list [] _, rest => '[' :: ']' :: rest
  | .object [] _, rest => '{' :: '}' :: rest
  | .list (d :: ds) _, rest =>
    '[' :: newline (level + 1) (d.pretty (level + 1) (prettyItems (level + 1) ds
      (newline level (']' :: rest))))
  | .object ((k, d) :: ms) _, rest =>
    '{' :: newline (level + 1) (quoted (k.getD "") (':' :: ' ' :: d.pretty (level + 1)
      (prettyMembers (level + 1) ms (newline level ('}' :: rest)))))
  | d, rest => d.scalarChars rest

/-- Further items, each after a comma and on its own line. -/
def prettyItems (level : Nat) : List Doc → List Char → List Char
  | [], rest => rest
  | d :: ds, rest => ',' :: newline level (d.pretty level (prettyItems level ds rest))

/-- Further members, each after a comma and on its own line. -/
def prettyMembers (level : Nat) : List (Option String × Doc) → List Char → List Char
  | [], rest => rest
  | (k, d) :: ms, rest =>
    ',' :: newline level (quoted (k.getD "") (':' :: ' ' :: d.pretty level
      (prettyMembers level ms rest)))

end

/-- The compact text of a document. -/
def compactText (d : Doc) : String := String.ofList (d.compact [])

/-- The text of a document with one item or member a line. -/
def prettyText (d : Doc) : String := String.ofList (d.pretty 0 [])

end Doc

end Treewalk.Json
