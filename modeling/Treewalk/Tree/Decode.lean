import Treewalk.Json.Scan
import Treewalk.Tree.Failure
import Treewalk.Tree.Layout

/-!
# Reading trees

The reader follows a document from left to right and stops at the first failure.  A record is an
object with its fields under their names, in any order and with unknown fields between them, or a
list of its fields in their order.  A statement or an expression is a record with its tag under
`type`, or a list of its tag and its fields.

A document is read in one of two modes.  In streaming mode the reader goes along the text, so that a
fault of the text counts only when the reader comes to it.  A tagged node outside any other is
kept as a whole first, because the tag may stand anywhere in it; its parts are then read from what
was kept.  The modes differ in what they allow in some places and in which failure is found first.

`room` is the number of levels of nesting that are left; lists and objects take one each.

## Main definitions

* `Mode`, `Reader` — the modes and the type of readers.
* `Partial`, `Partial.fill?`, `Partial.complete` — records that are being read.
* `readMembers`, `readSequence` — the two written forms of a record.
* `readNode` — tagged nodes.
* `Item.read` — all items.
* `Item.decode` — an item that is a whole text.
-/

namespace Treewalk

open Json (Doc Ending)

/-- How a document is read. -/
inductive Mode where
  /-- Along the text. -/
  | streaming
  /-- From a part of the text that was kept. -/
  | kept
  deriving DecidableEq, Repr

/-- A reader of items. -/
abbrev Reader := (i : Item) → Doc → Except DecodeError i.Carrier

/-- The failure at a document that is not of the expected kind. -/
def mismatch (d : Doc) (expected : Expected) : DecodeError :=
  match d.found? with
  | some found => .invalidType found expected
  | none => .notJson

namespace Read

/-- A string. -/
def text : Doc → Except DecodeError String
  | .text (some s) => .ok s
  | d => .error (mismatch d .text)

/-- A boolean. -/
def flag : Doc → Except DecodeError Bool
  | .boolean b => .ok b
  | d => .error (mismatch d .flag)

/-- A natural number of 64 bits. -/
def word : Doc → Except DecodeError UInt64
  | .number n =>
    match n.quantity? with
    | some (.natural w) => .ok w
    | some (.negative w) => .error (.invalidValue (.number (.negative w)) .word)
    | some (.real x) => .error (.invalidType (.number (.real x)) .word)
    | none => .error .notJson
  | d => .error (mismatch d .word)

/-- The value of a literal: anything but a list or an object, which are read to their ends. -/
def literalValue (room : Nat) : Doc → Except DecodeError LiteralValue
  | .null => .ok .null
  | .boolean b => .ok (.bool b)
  | .text (some s) => .ok (.text s)
  | .number n =>
    match n.quantity? with
    | some q => .ok (.number q.toFloat)
    | none => .error .notJson
  | d => .error (if d.sound room then .noLiteral else .notJson)

/-- A member of an enumeration by its name. -/
def named (c : Choice) (name : String) : Except DecodeError c.Carrier :=
  match c.members.lookup name with
  | some x => .ok x
  | none => .error (.unknownVariant name c.names)

/-- A member of an enumeration: its name, or an object with its name and null.  What is no name and
no object at all is not even looked at along the text. -/
def choice (c : Choice) (mode : Mode) (room : Nat) (d : Doc) : Except DecodeError c.Carrier :=
  match mode, d with
  | _, .text (some s) => named c s
  | .streaming, .object members ending =>
    if room = 0 then .error .notJson
    else
      match members with
      | (some key, value) :: rest => do
        let x ← named c key
        match value with
        | .null => if rest.isEmpty && ending == .closed then .ok x else .error .notJson
        | value => .error (mismatch value .unit)
      | _ => .error .notJson
  | .streaming, _ => .error .notJson
  | .kept, .object [(some key, value)] _ => do
    let x ← named c key
    match value with
    | .null | .object [] _ => .ok x
    | value => .error (mismatch value .unit)
  | .kept, .object _ _ => .error (.invalidValue .object .singleMember)
  | .kept, d => .error (mismatch d .nameOrObject)

/-- The items of a list. -/
def items {α : Type} (read : Doc → Except DecodeError α) (ending : Ending) :
    List Doc → Except DecodeError (List α)
  | [] => if ending = .closed then .ok [] else .error .notJson
  | d :: ds => do
    let x ← read d
    let xs ← items read ending ds
    return x :: xs

/-- A place in a record. -/
def shape (read : Reader) : (s : Shape) → Doc → Except DecodeError s.Carrier
  | .plain i, d => read i d
  | .optional _, .null => .ok none
  | .optional i, d => (read i d).map some

end Read

/-- A record that is being read: the fields that were given. -/
def Partial : List Field → Type
  | [] => Unit
  | f :: fs => Option f.shape.Carrier × Partial fs

namespace Partial

/-- No field was given. -/
def empty : (fs : List Field) → Partial fs
  | [] => ()
  | _ :: fs => (none, empty fs)

/-- Read the value of a field under a key.  A field that was given before is refused before its
value is looked at.  There is no result if no field has the key. -/
def fill? (read : Reader) (key : String) (d : Doc) :
    (fs : List Field) → Partial fs → Option (Except DecodeError (Partial fs))
  | [], _ => none
  | f :: fs, (given, others) =>
    if f.answersTo key then
      some <|
        match given with
        | some _ => .error (.duplicateField f.name)
        | none => (Read.shape read f.shape d).map fun x => (some x, others)
    else (fill? read key d fs others).map fun r => r.map fun others => (given, others)

/-- Give the fallbacks for the fields that are missing.  The first field without one is reported. -/
def complete : (fs : List Field) → Partial fs → Except DecodeError (Filled fs)
  | [], _ => .ok ()
  | f :: fs, (given, others) =>
    match given <|> f.fallback with
    | some x => (complete fs others).map fun xs => (x, xs)
    | none => .error (.missingField f.name)

end Partial

/-- The members of a record.  The value of an unknown member only has to be JSON in its grammar. -/
def readMembers (read : Reader) (fs : List Field) (ending : Ending) :
    Partial fs → List (Option String × Doc) → Except DecodeError (Filled fs)
  | p, [] => if ending = .closed then p.complete fs else .error .notJson
  | _, (none, _) :: _ => .error .notJson
  | p, (some key, d) :: ms =>
    match p.fill? read key d with
    | some (.ok p) => readMembers read fs ending p ms
    | some (.error e) => .error e
    | none => if d.complete then readMembers read fs ending p ms else .error .notJson

/-- The fields of a record in their order, and the items after them.  `position` counts the fields
before. -/
def readFields (read : Reader) (record : Expected) (ending : Ending) :
    Nat → (fs : List Field) → List Doc → Except DecodeError (Filled fs × List Doc)
  | _, [], ds => .ok ((), ds)
  | position, f :: fs, d :: ds => do
    let x ← Read.shape read f.shape d
    let (xs, rest) ← readFields read record ending (position + 1) fs ds
    return ((x, xs), rest)
  | position, f :: fs, [] =>
    if ending ≠ .closed then .error .notJson
    else
      match f.fallback with
      | some x => do
        let (xs, rest) ← readFields read record ending (position + 1) fs []
        return ((x, xs), rest)
      | none => .error (.invalidLength position record)

/-- A record as a list.  More items than fields are refused. -/
def readSequence (mode : Mode) (read : Reader) (r : Record) (ds : List Doc) (ending : Ending) :
    Except DecodeError (Filled r.fields) := do
  let (xs, rest) ← readFields read (.recordOf r.name r.fields.length) ending 0 r.fields ds
  if mode = .kept ∧ rest ≠ [] then
    .error (.invalidLength ds.length (.items r.fields.length))
  else if rest ≠ [] ∨ ending ≠ .closed then .error .notJson
  else .ok xs

/-- A record. -/
def readRecord (mode : Mode) (room : Nat) (read : Reader) (r : Record) (d : Doc) :
    Except DecodeError r.Carrier :=
  match d with
  | .object members ending =>
    if room = 0 then .error .notJson
    else (readMembers read r.fields ending (Partial.empty r.fields) members).map (Filled.build r)
  | .list ds ending =>
    if room = 0 then .error .notJson
    else (readSequence mode read r ds ending).map (Filled.build r)
  | d => .error (mismatch d (.record r.name))

/-- The tag of a node.  Inside another node it may also be the index of the kind. -/
def readTag (mode : Mode) (f : Family) (d : Doc) : Except DecodeError (Variant f) :=
  match d with
  | .text (some s) =>
    match f.variant? s with
    | some v => .ok v
    | none => .error (.unknownVariant s f.tags)
  | .number n =>
    match mode, n.quantity? with
    | .kept, some (.natural w) =>
      match f.variants[w.toNat]? with
      | some v => .ok v
      | none => .error (.invalidValue (.number (.natural w)) (.tagIndex f.variants.length))
    | _, _ => .error (mismatch d .tag)
  | d => .error (mismatch d .tag)

/-- The tag among the members of a node, and the other members, all of which are kept. -/
def readTagged {f : Family} (mode : Mode) (room : Nat) :
    Option (Variant f) → List (Option String × Doc) →
      Except DecodeError (Option (Variant f) × List (Option String × Doc))
  | tag, [] => .ok (tag, [])
  | _, (none, _) :: _ => .error .notJson
  | tag, (some key, d) :: ms =>
    if key = "type" then
      match tag with
      | some _ => .error (.duplicateField "type")
      | none => do
        let v ← readTag mode f d
        readTagged mode room (some v) ms
    else if d.sound room then do
      let (tag, others) ← readTagged mode room tag ms
      return (tag, (some key, d) :: others)
    else .error .notJson

/-- A statement or an expression.  `read` reads its parts from what was kept. -/
def readNode (mode : Mode) (room : Nat) (read : Reader) (f : Family) (d : Doc) :
    Except DecodeError f.Carrier :=
  match d with
  | .object members ending =>
    if room = 0 then .error .notJson
    else do
      let (tag, others) ← readTagged mode (room - 1) none members
      if ending ≠ .closed then .error .notJson
      else
        match tag with
        | none => .error (.missingField "type")
        | some v =>
          (readMembers read v.record.fields .closed (Partial.empty v.record.fields) others).map
            fun xs => v.wrap (xs.build v.record)
  | .list ds ending =>
    if room = 0 then .error .notJson
    else
      match ds with
      | [] => if ending = .closed then .error (.missingField "type") else .error .notJson
      | d :: ds => do
        let v ← readTag mode f d
        if ds.all (Doc.sound (room - 1)) && ending == .closed then
          (readSequence .kept read v.record ds .closed).map fun xs => v.wrap (xs.build v.record)
        else .error .notJson
  | d => .error (mismatch d (.node f.name))

/-- Read an item, given readers of the parts of lists and objects: `inner` in the same mode, and
`keptInner` from what was kept. -/
def readLevel (mode : Mode) (room : Nat) (inner keptInner : Reader) : Reader
  | .text, d => Read.text d
  | .flag, d => Read.flag d
  | .word, d => Read.word d
  | .literalValue, d => Read.literalValue room d
  | .choice c, d => Read.choice c mode room d
  | .record r, d => readRecord mode room inner r d
  | .node f, d => readNode mode room keptInner f d
  | .list i, d =>
    match d with
    | .list ds ending => if room = 0 then .error .notJson else Read.items (inner i) ending ds
    | d => .error (mismatch d .list)

/-- Read an item with so many levels of nesting left. -/
def Item.read : Nat → Mode → Reader
  | 0, mode => readLevel mode 0 (fun _ _ => .error .notJson) (fun _ _ => .error .notJson)
  | room + 1, mode => readLevel mode (room + 1) (Item.read room mode) (Item.read room .kept)

/-- How deep the lists and objects of a text may nest. -/
def nestingLimit : Nat := 127

/-- Read an item from a document. -/
def Item.ofDoc (i : Item) (d : Doc) : Except DecodeError i.Carrier :=
  Item.read nestingLimit .streaming i d

/-- Read an item that makes up a whole text, spaces at the ends apart. -/
def Item.decode (i : Item) (cs : List Char) : Except DecodeError i.Carrier := do
  let (d, rest) := Json.scan cs
  let x ← i.ofDoc d
  match rest with
  | some rest => if (Json.skipBlank rest).isEmpty then .ok x else .error .notJson
  | none => .error .notJson

/-- Read a program. -/
def Program.decode (text : String) : Except DecodeError Program :=
  (Item.record .program).decode text.toList

end Treewalk
