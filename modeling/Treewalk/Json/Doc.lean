import Treewalk.Number.Quantity

/-!
# Documents as they are read

A `Doc` is what a reader sees of a JSON text from left to right.  A text that is not JSON still has
one: where the reader has to stop, the document has the node `Doc.broken`, or a list or an object
whose `Ending` says so.  A consumer that fails before it comes to that place reports its own
failure, and one that comes to it reports that the text is no JSON.

What only some consumers refuse is kept: numerals as they are written, whatever their size, strings
with an unpaired surrogate escape, and any depth of nesting.

## Main definitions

* `Doc` — documents.
* `Ending` — how a list or an object ends.
* `Found` — what a document is at its head, as diagnostics name it.
-/

namespace Treewalk.Json

/-- The head of a document. -/
inductive Found where
  | null
  | boolean (b : Bool)
  | number (q : Quantity)
  | text (s : String)
  | list
  | object
  deriving DecidableEq, Inhabited

/-- How a list or an object ends. -/
inductive Ending where
  | closed
  /-- The text ends, or goes on with something that cannot stand here. -/
  | broken
  deriving DecidableEq, Repr, Inhabited

/-- A document.  A string without a value is one with an unpaired surrogate escape. -/
inductive Doc where
  | null
  | boolean (b : Bool)
  | number (n : Numeral)
  | text (s : Option String)
  | list (items : List Doc) (ending : Ending)
  | object (members : List (Option String × Doc)) (ending : Ending)
  | broken
  deriving Inhabited

namespace Doc

/-- The head of a document.  There is none of a broken document, of a number out of range and of a
string without a value. -/
def found? : Doc → Option Found
  | .null => some .null
  | .boolean b => some (.boolean b)
  | .number n => n.quantity?.map .number
  | .text s => s.map .text
  | .list _ _ => some .list
  | .object _ _ => some .object
  | .broken => none

/-- A closed list. -/
def ofList (items : List Doc) : Doc := .list items .closed

/-- A closed object. -/
def ofMembers (members : List (String × Doc)) : Doc :=
  .object (members.map fun (k, d) => (some k, d)) .closed

/-- The document of a string. -/
def ofString (s : String) : Doc := .text (some s)

/-- The document of a natural number. -/
def ofNat (n : Nat) : Doc := .number (Numeral.ofNat n)

mutual

/-- Whether the whole of a document can be kept for later: it is complete JSON, its numbers are in
range, its strings have values, and lists and objects nest at most `room` deep. -/
def sound (room : Nat) : Doc → Bool
  | .null | .boolean _ => true
  | .number n => n.quantity?.isSome
  | .text s => s.isSome
  | .list items ending =>
    match room with
    | 0 => false
    | room + 1 => soundItems room items && ending == .closed
  | .object members ending =>
    match room with
    | 0 => false
    | room + 1 => soundMembers room members && ending == .closed
  | .broken => false

/-- Whether all items are sound. -/
def soundItems (room : Nat) : List Doc → Bool
  | [] => true
  | d :: ds => d.sound room && soundItems room ds

/-- Whether all members have a key and are sound. -/
def soundMembers (room : Nat) : List (Option String × Doc) → Bool
  | [] => true
  | (k, d) :: ms => k.isSome && d.sound room && soundMembers room ms

end

mutual

/-- How deep lists and objects nest. -/
def depth : Doc → Nat
  | .list items _ => depthItems items + 1
  | .object members _ => depthMembers members + 1
  | _ => 0

/-- The largest depth of an item. -/
def depthItems : List Doc → Nat
  | [] => 0
  | d :: ds => max d.depth (depthItems ds)

/-- The largest depth of a member. -/
def depthMembers : List (Option String × Doc) → Nat
  | [] => 0
  | (_, d) :: ms => max d.depth (depthMembers ms)

end

mutual

/-- Whether the text of a document is JSON, which leaves open sizes of numbers, values of strings
and nesting. -/
def complete : Doc → Bool
  | .list items ending => completeItems items && ending == .closed
  | .object members ending => completeMembers members && ending == .closed
  | .broken => false
  | _ => true

/-- Whether all items are complete. -/
def completeItems : List Doc → Bool
  | [] => true
  | d :: ds => d.complete && completeItems ds

/-- Whether all members are complete. -/
def completeMembers : List (Option String × Doc) → Bool
  | [] => true
  | (_, d) :: ms => d.complete && completeMembers ms

end

end Doc

end Treewalk.Json
