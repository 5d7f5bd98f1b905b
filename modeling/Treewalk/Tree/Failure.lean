import Treewalk.Json.Doc
import Treewalk.Number.Styles
import Treewalk.Text.Quoted

/-!
# Why a document is no tree

`DecodeError` lists the causes; `DecodeError.message?` is their wording, without the place in the
text.  The first cause stands for all texts that are no JSON within the limits of the reader; they
have no wording of their own.
-/

namespace Treewalk

open Json (Found)

/-- What was expected in a place. -/
inductive Expected where
  | text
  | flag
  | list
  | word
  | unit
  /-- The name of a variant. -/
  | tag
  /-- An index of a variant below `count`. -/
  | tagIndex (count : Nat)
  | nameOrObject
  | singleMember
  /-- A record by its name. -/
  | record (name : String)
  /-- A record of so many fields. -/
  | recordOf (name : String) (count : Nat)
  /-- A tagged node by the name of its family. -/
  | node (family : String)
  /-- So many items and no more. -/
  | items (count : Nat)
  deriving DecidableEq, Repr, Inhabited

/-- The wording of an expectation. -/
def Expected.describe : Expected → String
  | .text => "a string"
  | .flag => "a boolean"
  | .list => "a sequence"
  | .word => "usize"
  | .unit => "unit"
  | .tag => "variant identifier"
  | .tagIndex count => "variant index 0 <= i < " ++ decimal count
  | .nameOrObject => "string or map"
  | .singleMember => "map with a single key"
  | .record name => "struct " ++ name
  | .recordOf name count =>
    "struct " ++ name ++ " with " ++ decimal count
      ++ (if count = 1 then " element" else " elements")
  | .node family => "internally tagged enum " ++ family
  | .items count =>
    decimal count ++ (if count = 1 then " element in sequence" else " elements in sequence")

/-- The wording of what was found instead. -/
def describeFound : Found → String
  | .null => "null"
  | .boolean b => if b then "boolean `true`" else "boolean `false`"
  | .number (.natural n) => "integer `" ++ decimal n.toNat ++ "`"
  | .number (.negative n) => "integer `-" ++ decimal n.toNat ++ "`"
  | .number (.real x) => "floating point `" ++ NumberStyle.document.text x ++ "`"
  | .text s => "string " ++ Text.quoted s
  | .list => "sequence"
  | .object => "map"

/-- Why a document is no tree. -/
inductive DecodeError where
  /-- The text is not JSON, or it exceeds a limit of the reader. -/
  | notJson
  | missingField (name : String)
  | duplicateField (name : String)
  | unknownVariant (name : String) (known : List String)
  | invalidType (found : Found) (expected : Expected)
  | invalidValue (found : Found) (expected : Expected)
  | invalidLength (length : Nat) (expected : Expected)
  /-- The value of a literal is a list or an object. -/
  | noLiteral
  deriving DecidableEq, Inhabited

/-- The wording of an error without its place in the text, if it has one. -/
def DecodeError.message? : DecodeError → Option String
  | .notJson => none
  | .missingField name => some ("missing field `" ++ name ++ "`")
  | .duplicateField name => some ("duplicate field `" ++ name ++ "`")
  | .unknownVariant name known =>
    some ("unknown variant `" ++ name ++ "`, expected one of "
      ++ String.intercalate ", " (known.map fun k => "`" ++ k ++ "`"))
  | .invalidType found expected =>
    some ("invalid type: " ++ describeFound found ++ ", expected " ++ expected.describe)
  | .invalidValue found expected =>
    some ("invalid value: " ++ describeFound found ++ ", expected " ++ expected.describe)
  | .invalidLength length expected =>
    some ("invalid length " ++ decimal length ++ ", expected " ++ expected.describe)
  | .noLiteral => some "data did not match any variant of untagged enum LiteralValue"

end Treewalk
