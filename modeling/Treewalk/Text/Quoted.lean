import Treewalk.Text.Printable
import Treewalk.Text.Extending

/-!
# Quoted strings in diagnostics

The form in which a string is shown to people: in quotes, with an escape for whatever could not be
told apart otherwise.  `Text.quoted` escapes quotes, backslashes, characters that are not printable
and characters that would be shown as a part of the one before.
-/

namespace Treewalk.Text

/-- A character by its number. -/
def numbered (c : Char) : List Char :=
  ['\\', 'u', '\x7b'] ++ Nat.toDigits 16 c.toNat ++ ['\x7d']

/-- A character inside quotes. -/
def shown (c : Char) : List Char :=
  match c with
  | '\x00' => ['\\', '0']
  | '\t' => ['\\', 't']
  | '\r' => ['\\', 'r']
  | '\n' => ['\\', 'n']
  | '"' => ['\\', '"']
  | '\\' => ['\\', '\\']
  | c => if isExtending c || !isPrintable c then numbered c else [c]

/-- A string in quotes. -/
def quoted (s : String) : String :=
  String.ofList ('"' :: s.toList.flatMap shown ++ ['"'])

end Treewalk.Text
