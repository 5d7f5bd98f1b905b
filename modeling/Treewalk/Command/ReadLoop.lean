import Treewalk.Machine.Evaluate
import Treewalk.Text.Blank
import Treewalk.Tree.Decode

/-!
# The read loop

One program a line, each run on the machine as the line before has left it.  Whatever goes wrong
with a line is reported, and the loop goes on.

What is said of a text that is no program is worded by the reader of JSON, with the line and the
column at which it gave up.  Neither is fixed here: `report` is any function of the text.

## Main definitions

* `outcomeText` — how the end of a program is shown.
* `LineResult`, `readLine` — one line.
* `Transcript`, `readLines` — all lines up to one that says `exit`.
-/

namespace Treewalk

/-- How the end of a program is shown. -/
def Completion.text (c : Completion) : String := "=> " ++ c.value.display

/-- What is shown of a program that was halted. -/
def haltedText : String := "halted"

/-- The diagnostic of a text that is no program, with what the reader of JSON says of it. -/
def refusal (report : List Char → String) (text : List Char) : String :=
  "error: invalid program JSON: " ++ report text

/-- What a program shows, and what it reports instead if it fails. -/
def outcomeText (outcome : Except Stop Completion) : Except String String :=
  match outcome with
  | .ok c => .ok c.text
  | .error .halted => .ok haltedText
  | .error (.failed f) => .error f.diagnostic
  | .error .exhausted => .error "error: out of levels"

/-- What a line leaves behind. -/
structure LineResult where
  out : String := ""
  diag : String := ""
  machine : Machine

/-- Run the program of a line without blanks at its ends.  An empty line is no program. -/
def readLine (report : List Char → String) (levels : Nat) (m : Machine) (line : List Char) :
    LineResult :=
  if line.isEmpty then { machine := m }
  else
    match (Item.record .program).decode line with
    | .error _ => { diag := refusal report line ++ "\n", machine := m }
    | .ok p =>
      let (outcome, m) := m.run levels p
      match outcomeText outcome with
      | .ok text => { out := text ++ "\n", machine := m }
      | .error text => { diag := text ++ "\n", machine := m }

/-- What is written when a line is asked for. -/
def prompt : String := "> "

/-- What the loop wrote, how it left the machine, and whether it came to a line that is no text. -/
structure Transcript where
  out : String
  diag : String
  machine : Machine
  unreadable : Bool := false

/-- Run the program of each line, after a prompt for it.  A line that is no text ends the loop, and
so does one that says `exit` in any letter case. -/
def readLines (report : List Char → String) (levels : Nat) (m : Machine) :
    List (Option String) → Transcript
  | [] => { out := prompt, diag := "", machine := m }
  | none :: _ => { out := prompt, diag := "", machine := m, unreadable := true }
  | some line :: lines =>
    let line := Text.trim line.toList
    if Text.sameLetters line "exit".toList then { out := prompt, diag := "", machine := m }
    else
      let r := readLine report levels m line
      let rest := readLines report levels r.machine lines
      { rest with out := prompt ++ r.out ++ rest.out, diag := r.diag ++ rest.diag }

/-- Cut bytes after every line feed, which is dropped.  Nothing after the last one is no line. -/
def splitLines : List UInt8 → List UInt8 → List (List UInt8)
  | [], [] => []
  | line, [] => [line.reverse]
  | line, b :: bytes =>
    if b = 10 then line.reverse :: splitLines [] bytes else splitLines (b :: line) bytes

/-- The text that bytes encode. -/
def decodeText? (bytes : List UInt8) : Option String := String.fromUTF8? ⟨bytes.toArray⟩

/-- The lines of an input. -/
def inputLines (bytes : List UInt8) : List (Option String) :=
  (splitLines [] bytes).map decodeText?

end Treewalk
