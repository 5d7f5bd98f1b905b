import Treewalk.Command.Directory
import Treewalk.Command.Options
import Treewalk.Command.ReadLoop
import Treewalk.Tree.Encode
import Treewalk.Tree.Outline

/-!
# The program

The program reads a program tree from a file, prints it and, if asked to, runs it; or it reads
programs from the standard input, line by line.  Here it is a function from its arguments, the
files and the standard input to what it writes and its exit code.  How texts that are no programs
are reported is a parameter, as it is in the read loop.

## Main definitions

* `Response` — what the program writes, and its exit code.
* `respond` — the program.
-/

namespace Treewalk

/-- What the program writes, and its exit code. -/
structure Response where
  exit : UInt32 := 0
  stdout : String := ""
  stderr : String := ""
  deriving DecidableEq, Repr, Inhabited

/-- The name and the version of the program. -/
def versionText : String := "tern 0.1.0\n"

/-- How the program is called. -/
def usageText : String :=
  "Usage: tern [--json] [--run] [--repl] [--strict] [--max-depth <N>] <PROGRAM|--input <PATH>>\n"

/-- The response to a command line that is not carried out. -/
def UsageError.respond : UsageError → Response
  | .displayVersion => { stdout := versionText }
  | .displayHelp => { stdout := usageText }
  | _ => { exit := 2, stderr := usageText }

/-- A failure with a diagnostic. -/
def failure (diagnostic : String) (stdout : String) : Response :=
  { exit := 1, stdout, stderr := diagnostic ++ "\n" }

/-- The diagnostic of a standard input that is not text. -/
def unreadableInput : String := "error: " ++ FileFailure.notText.message

section

variable (report : List Char → String) (levels : Nat)

/-- The read loop on the standard input. -/
def respondRepl (config : Config) (stdin : List UInt8) : Response :=
  let t := readLines report levels (.new config) (inputLines stdin)
  if t.unreadable then
    { exit := 1, stdout := t.out, stderr := t.diag ++ unreadableInput ++ "\n" }
  else { stdout := t.out, stderr := t.diag }

/-- Print the program of a file, and run it if asked to. -/
def respondFile (o : Options) (text : String) : Response :=
  match Program.decode text with
  | .error _ => failure (refusal report text.toList) ""
  | .ok p =>
    let printed := (if o.json then p.prettyText else p.outline.text) ++ "\n"
    if o.run then
      let (outcome, _) := Machine.run levels p (.new o.config)
      match outcomeText outcome with
      | .ok text => { stdout := printed ++ text ++ "\n" }
      | .error diagnostic => failure diagnostic printed
    else { stdout := printed }

/-- Carry out options, given how files are read: with the bytes of a file, or with the reason why
there are none. -/
def respondOptions (o : Options) (read : String → Except FileFailure (List UInt8))
    (stdin : List UInt8) : Response :=
  if o.repl then respondRepl report levels o.config stdin
  else
    match o.path with
    | none => failure "error: no input file was provided" ""
    | some path =>
      let text := (read path).bind fun bytes =>
        match decodeText? bytes with
        | some text => .ok text
        | none => .error .notText
      match text with
      | .error e => failure ("error: cannot read `" ++ path ++ "`: " ++ e.message) ""
      | .ok text => respondFile report levels o text

/-- The program. -/
def respond (args : List String) (read : String → Except FileFailure (List UInt8))
    (stdin : List UInt8) : Response :=
  match Options.parse args with
  | .error e => e.respond
  | .ok o => respondOptions report levels o read stdin

end

end Treewalk
