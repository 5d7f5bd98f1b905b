import Treewalk.Command.Response

/-!
# The command line

The program of `Treewalk.Command.Response` on the files, the standard input and the arguments that
it is started with.
-/

namespace Treewalk

/-- Read a stream to its end. -/
partial def readToEnd (stream : IO.FS.Stream) (bytes : ByteArray) : IO ByteArray := do
  let next ← stream.read 65536
  if next.isEmpty then return bytes else readToEnd stream (bytes ++ next)

/-- The number that the system gives to an error.  Some are reported with a minus sign. -/
def systemCode : IO.Error → UInt32
  | .noFileOrDirectory _ code _ | .permissionDenied _ code _ | .invalidArgument _ code _
  | .inappropriateType _ code _ => if 0x7FFFFFFF < code then 0 - code else code
  | _ => 0

/-- Why a file cannot be read. -/
def readFailure (e : IO.Error) : FileFailure :=
  match systemCode e with
  | 2 => .missing
  | 13 => .denied
  | 20 => .notDirectory
  | 21 => .directory
  | 36 => .longName
  | _ => .other (toString e)

/-- Read a file, or say why it cannot be read. -/
def readFile (path : String) : IO (Except FileFailure (List UInt8)) := do
  try
    let bytes ← IO.FS.readBinFile path
    return .ok bytes.toList
  catch e => return .error (readFailure e)

/-- What is reported of a text that is no program: the cause, without its place in the text.  All
texts that are no JSON are reported alike. -/
def plainReport (text : List Char) : String :=
  match (Item.record .program).decode text with
  | .error e => e.message?.getD "the text is not JSON"
  | .ok _ => ""

end Treewalk

/-- Respond to the arguments.  Only what the options ask for is read. -/
def main (args : List String) : IO UInt32 := do
  let options := (Treewalk.Options.parse args).toOption.getD {}
  let stdin ← if options.repl then Treewalk.readToEnd (← IO.getStdin) .empty else pure .empty
  let file ←
    match options.repl, options.path with
    | false, some path => Treewalk.readFile path
    | _, _ => pure (.ok [])
  let response :=
    Treewalk.respond Treewalk.plainReport Treewalk.ampleLevels args (fun _ => file) stdin.toList
  (← IO.getStdout).putStr response.stdout
  (← IO.getStderr).putStr response.stderr
  return response.exit
