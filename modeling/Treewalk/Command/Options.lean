import Treewalk.Machine.State
import Treewalk.Number.Reading

/-!
# Options of the command line

The program takes a program file, by its position or as the value of `--input`, and some flags.  The
value of an option is its next argument, or what follows an equals sign.  A value that comes as an
argument of its own is checked when the argument after it turns out to be fine, so that an unknown
argument is reported before it.

## Main definitions

* `Options`, `UsageError` — what a command line means, and why it means nothing.
* `ArgumentState`, `ArgumentState.take` — one argument after the other.
* `Options.parse` — a command line.
-/

namespace Treewalk

/-- The meaning of a command line. -/
structure Options where
  /-- The program file given by its position. -/
  program : Option String := none
  /-- The program file given as the value of `--input`. -/
  input : Option String := none
  json : Bool := false
  run : Bool := false
  repl : Bool := false
  strict : Bool := false
  maxDepth : Option Nat := none
  deriving DecidableEq, Repr, Inhabited

/-- Why a command line is not carried out.  Asking for help or for the version is one reason. -/
inductive UsageError where
  | unknownArgument
  /-- Two arguments exclude each other, or one is given twice. -/
  | argumentConflict
  | missingRequiredArgument
  | valueValidation
  /-- A value is empty or missing. -/
  | invalidValue
  /-- A flag is given a value. -/
  | tooManyValues
  | displayHelp
  | displayVersion
  deriving DecidableEq, Repr, Inhabited

namespace Options

/-- The program file. -/
def path (o : Options) : Option String := o.program <|> o.input

/-- The settings of the machine. -/
def config (o : Options) : Config where
  policy := if o.strict then .strict else .permissive
  maxCallDepth := o.maxDepth.getD ({} : Config).maxCallDepth

end Options

/-- The arguments with a value. -/
inductive Valued where
  | program
  | input
  | maxDepth
  deriving DecidableEq, Repr

/-- The flags. -/
inductive Flag where
  | json
  | run
  | repl
  | strict
  deriving DecidableEq, Repr

/-- The arguments that begin with two dashes. -/
inductive LongArgument where
  | flag (f : Flag)
  | valued (v : Valued)
  | help
  | version

/-- The argument with a given name. -/
def LongArgument.ofName? : String → Option LongArgument
  | "input" => some (.valued .input)
  | "max-depth" => some (.valued .maxDepth)
  | "json" => some (.flag .json)
  | "run" => some (.flag .run)
  | "repl" => some (.flag .repl)
  | "strict" => some (.flag .strict)
  | "help" => some .help
  | "version" => some .version
  | _ => none

/-- A natural number of 64 bits: digits after an optional plus sign. -/
def readCount? (s : String) : Option Nat :=
  let digits := match s.toList with
    | '+' :: cs => cs
    | cs => cs
  let n := Digits.value (digits.map Number.digitValue)
  if digits.isEmpty || !digits.all Number.isDigit || decide (UInt64.size ≤ n) then none else some n

/-- The arguments that were taken so far. -/
structure ArgumentState where
  options : Options := {}
  /-- An argument whose value is still to be checked, and the value if it was given. -/
  pending : Option (Valued × Option String) := none
  /-- Whether there was an argument without a name. -/
  positional : Bool := false
  /-- Whether all further arguments are without a name. -/
  trailing : Bool := false

namespace ArgumentState

/-- Give an argument its value. -/
def setValue (o : Options) (v : Valued) (value : String) : Except UsageError Options :=
  match v with
  | .program => if value.isEmpty then .error .invalidValue else .ok { o with program := some value }
  | .input =>
    if o.input.isSome then .error .argumentConflict
    else if value.isEmpty then .error .invalidValue
    else .ok { o with input := some value }
  | .maxDepth =>
    if o.maxDepth.isSome then .error .argumentConflict
    else
      match readCount? value with
      | some n => .ok { o with maxDepth := some n }
      | none => .error .valueValidation

/-- Set a flag. -/
def setFlag (o : Options) : Flag → Except UsageError Options
  | .json => if o.json then .error .argumentConflict else .ok { o with json := true }
  | .run => if o.run then .error .argumentConflict else .ok { o with run := true }
  | .repl => if o.repl then .error .argumentConflict else .ok { o with repl := true }
  | .strict => if o.strict then .error .argumentConflict else .ok { o with strict := true }

/-- Check the value that is pending. -/
def settle (s : ArgumentState) : Except UsageError ArgumentState :=
  match s.pending with
  | none => .ok s
  | some (_, none) => .error .invalidValue
  | some (v, some value) => do
    let options ← setValue s.options v value
    return { s with options, pending := none }

/-- Take an argument without a name. -/
def takePositional (s : ArgumentState) (arg : String) : Except UsageError ArgumentState :=
  if s.positional then .error .unknownArgument
  else do
    let s ← s.settle
    return { s with pending := some (.program, some arg), positional := true }

/-- Take an argument with two dashes, by its name and the value after an equals sign. -/
def takeLong (s : ArgumentState) (name : String) (value : Option String) :
    Except UsageError ArgumentState :=
  match LongArgument.ofName? name, value with
  | none, _ => .error .unknownArgument
  | some (.valued v), none => do
    let s ← s.settle
    return { s with pending := some (v, none) }
  | some (.valued v), some value => do
    let s ← s.settle
    let options ← setValue s.options v value
    return { s with options }
  | some _, some _ => .error .tooManyValues
  | some (.flag f), none => do
    let s ← s.settle
    let options ← setFlag s.options f
    return { s with options }
  | some .help, none => do
    let _ ← s.settle
    .error .displayHelp
  | some .version, none => do
    let _ ← s.settle
    .error .displayVersion

/-- Take an argument with one dash. -/
def takeShort (s : ArgumentState) (letter : Char) : Except UsageError ArgumentState :=
  if letter = 'h' then do
    let _ ← s.settle
    .error .displayHelp
  else if letter = 'V' then do
    let _ ← s.settle
    .error .displayVersion
  else .error .unknownArgument

/-- The name of an argument and the value after an equals sign. -/
def splitValue (cs : List Char) : String × Option String :=
  match cs.dropWhile (· != '=') with
  | [] => (String.ofList cs, none)
  | _ :: value => (String.ofList (cs.takeWhile (· != '=')), some (String.ofList value))

/-- Take the next argument. -/
def take (s : ArgumentState) (arg : String) : Except UsageError ArgumentState :=
  if s.trailing then s.takePositional arg
  else
    match arg.toList with
    | ['-', '-'] => .ok { s with trailing := true }
    | '-' :: '-' :: cs =>
      let (name, value) := splitValue cs
      s.takeLong name value
    | '-' :: letter :: _ => s.takeShort letter
    | _ =>
      match s.pending with
      | some (v, none) => .ok { s with pending := some (v, some arg) }
      | _ => s.takePositional arg

end ArgumentState

namespace Options

/-- What all arguments together have to satisfy: one program file at most, and one at least unless
programs are read from the standard input. -/
def check (o : Options) : Except UsageError Options :=
  if o.program.isSome && o.input.isSome then .error .argumentConflict
  else if o.program.isNone && o.input.isNone && !o.repl then .error .missingRequiredArgument
  else .ok o

/-- The meaning of a command line. -/
def parse (args : List String) : Except UsageError Options := do
  let s ← args.foldlM ArgumentState.take {}
  let s ← s.settle
  s.options.check

end Options

end Treewalk
