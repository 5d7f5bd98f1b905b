/-!
# The directory in which the program is run

Files are named by paths.  A path is followed part by part from the directory on; every part but the
last has to be a directory.  Nothing is known of what lies outside, except that it can be gone to.

## Main definitions

* `FileFailure` — why a file cannot be read.
* `Directory`, `Directory.follow`, `Directory.read` — files by their paths.
-/

namespace Treewalk

/-- Why a file cannot be read. -/
inductive FileFailure where
  | missing
  | denied
  /-- The path goes on behind a file. -/
  | notDirectory
  /-- The path leads to a directory. -/
  | directory
  /-- The path or a part of it is too long. -/
  | longName
  /-- The bytes of the file are not text. -/
  | notText
  | other (reason : String)
  deriving DecidableEq, Repr, Inhabited

/-- The wording of a failure. -/
def FileFailure.message : FileFailure → String
  | .missing => "No such file or directory (os error 2)"
  | .denied => "Permission denied (os error 13)"
  | .notDirectory => "Not a directory (os error 20)"
  | .directory => "Is a directory (os error 21)"
  | .longName => "File name too long (os error 36)"
  | .notText => "stream did not contain valid UTF-8"
  | .other reason => reason

/-- The parts of a path, which are separated by slashes. -/
def pathParts : List Char → List (List Char)
  | [] => [[]]
  | c :: cs =>
    if c = '/' then [] :: pathParts cs
    else
      match pathParts cs with
      | [] => [[c]]
      | part :: parts => (c :: part) :: parts

/-- Whether a part of a path stays where it is. -/
def isIdlePart (part : List Char) : Bool := part.isEmpty || part == ['.']

/-- A directory: the files in it and below it. -/
structure Directory where
  /-- The parts of the path of each file, and its bytes. -/
  files : List (List (List Char) × List UInt8)

/-- What a path leads to. -/
inductive Target where
  | file (bytes : List UInt8)
  | directory

namespace Directory

/-- The directory with the given files by their paths. -/
def ofFiles (files : List (String × List UInt8)) : Directory where
  files := files.map fun (path, bytes) =>
    ((pathParts path.toList).filter fun part => !isIdlePart part, bytes)

/-- How many bytes a part of a path may have. -/
def maxPart : Nat := 255

/-- How many bytes a path may have. -/
def maxPath : Nat := 4095

/-- Follow a path.  `here` is the place that has been reached; there is none outside of the
directory. -/
def follow (d : Directory) :
    (here : Option (List (List Char))) → List (List Char) → Except FileFailure Target
  | _, [] => .ok .directory
  | here, part :: parts =>
    if isIdlePart part then d.follow here parts
    else if part = ['.', '.'] then
      match here with
      | some (p :: ps) => d.follow (some (p :: ps).dropLast) parts
      | _ => d.follow none parts
    else if maxPart < (String.ofList part).utf8ByteSize then .error .longName
    else
      match here with
      | none => .error .missing
      | some here =>
        let next := here ++ [part]
        match d.files.lookup next with
        | some bytes => if parts.isEmpty then .ok (.file bytes) else .error .notDirectory
        | none =>
          if d.files.any fun (path, _) => next.isPrefixOf path then d.follow (some next) parts
          else .error .missing

/-- The bytes of a file by its path.  A path that begins with a slash leads outside. -/
def read (d : Directory) (path : String) : Except FileFailure (List UInt8) :=
  if maxPath < path.utf8ByteSize then .error .longName
  else
    let start := if path.toList.head? = some '/' then none else some []
    match d.follow start (pathParts path.toList) with
    | .ok (.file bytes) => .ok bytes
    | .ok .directory => .error .directory
    | .error e => .error e

end Directory

end Treewalk
