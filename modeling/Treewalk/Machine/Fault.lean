import Treewalk.Tree.Node
import Treewalk.Number.Numeral

/-!
# Faults of a running program

The causes for which a program fails, each with the location of the node that is to blame.

## Main definitions

* `Fault` — the causes.
* `Fault.code`, `Fault.message`, `Fault.location`.
-/

namespace Treewalk

/-- Why a program failed. -/
inductive Fault where
  | unsupportedOperator (operator : String) (location : Location)
  | undefinedFunction (name : String) (location : Location)
  /-- The callee of a call is a node of this kind and no name. -/
  | invalidCallee (kind : String) (location : Location)
  /-- There is no rule for this construct. -/
  | unimplemented (kind : String) (location : Location)
  | callDepthExceeded (limit : Nat) (location : Location)
  deriving DecidableEq, Repr, Inhabited

namespace Fault

/-- The code of a cause. -/
def code : Fault → String
  | .unsupportedOperator .. => "R001"
  | .undefinedFunction .. => "R002"
  | .invalidCallee .. => "R003"
  | .unimplemented .. => "R004"
  | .callDepthExceeded .. => "R005"

/-- The node to blame. -/
def location : Fault → Location
  | .unsupportedOperator _ l | .undefinedFunction _ l | .invalidCallee _ l | .unimplemented _ l
  | .callDepthExceeded _ l => l

/-- What happened, without the place. -/
def reason : Fault → String
  | .unsupportedOperator operator _ => "unsupported binary operator `" ++ operator ++ "`"
  | .undefinedFunction name _ => "`" ++ name ++ "` is not a function"
  | .invalidCallee kind _ => "cannot call a `" ++ kind ++ "`; callee must be an identifier"
  | .unimplemented kind _ => "no evaluation rule for " ++ kind
  | .callDepthExceeded limit _ => "call depth exceeded the limit of " ++ decimal limit

/-- The place and what happened there. -/
def message (f : Fault) : String := f.location.text ++ ": " ++ f.reason

/-- A fault as a diagnostic, with its code. -/
def diagnostic (f : Fault) : String := "error[" ++ f.code ++ "]: " ++ f.message

end Fault

end Treewalk
