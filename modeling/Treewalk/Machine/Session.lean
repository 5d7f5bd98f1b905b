import Treewalk.Machine.Evaluate
import Treewalk.Tree.Failure

/-!
# Sessions of a host

A host works with one machine step by step: it runs programs, reads and binds names, enters and
leaves scopes, and keeps function handles in named slots.  A handle keeps the scope that its
function was declared in, also when that scope has been left.

## Main definitions

* `Step`, `Report` — what a host can ask for, and the answers.
* `Session`, `Session.perform`, `Session.performAll` — the steps one after the other.
-/

namespace Treewalk

/-- What a host can ask for. -/
inductive Step where
  /-- Run a program as a new pass. -/
  | run (p : Program)
  /-- Execute statements in the current scope. -/
  | execute (body : List Stmt)
  | evaluate (e : Expr)
  | enterScope
  | exitScope
  | halt
  /-- Bind a variable in the current scope. -/
  | setVariable (name : String) (v : Value)
  /-- Read a variable of the current scope. -/
  | getVariable (name : String)
  | lookupVariable (name : String)
  | lookupFunction (name : String)
  /-- Whether the current scope has a function of this name. -/
  | hasFunction (name : String)
  /-- Look a function up and keep it in a slot. -/
  | grab (name slot : String)
  /-- Bind the function of a slot in the current scope. -/
  | bindFunction (slot name : String)
  /-- Call the function of a slot. -/
  | call (slot : String) (args : List Value) (location : Location)
  /-- Enter a call frame, take the steps in it and leave it. -/
  | frame (steps : List Step)
  /-- A step whose tree could not be read. -/
  | unreadable (e : DecodeError)

instance : Inhabited Step := ⟨.enterScope⟩

/-- A machine and the function handles that are kept. -/
structure Session where
  machine : Machine
  slots : Entries Closure := []
  deriving Inhabited

/-- The answer to a step.  The answers to the steps in a frame come with the session after each. -/
inductive Report where
  | nothing
  | completed (outcome : Except Stop Completion)
  | evaluated (outcome : Except Stop Value)
  /-- A variable of the current scope, and whether the scope has no variables. -/
  | binding (v : Option Value) (noneBound : Bool)
  | found (v : Option Value)
  | function (f : Option Closure)
  | truth (b : Bool)
  | answers (steps : List (Report × Session))
  | noSlot
  | unreadable (e : DecodeError)

instance : Inhabited Report := ⟨.nothing⟩

namespace Session

/-- A session with a new machine. -/
def start (config : Config) : Session := { machine := .new config }

/-- Put another machine in place. -/
def withMachine (s : Session) (m : Machine) : Session := { s with machine := m }

/-- Act on the machine. -/
def act {α : Type} (s : Session) (action : Action α) (report : Except Stop α → Report) :
    Report × Session :=
  let (outcome, m) := s.machine.perform action
  (report outcome, s.withMachine m)

mutual

/-- Take a step. -/
def perform (levels : Nat) (s : Session) : Step → Report × Session
  | .run p =>
    let (outcome, m) := s.machine.run levels p
    (.completed outcome, s.withMachine m)
  | .execute body => s.act (executeBody levels body) .completed
  | .evaluate e => s.act (Treewalk.evaluate levels e) .evaluated
  | .enterScope => (.nothing, s.withMachine s.machine.enterScope)
  | .exitScope => (.nothing, s.withMachine s.machine.exitScope)
  | .halt => (.nothing, s.withMachine s.machine.halt)
  | .setVariable name v => (.nothing, s.withMachine (s.machine.setVariable name v))
  | .getVariable name =>
    let vars := s.machine.current.vars
    (.binding (Entries.get? name vars) vars.isEmpty, s)
  | .lookupVariable name => (.found (s.machine.lookupVariable name), s)
  | .lookupFunction name => (.function (s.machine.lookupFunction name), s)
  | .hasFunction name => (.truth (Entries.has name s.machine.current.funs), s)
  | .grab name slot =>
    match s.machine.lookupFunction name with
    | some f => (.truth true, { s with slots := Entries.insert slot f s.slots })
    | none => (.truth false, s)
  | .bindFunction slot name =>
    match Entries.get? slot s.slots with
    | some f => (.nothing, s.withMachine (s.machine.setFunction name f))
    | none => (.noSlot, s)
  | .call slot args location =>
    match Entries.get? slot s.slots with
    | some f => s.act (callClosure levels f args location) .evaluated
    | none => (.noSlot, s)
  | .frame steps =>
    let (answers, inner) := performAll levels (s.withMachine (s.machine.enterCall none)) steps
    (.answers answers, inner.withMachine inner.machine.leaveCall)
  | .unreadable e => (.unreadable e, s)

/-- Take steps one after the other, and keep each answer with the session after it. -/
def performAll (levels : Nat) (s : Session) : List Step → List (Report × Session) × Session
  | [] => ([], s)
  | step :: steps =>
    let (report, s) := perform levels s step
    let (answers, last) := performAll levels s steps
    ((report, s) :: answers, last)

end

end Session

end Treewalk
