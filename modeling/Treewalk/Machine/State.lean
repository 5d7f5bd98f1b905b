import Treewalk.Value.Basic

/-!
# The state of the machine

The machine has a stack of scopes, with a global scope at the bottom that is never left.  A scope
binds variables and functions, each in a map of their own, and it may name the scope that its
function was declared in.  A name is looked up in the current scope and then along these links.  A
link is followed as long as the scope it names is on the stack.

A scope is known by a number that is never given twice, so that a link to a scope that was left
leads nowhere.  A function can only be entered while the scopes below are in place, so that links
lead down the stack and one pass over the stack follows all of them.

## Main definitions

* `Closure`, `Scope`, `Config`, `Machine` — the state.
* `Machine.chain` — the scopes along the links.
* `Machine.lookupVariable`, `Machine.lookupFunction`, `Machine.assign` — names.
* `Machine.enterScope`, `Machine.exitScope`, `Machine.enterCall`, `Machine.leaveCall` — the stack.
-/

namespace Treewalk

/-- A declared function and the number of the scope that it was declared in. -/
structure Closure where
  name : String
  params : List Parameter
  body : List Stmt
  home : Nat
  deriving Inhabited

/-- A scope. -/
structure Scope where
  id : Nat
  parent : Option Nat := none
  vars : Entries Value := []
  funs : Entries Closure := []
  deriving Inhabited

/-- What the machine does with a construct that it has no rule for. -/
inductive Policy where
  /-- It yields the absent value. -/
  | permissive
  /-- It fails. -/
  | strict
  deriving DecidableEq, Repr, Inhabited

/-- The settings of a machine. -/
structure Config where
  policy : Policy := .permissive
  maxCallDepth : Nat := 256
  deriving DecidableEq, Repr, Inhabited

/-- The state of a machine.  `frames` are the scopes above the global one, the innermost first. -/
structure Machine where
  global : Scope := { id := 0 }
  frames : List Scope := []
  nextId : Nat := 1
  halted : Bool := false
  callDepth : Nat := 0
  config : Config := {}
  deriving Inhabited

namespace Scope

/-- Bind a variable, in place of any earlier binding. -/
def bindVariable (name : String) (v : Value) (s : Scope) : Scope :=
  { s with vars := Entries.insert name v s.vars }

/-- Bind a function, in place of any earlier binding. -/
def bindFunction (name : String) (f : Closure) (s : Scope) : Scope :=
  { s with funs := Entries.insert name f s.funs }

end Scope

namespace Machine

/-- A machine with an empty global scope. -/
def new (config : Config) : Machine := { config }

/-- All scopes, the innermost first. -/
def scopes (m : Machine) : List Scope := m.frames ++ [m.global]

/-- The innermost scope. -/
def current (m : Machine) : Scope := m.frames.headD m.global

/-- The number of scopes, the global one included. -/
def scopeDepth (m : Machine) : Nat := m.frames.length + 1

/-- Follow links down a stack from the scope with a given number. -/
def follow (global : Scope) : Option Nat → List Scope → List Scope
  | none, _ => []
  | some id, [] => if global.id = id then [global] else []
  | some id, s :: below =>
    if s.id = id then s :: follow global s.parent below else follow global (some id) below

/-- The scopes in which a name is looked up, in their order. -/
def chain (m : Machine) : List Scope :=
  match m.frames with
  | [] => [m.global]
  | s :: below => s :: follow m.global s.parent below

/-- The value of a variable. -/
def lookupVariable (m : Machine) (name : String) : Option Value :=
  m.chain.findSome? fun s => Entries.get? name s.vars

/-- A function by its name. -/
def lookupFunction (m : Machine) (name : String) : Option Closure :=
  m.chain.findSome? fun s => Entries.get? name s.funs

/-- Change the first scope with a given number. -/
def changeAt (id : Nat) (f : Scope → Scope) : List Scope → List Scope
  | [] => []
  | s :: below => if s.id = id then f s :: below else s :: changeAt id f below

/-- Change the scope with a given number. -/
def changeScope (id : Nat) (f : Scope → Scope) (m : Machine) : Machine :=
  if m.global.id = id then { m with global := f m.global }
  else { m with frames := changeAt id f m.frames }

/-- Change the current scope. -/
def changeCurrent (f : Scope → Scope) (m : Machine) : Machine :=
  match m.frames with
  | [] => { m with global := f m.global }
  | s :: below => { m with frames := f s :: below }

/-- Bind a variable in the current scope. -/
def setVariable (name : String) (v : Value) (m : Machine) : Machine :=
  m.changeCurrent (Scope.bindVariable name v)

/-- Bind a function in the current scope. -/
def setFunction (name : String) (f : Closure) (m : Machine) : Machine :=
  m.changeCurrent (Scope.bindFunction name f)

/-- The scope along the links that binds a variable. -/
def owner? (m : Machine) (name : String) : Option Scope :=
  m.chain.find? fun s => Entries.has name s.vars

/-- Bind a variable anew in the scope that binds it, or else in the current scope. -/
def assign (name : String) (v : Value) (m : Machine) : Machine :=
  match m.owner? name with
  | some s => m.changeScope s.id (Scope.bindVariable name v)
  | none => m.setVariable name v

/-- Enter a new scope with a link to a given one. -/
def enterLinked (parent : Option Nat) (m : Machine) : Machine :=
  { m with frames := { id := m.nextId, parent } :: m.frames, nextId := m.nextId + 1 }

/-- Enter a new scope without a link. -/
def enterScope (m : Machine) : Machine := m.enterLinked none

/-- Leave the innermost scope, if it is not the global one. -/
def exitScope (m : Machine) : Machine := { m with frames := m.frames.tail }

/-- Enter the scope of a call. -/
def enterCall (parent : Option Nat) (m : Machine) : Machine :=
  let m := m.enterLinked parent
  { m with callDepth := m.callDepth + 1 }

/-- Leave the innermost scope as that of a call. -/
def leaveCall (m : Machine) : Machine :=
  let m := m.exitScope
  { m with callDepth := m.callDepth - 1 }

/-- Mark the machine as halted. -/
def halt (m : Machine) : Machine := { m with halted := true }

end Machine

end Treewalk
