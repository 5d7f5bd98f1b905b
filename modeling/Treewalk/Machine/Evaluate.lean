import Treewalk.Machine.Fault
import Treewalk.Machine.State
import Treewalk.Value.Member
import Treewalk.Value.Operator

/-!
# Evaluation

`evaluate` and `execute` walk a tree and act on the machine.  Both take a number of levels that they
may go down; every node takes one level, and a loop takes one for each of its rounds.  Whatever ends
evaluation early, the state at that point is kept, and the scope of a call is left on every way out.

All other definitions do not go down by themselves: they get the evaluation of the parts of a node
as an argument, so that what holds of every node can be said of one node at a time.

## Main definitions

* `Stop`, `Action`, `Completion` — how evaluation ends.
* `evaluateAll`, `evaluateEntries`, `evaluateLink`, `declareAll`, `executeAll`, `loop`, `call` — the
  parts of nodes.
* `evaluateNode`, `executeNode` — one node.
* `evaluate`, `execute` — expressions and statements.
* `Machine.run` — a program.
-/

namespace Treewalk

/-- Why evaluation ended early. -/
inductive Stop where
  /-- The machine was halted. -/
  | halted
  | failed (fault : Fault)
  /-- There were not enough levels. -/
  | exhausted
  deriving DecidableEq, Repr, Inhabited

/-- An action of the machine. -/
abbrev Action (α : Type) := EStateM Stop Machine α

/-- How a statement ended that was not stopped. -/
inductive Completion where
  /-- At its end, with the value of the last statement. -/
  | normal (v : Value)
  /-- At a return. -/
  | returned (v : Value)
  deriving Inhabited

namespace Completion

/-- The value of a completion. -/
def value : Completion → Value
  | .normal v | .returned v => v

end Completion

namespace Action

/-- End evaluation with a fault. -/
def fail {α : Type} (f : Fault) : Action α := throw (.failed f)

/-- Halt the machine. -/
def halt {α : Type} : Action α := do
  modify Machine.halt
  throw .halted

/-- What stands for a construct without a rule. -/
def unimplemented (kind : String) (location : Location) : Action Value := do
  match (← get).config.policy with
  | .permissive => return .absent
  | .strict => fail (.unimplemented kind location)

/-- Act in the scope of a call, and leave it whatever happens. -/
def inCall {α : Type} (parent : Option Nat) (act : Action α) : Action α := fun m =>
  match act (m.enterCall parent) with
  | .ok a m => .ok a m.leaveCall
  | .error s m => .error s m.leaveCall

end Action

section Parts

variable (eval : Expr → Action Value) (exec : Stmt → Action Completion)

/-- Evaluate expressions in order. -/
def evaluateAll : List Expr → Action (List Value)
  | [] => return []
  | e :: es => do
    let v ← eval e
    let vs ← evaluateAll es
    return v :: vs

/-- Evaluate an expression that may be missing. -/
def evaluateOptional : Option Expr → Action Value
  | none => return .absent
  | some e => eval e

/-- The key of an entry of an object literal.  A name or a literal stands for itself unless the key
is computed. -/
def entryKey (p : Property) : Action String := do
  match p.computed, p.key with
  | false, .identifier id => return id.name
  | false, .literal node => return node.value.toValue.display
  | _, key => return (← eval key).display

/-- The value of an entry of an object literal. -/
def entryValue (location : Location) (p : Property) : Action Value :=
  if p.method then Action.unimplemented "method Property" location
  else
    match p.kind with
    | .init => eval p.value
    | .getter | .setter => Action.unimplemented "accessor Property" location

/-- Add the entries of an object literal to the ones before. -/
def evaluateEntries (location : Location) (entries : Entries Value) :
    List Property → Action (Entries Value)
  | [] => return entries
  | p :: ps => do
    let key ← entryKey eval p
    let v ← entryValue eval location p
    evaluateEntries location (Entries.insert key v entries) ps

/-- The key of a member expression.  A name stands for itself unless the key is computed. -/
def memberKey (property : Expr) (computed : Bool) : Action Value :=
  match computed, property with
  | false, .identifier id => return .text id.name
  | _, property => eval property

/-- Evaluate a chain of member expressions.  There is no value if an optional link met an absent
value or null, which ends the chain. -/
def evaluateLink : Expr → Action (Option Value)
  | .member object property computed optional _ => do
    match ← evaluateLink object with
    | none => return none
    | some v =>
      if optional && v.isNullish then return none
      else
        let key ← memberKey eval property computed
        return some (v.member key)
  | e => do return some (← eval e)

/-- Evaluate a chain of member expressions to a value. -/
def evaluateChain (e : Expr) : Action Value := do
  return (← evaluateLink eval e).getD .absent

/-- Bind declared variables in order. -/
def declareAll : List Declarator → Action Unit
  | [] => return ()
  | d :: ds => do
    let v ← evaluateOptional eval d.init
    modify (Machine.setVariable d.id.name v)
    declareAll ds

/-- The value of a parameter, given the arguments from its position on.  A missing or absent
argument makes way for the default of the parameter. -/
def argumentFor (p : Parameter) : List Value → Action Value
  | [] => evaluateOptional eval p.default
  | v :: _ => if v.isAbsent then evaluateOptional eval p.default else return v

/-- Bind parameters to arguments in order.  Arguments without a parameter are dropped. -/
def bindAll : List Parameter → List Value → Action Unit
  | [], _ => return ()
  | p :: ps, args => do
    let v ← argumentFor eval p args
    modify (Machine.setVariable p.id.name v)
    bindAll ps args.tail

/-- Execute statements in order up to a return.  `last` is the value of the statement before. -/
def executeAll (last : Value) : List Stmt → Action Completion
  | [] => return .normal last
  | s :: ss => do
    match ← exec s with
    | .normal v => executeAll v ss
    | .returned v => return .returned v

/-- Execute statements as a block. -/
def executeBlock (body : List Stmt) : Action Completion := executeAll exec .absent body

/-- Call a function: its parameters and its body have a scope with a link to the scope that the
function was declared in. -/
def call (f : Closure) (args : List Value) (location : Location) : Action Value := do
  let m ← get
  if m.config.maxCallDepth ≤ m.callDepth then
    Action.fail (.callDepthExceeded m.config.maxCallDepth location)
  else
    Action.inCall (some f.home) do
      bindAll eval f.params args
      return (← executeBlock exec f.body).value

end Parts

/-- Repeat a body as long as a test holds, up to a return.  `last` is the value of the round
before. -/
def loop (test : Action Value) (body : Action Completion) (last : Value) : Nat → Action Completion
  | 0 => throw .exhausted
  | levels + 1 => do
    if (← test).isTruthy then
      match ← body with
      | .normal v => loop test body v levels
      | .returned v => return .returned v
    else return .normal last

/-- Bind a function in the current scope, which becomes its home. -/
def declareFunction (id : Identifier) (isAsync generator : Bool) (params : List Parameter)
    (body : List Stmt) (location : Location) : Action Value := do
  if isAsync then Action.unimplemented "async FunctionDeclarationStatement" location
  else if generator then Action.unimplemented "generator FunctionDeclarationStatement" location
  else
    modify fun m => m.setFunction id.name ⟨id.name, params, body, m.current.id⟩
    return .absent

section Nodes

variable (eval : Expr → Action Value) (exec : Stmt → Action Completion)

/-- Evaluate an expression, given how its parts and the bodies of functions are evaluated. -/
def evaluateNode : Expr → Action Value
  | .identifier id => do return ((← get).lookupVariable id.name).getD .absent
  | .literal node => return node.value.toValue
  | .chain e _ => evaluateChain eval e
  | .member object property computed optional location =>
    evaluateChain eval (.member object property computed optional location)
  | .assignment left right location =>
    match left with
    | .identifier id => do
      let v ← eval right
      modify (Machine.assign id.name v)
      return v
    | left => Action.unimplemented (left.kindName ++ " assignment target") location
  | .array elements _ => do return .array (← evaluateAll eval elements)
  | .object properties location => do
    return .object (← evaluateEntries eval location [] properties)
  | .binary left operator right location => do
    let l ← eval left
    let r ← eval right
    match Operator.ofSymbol? operator with
    | some o => return o.apply l r
    | none => Action.fail (.unsupportedOperator operator location)
  | .call callee arguments location =>
    match callee with
    | .identifier id => do
      match (← get).lookupFunction id.name with
      | some f =>
        let args ← evaluateAll eval arguments
        call eval exec f args location
      | none => Action.fail (.undefinedFunction id.name location)
    | callee => Action.fail (.invalidCallee callee.kindName location)

/-- Execute a statement, given how its parts are evaluated and executed.  A loop may take so many
rounds. -/
def executeNode (rounds : Nat) : Stmt → Action Completion
  | .empty _ => return .normal .absent
  | .debugger _ => Action.halt
  | .ifElse test consequent alternate _ => do
    if (← eval test).isTruthy then exec consequent
    else
      match alternate with
      | some s => exec s
      | none => return .normal .absent
  | .whileLoop test body _ => loop (eval test) (exec body) .absent rounds
  | .block body _ => executeBlock exec body
  | .expression e _ => do return .normal (← eval e)
  | .function id isAsync generator params body _ location => do
    return .normal (← declareFunction id isAsync generator params body location)
  | .declaration _ declarations _ => do
    declareAll eval declarations
    return .normal .absent
  | .array children _ => do return .normal (.array (← evaluateAll eval children))
  | .ret argument _ => do return .returned (← evaluateOptional eval argument)

end Nodes

mutual

/-- Evaluate an expression. -/
def evaluate : Nat → Expr → Action Value
  | 0, _ => throw .exhausted
  | levels + 1, e => evaluateNode (evaluate levels) (execute levels) e

/-- Execute a statement. -/
def execute : Nat → Stmt → Action Completion
  | 0, _ => throw .exhausted
  | levels + 1, s => executeNode (evaluate levels) (execute levels) levels s

end

/-- Execute statements in the current scope. -/
def executeBody (levels : Nat) (body : List Stmt) : Action Completion :=
  executeBlock (execute levels) body

/-- Call a function. -/
def callClosure (levels : Nat) (f : Closure) (args : List Value) (location : Location) :
    Action Value :=
  call (evaluate levels) (execute levels) f args location

/-- More levels than any run could use up. -/
def ampleLevels : Nat := Nat.pow 2 60

namespace Machine

/-- Act, with the state after that. -/
def perform {α : Type} (act : Action α) (m : Machine) : Except Stop α × Machine :=
  match act m with
  | .ok a m => (.ok a, m)
  | .error s m => (.error s, m)

/-- Run a program as a new pass: a halt of an earlier pass is forgotten, and bindings stay. -/
def run (levels : Nat) (p : Program) (m : Machine) : Except Stop Completion × Machine :=
  { m with halted := false }.perform (executeBody levels p.body)

end Machine

end Treewalk
