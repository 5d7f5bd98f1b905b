import Mathlib.Logic.Function.Basic
import Treewalk.Proofs.Operation

/-!
# Relabeling

Much of a tree is there for people or tools: locations, the spelling of literals, the keyword of a
declaration, and the names that variables happen to have.  A `Relabeling` replaces all of that
throughout a tree, and in the functions and bindings of a machine.  Then the relabeled machine does
with the relabeled tree what the machine does with the tree, step by step: with the same results,
with the relabeled fault if there is one, and with the relabeled machine at the end.

Names of variables are only those that are looked up, assigned or bound.  A name that stands for
itself, as a key, a function or a callee, keeps its text.

## Main definitions

* `Relabeling` — what is put in place of what.
* `Relabeling.expr`, `Relabeling.stmt`, `Relabeling.machine` — relabeled trees and machines.
* `Relabeling.Matches` — an action of the relabeled machine that matches one of the machine.
* `Relabeling.perform_eq` — an operation and the relabeled one.
-/

namespace Treewalk

/-- Labels to put in place of others.  Different variables stay different. -/
structure Relabeling where
  location : Location → Location
  raw : String → String
  kind : DeclarationKind → DeclarationKind
  shorthand : Bool → Bool
  rename : String → String
  injective : Function.Injective rename

namespace Relabeling

variable (R : Relabeling)

/-! ## Trees -/

/-- A name that stands for itself. -/
def label (id : Identifier) : Identifier := ⟨id.name, R.location id.location⟩

/-- The name of a variable. -/
def variableName (id : Identifier) : Identifier := ⟨R.rename id.name, R.location id.location⟩

/-- A relabeled literal. -/
def literal (node : Literal) : Literal := ⟨node.value, R.raw node.raw, R.location node.location⟩

/-- An expression in a place where a name stands for itself unless it is computed.  Any other
expression is the given one. -/
def orLabel (computed : Bool) (e e' : Expr) : Expr :=
  match computed, e with
  | false, .identifier id => .identifier (R.label id)
  | _, _ => e'

mutual

/-- A relabeled expression. -/
def expr : Expr → Expr
  | .identifier id => .identifier (R.variableName id)
  | .literal node => .literal (R.literal node)
  | .chain e location => .chain (expr e) (R.location location)
  | .member object property computed optional location =>
    .member (expr object) (R.orLabel computed property (expr property)) computed optional
      (R.location location)
  | .assignment left right location => .assignment (expr left) (expr right) (R.location location)
  | .array elements location => .array (allExprs elements) (R.location location)
  | .object properties location => .object (allProperties properties) (R.location location)
  | .binary left operator right location =>
    .binary (expr left) operator (expr right) (R.location location)
  | .call callee arguments location =>
    .call (R.orLabel false callee (expr callee)) (allExprs arguments) (R.location location)

/-- A relabeled entry of an object literal. -/
def property : Property → Property
  | ⟨kind, key, value, computed, shorthand, method⟩ =>
    ⟨kind, R.orLabel computed key (expr key), expr value, computed, R.shorthand shorthand, method⟩

/-- Relabeled expressions. -/
def allExprs : List Expr → List Expr
  | [] => []
  | e :: es => expr e :: allExprs es

/-- The relabeled entries of an object literal. -/
def allProperties : List Property → List Property
  | [] => []
  | p :: ps => property p :: allProperties ps

end

/-- A relabeled parameter. -/
def parameter (p : Parameter) : Parameter := ⟨R.variableName p.id, p.default.map R.expr⟩

/-- A relabeled declaration of a variable. -/
def declarator (d : Declarator) : Declarator := ⟨R.variableName d.id, d.init.map R.expr⟩

mutual

/-- A relabeled statement. -/
def stmt : Stmt → Stmt
  | .empty location => .empty (R.location location)
  | .debugger location => .debugger (R.location location)
  | .ifElse test consequent alternate location =>
    .ifElse (R.expr test) (stmt consequent) (optionalStmt alternate) (R.location location)
  | .whileLoop test body location => .whileLoop (R.expr test) (stmt body) (R.location location)
  | .block body location => .block (allStmts body) (R.location location)
  | .expression e location => .expression (R.expr e) (R.location location)
  | .function id isAsync generator params body bodyLocation location =>
    .function (R.label id) isAsync generator (params.map R.parameter) (allStmts body)
      (R.location bodyLocation) (R.location location)
  | .declaration kind declarations location =>
    .declaration (R.kind kind) (declarations.map R.declarator) (R.location location)
  | .array children location => .array (children.map R.expr) (R.location location)
  | .ret argument location => .ret (argument.map R.expr) (R.location location)

/-- Relabeled statements. -/
def allStmts : List Stmt → List Stmt
  | [] => []
  | s :: ss => stmt s :: allStmts ss

/-- A relabeled statement that may be missing. -/
def optionalStmt : Option Stmt → Option Stmt
  | none => none
  | some s => some (stmt s)

end

/-- A relabeled program. -/
def program (p : Program) : Program := ⟨R.allStmts p.body⟩

theorem allExprs_eq (es : List Expr) : R.allExprs es = es.map R.expr := by
  induction es with
  | nil => rfl
  | cons e es ih => rw [allExprs, ih, List.map_cons]

@[simp] theorem kindName_expr (e : Expr) : (R.expr e).kindName = e.kindName := by
  cases e <;> rfl

theorem identifier?_expr (e : Expr) :
    (R.expr e).identifier? = e.identifier?.map R.variableName := by
  cases e <;> rfl

@[simp] theorem kindName_orLabel (e : Expr) :
    (R.orLabel false e (R.expr e)).kindName = e.kindName := by
  cases e <;> rfl

theorem identifier?_orLabel (e : Expr) :
    (R.orLabel false e (R.expr e)).identifier? = e.identifier?.map R.label := by
  cases e <;> rfl

/-! ## Machines -/

/-- A relabeled function. -/
def closure (f : Closure) : Closure :=
  ⟨f.name, f.params.map R.parameter, R.allStmts f.body, f.home⟩

/-- A relabeled scope. -/
def scope (s : Scope) : Scope where
  id := s.id
  parent := s.parent
  vars := s.vars.map (Prod.map R.rename id)
  funs := s.funs.map (Prod.map id R.closure)

/-- A relabeled machine. -/
def machine (m : Machine) : Machine :=
  { m with global := R.scope m.global, frames := m.frames.map R.scope }

/-- A fault at a relabeled location. -/
def fault : Fault → Fault
  | .unsupportedOperator operator location => .unsupportedOperator operator (R.location location)
  | .undefinedFunction name location => .undefinedFunction name (R.location location)
  | .invalidCallee kind location => .invalidCallee kind (R.location location)
  | .unimplemented kind location => .unimplemented kind (R.location location)
  | .callDepthExceeded limit location => .callDepthExceeded limit (R.location location)

/-- A stop with its fault at a relabeled location. -/
def stop : Stop → Stop
  | .halted => .halted
  | .failed f => .failed (R.fault f)
  | .exhausted => .exhausted

end Relabeling

namespace Entries

variable {α β : Type} {f : String → String} (hf : Function.Injective f) (g : α → β)

include hf

theorem get?_map (name : String) (es : Entries α) :
    get? (f name) (es.map (Prod.map f g)) = (get? name es).map g := by
  induction es with
  | nil => rfl
  | cons e es ih =>
    obtain ⟨key, y⟩ := e
    by_cases h : key = name <;> simp [get?, hf.eq_iff, h, ih]

theorem insert_map (name : String) (x : α) (es : Entries α) :
    insert (f name) (g x) (es.map (Prod.map f g)) = (insert name x es).map (Prod.map f g) := by
  induction es with
  | nil => rfl
  | cons e es ih =>
    obtain ⟨key, y⟩ := e
    by_cases h : key = name <;> simp [insert, hf.eq_iff, h, ih]

end Entries

namespace Relabeling

section Machines

variable (R : Relabeling)

theorem follow_map (global : Scope) (link : Option Nat) (l : List Scope) :
    Machine.follow (R.scope global) link (l.map R.scope) =
      (Machine.follow global link l).map R.scope := by
  induction l generalizing link with
  | nil =>
    cases link with
    | none => rfl
    | some id =>
      rw [List.map_nil, Machine.follow, Machine.follow, apply_ite (List.map R.scope)]
      rfl
  | cons s below ih =>
    cases link with
    | none => rfl
    | some id =>
      rw [List.map_cons, Machine.follow, Machine.follow, ih, ih, apply_ite (List.map R.scope)]
      rfl

theorem chain_machine (m : Machine) : (R.machine m).chain = m.chain.map R.scope := by
  cases hframes : m.frames with
  | nil => simp [Machine.chain, machine, hframes]
  | cons s below =>
    simp only [Machine.chain, machine, hframes, List.map_cons, follow_map]
    rfl

theorem get?_vars (s : Scope) (name : String) :
    Entries.get? (R.rename name) (R.scope s).vars = Entries.get? name s.vars := by
  simp [scope, Entries.get?_map R.injective]

theorem get?_funs (s : Scope) (name : String) :
    Entries.get? name (R.scope s).funs = (Entries.get? name s.funs).map R.closure :=
  Entries.get?_map Function.injective_id R.closure name s.funs

theorem bindVariable_scope (name : String) (v : Value) (s : Scope) :
    (R.scope s).bindVariable (R.rename name) v = R.scope (s.bindVariable name v) := by
  simp only [Scope.bindVariable, scope]
  congr 1
  exact Entries.insert_map R.injective id name v s.vars

theorem bindFunction_scope (name : String) (f : Closure) (s : Scope) :
    (R.scope s).bindFunction name (R.closure f) = R.scope (s.bindFunction name f) := by
  simp only [Scope.bindFunction, scope]
  congr 1
  exact Entries.insert_map Function.injective_id R.closure name f s.funs

theorem lookupVariable_machine (m : Machine) (name : String) :
    (R.machine m).lookupVariable (R.rename name) = m.lookupVariable name := by
  simp only [Machine.lookupVariable, chain_machine, List.findSome?_map, Function.comp_def,
    get?_vars]

theorem lookupFunction_machine (m : Machine) (name : String) :
    (R.machine m).lookupFunction name = (m.lookupFunction name).map R.closure := by
  simp only [Machine.lookupFunction, chain_machine, List.findSome?_map, Function.comp_def,
    get?_funs, List.map_findSome?]

theorem owner?_machine (m : Machine) (name : String) :
    (R.machine m).owner? (R.rename name) = (m.owner? name).map R.scope := by
  simp only [Machine.owner?, chain_machine, List.find?_map, Function.comp_def, Entries.has,
    get?_vars]

section Changes

variable {f f' : Scope → Scope} (hf : ∀ s, f' (R.scope s) = R.scope (f s))

include hf

theorem changeCurrent_machine (m : Machine) :
    (R.machine m).changeCurrent f' = R.machine (m.changeCurrent f) := by
  cases hframes : m.frames <;> simp [Machine.changeCurrent, machine, hframes, hf]

theorem changeAt_map (id : Nat) (l : List Scope) :
    Machine.changeAt id f' (l.map R.scope) = (Machine.changeAt id f l).map R.scope := by
  induction l with
  | nil => rfl
  | cons s below ih =>
    rw [List.map_cons, Machine.changeAt, Machine.changeAt, ih, hf, apply_ite (List.map R.scope)]
    rfl

theorem changeScope_machine (id : Nat) (m : Machine) :
    (R.machine m).changeScope id f' = R.machine (m.changeScope id f) := by
  have hid : (R.machine m).global.id = m.global.id := rfl
  rw [Machine.changeScope, Machine.changeScope, hid, apply_ite R.machine]
  simp only [machine, hf, changeAt_map R hf]

end Changes

theorem setVariable_machine (name : String) (v : Value) (m : Machine) :
    (R.machine m).setVariable (R.rename name) v = R.machine (m.setVariable name v) :=
  R.changeCurrent_machine (R.bindVariable_scope name v) m

theorem setFunction_machine (name : String) (f : Closure) (m : Machine) :
    (R.machine m).setFunction name (R.closure f) = R.machine (m.setFunction name f) :=
  R.changeCurrent_machine (R.bindFunction_scope name f) m

theorem assign_machine (name : String) (v : Value) (m : Machine) :
    (R.machine m).assign (R.rename name) v = R.machine (m.assign name v) := by
  rw [Machine.assign, Machine.assign, owner?_machine]
  cases m.owner? name with
  | none => exact R.setVariable_machine name v m
  | some s => exact R.changeScope_machine (R.bindVariable_scope name v) s.id m

theorem current_machine (m : Machine) : (R.machine m).current = R.scope m.current := by
  cases hframes : m.frames <;> simp [Machine.current, machine, hframes]

theorem enterCall_machine (parent : Option Nat) (m : Machine) :
    (R.machine m).enterCall parent = R.machine (m.enterCall parent) := rfl

theorem leaveCall_machine (m : Machine) : (R.machine m).leaveCall = R.machine m.leaveCall := by
  simp [Machine.leaveCall, Machine.exitScope, machine]

end Machines

/-! ## Actions -/

section Actions

variable (R : Relabeling) {α β : Type}

/-- A relabeled outcome of an action. -/
def result : EStateM.Result Stop Machine α → EStateM.Result Stop Machine α
  | .ok a m => .ok a (R.machine m)
  | .error s m => .error (R.stop s) (R.machine m)

/-- The second action does on the relabeled machine what the first one does on the machine. -/
def Matches (act act' : Action α) : Prop := ∀ m, act' (R.machine m) = R.result (act m)

namespace Matches

variable {R}

theorem pure (a : α) : R.Matches (pure a) (pure a) := fun _ => rfl

theorem throw (s : Stop) : R.Matches (throw s : Action α) (throw (R.stop s)) := fun _ => rfl

theorem modify {f f' : Machine → Machine} (h : ∀ m, f' (R.machine m) = R.machine (f m)) :
    R.Matches (modify f) (modify f') := by
  intro m
  show EStateM.Result.ok () (f' (R.machine m)) = .ok () (R.machine (f m))
  rw [h]

theorem bind {act act' : Action α} {f f' : α → Action β} (hact : R.Matches act act')
    (hf : ∀ a, R.Matches (f a) (f' a)) : R.Matches (act >>= f) (act' >>= f') := by
  intro m
  simp only [Bind.bind, EStateM.bind]
  rw [hact m]
  cases act m with
  | ok a m' => exact hf a m'
  | error s m' => rfl

theorem inCall {act act' : Action α} (h : R.Matches act act') (parent : Option Nat) :
    R.Matches (Action.inCall parent act) (Action.inCall parent act') := by
  intro m
  rw [Action.inCall, Action.inCall, enterCall_machine, h]
  cases act (m.enterCall parent) <;> simp only [result, leaveCall_machine]

theorem unimplemented (kind : String) (location : Location) :
    R.Matches (Action.unimplemented kind location)
      (Action.unimplemented kind (R.location location)) := by
  intro m
  have hconfig : (R.machine m).config = m.config := rfl
  rw [Action.unimplemented_eq, Action.unimplemented_eq, hconfig]
  cases m.config.policy <;> rfl

theorem halt : R.Matches (Action.halt : Action α) Action.halt :=
  .bind (.modify fun _ => rfl) fun _ => .throw .halted

theorem perform {act act' : Action α} (h : R.Matches act act') (m : Machine) :
    (R.machine m).perform act' =
      ((m.perform act).1.mapError R.stop, R.machine (m.perform act).2) := by
  simp only [Machine.perform, h m]
  cases act m <;> rfl

end Matches

end Actions

/-! ## Parts of nodes -/

section Parts

variable {R : Relabeling} {eval eval' : Expr → Action Value} {exec exec' : Stmt → Action Completion}
  (heval : ∀ e, R.Matches (eval e) (eval' (R.expr e)))
  (hexec : ∀ s, R.Matches (exec s) (exec' (R.stmt s)))

include heval

theorem matches_evaluateAll (es : List Expr) :
    R.Matches (evaluateAll eval es) (evaluateAll eval' (es.map R.expr)) := by
  induction es with
  | nil => exact .pure []
  | cons e es ih => exact (heval e).bind fun v => ih.bind fun vs => .pure (v :: vs)

theorem matches_evaluateOptional (e : Option Expr) :
    R.Matches (evaluateOptional eval e) (evaluateOptional eval' (e.map R.expr)) := by
  cases e with
  | none => exact .pure _
  | some e => exact heval e

/-- The key of a relabeled entry is evaluated if the key of the entry is. -/
theorem matches_entryKey (p : Property) :
    R.Matches (entryKey eval p) (entryKey eval' (R.property p)) := by
  obtain ⟨kind, key, value, computed, shorthand, method⟩ := p
  have hdisplay : ∀ e, R.Matches (return (← eval e).display)
      (return (← eval' (R.expr e)).display) :=
    fun e => (heval e).bind fun v => .pure v.display
  cases computed with
  | true => exact hdisplay key
  | false =>
    cases key with
    | identifier | literal => exact .pure _
    | _ => exact hdisplay _

theorem matches_entryValue (location : Location) (p : Property) :
    R.Matches (entryValue eval location p)
      (entryValue eval' (R.location location) (R.property p)) := by
  obtain ⟨kind, key, value, computed, shorthand, method⟩ := p
  cases method with
  | true => exact .unimplemented _ _
  | false =>
    cases kind with
    | init => exact heval value
    | getter | setter => exact .unimplemented _ _

theorem matches_evaluateEntries (location : Location) (ps : List Property)
    (entries : Entries Value) :
    R.Matches (evaluateEntries eval location entries ps)
      (evaluateEntries eval' (R.location location) entries (R.allProperties ps)) := by
  induction ps generalizing entries with
  | nil => exact .pure entries
  | cons p ps ih =>
    exact (matches_entryKey heval p).bind fun key =>
      (matches_entryValue heval location p).bind fun v => ih _

theorem matches_memberKey (property : Expr) (computed : Bool) :
    R.Matches (memberKey eval property computed)
      (memberKey eval' (R.orLabel computed property (R.expr property)) computed) := by
  cases computed with
  | true => exact heval property
  | false =>
    cases property with
    | identifier id => exact .pure _
    | _ => exact heval _

theorem matches_evaluateLink (e : Expr) :
    R.Matches (evaluateLink eval e) (evaluateLink eval' (R.expr e)) := by
  fun_induction Expr.linkParts e with
  | case1 object property computed optional location ih =>
    refine ih.bind fun v => ?_
    cases v with
    | none => exact .pure none
    | some v =>
      dsimp only
      split
      · exact .pure none
      · exact (matches_memberKey heval property computed).bind fun key =>
          .pure (some (v.member key))
  | case2 e hmember =>
    have hlink : R.Matches (return some (← eval e)) (return some (← eval' (R.expr e))) :=
      (heval e).bind fun v => .pure (some v)
    cases e with
    | member object property computed optional location => exact absurd rfl (hmember _ _ _ _ _)
    | _ => exact hlink

theorem matches_evaluateChain (e : Expr) :
    R.Matches (evaluateChain eval e) (evaluateChain eval' (R.expr e)) :=
  (matches_evaluateLink heval e).bind fun v => .pure (v.getD .absent)

theorem matches_declareAll (ds : List Declarator) :
    R.Matches (declareAll eval ds) (declareAll eval' (ds.map R.declarator)) := by
  induction ds with
  | nil => exact .pure ()
  | cons d ds ih =>
    exact (matches_evaluateOptional heval d.init).bind fun v =>
      (Matches.modify (R.setVariable_machine d.id.name v)).bind fun _ => ih

theorem matches_argumentFor (p : Parameter) (args : List Value) :
    R.Matches (argumentFor eval p args) (argumentFor eval' (R.parameter p) args) := by
  have hdefault := matches_evaluateOptional heval p.default
  cases args with
  | nil => exact hdefault
  | cons v args =>
    rw [argumentFor, argumentFor]
    split
    · exact hdefault
    · exact .pure v

theorem matches_bindAll (ps : List Parameter) (args : List Value) :
    R.Matches (bindAll eval ps args) (bindAll eval' (ps.map R.parameter) args) := by
  induction ps generalizing args with
  | nil => exact .pure ()
  | cons p ps ih =>
    exact (matches_argumentFor heval p args).bind fun v =>
      (Matches.modify (R.setVariable_machine p.id.name v)).bind fun _ => ih args.tail

omit heval

include hexec in
theorem matches_executeBlock (body : List Stmt) :
    R.Matches (executeBlock exec body) (executeBlock exec' (R.allStmts body)) := by
  have hall : ∀ (body : List Stmt) last, R.Matches (executeAll exec last body)
      (executeAll exec' last (R.allStmts body)) := by
    intro body
    induction body with
    | nil => exact fun last => .pure (Completion.normal last)
    | cons s ss ih =>
      exact fun last => (hexec s).bind fun
        | .normal v => ih v
        | .returned v => .pure (Completion.returned v)
  exact hall body .absent

theorem matches_loop {test test' : Action Value} {body body' : Action Completion}
    (htest : R.Matches test test') (hbody : R.Matches body body') (last : Value) (rounds : Nat) :
    R.Matches (loop test body last rounds) (loop test' body' last rounds) := by
  induction rounds generalizing last with
  | zero => exact .throw .exhausted
  | succ rounds ih =>
    refine htest.bind fun v => ?_
    split
    · exact hbody.bind fun
        | .normal v => ih v
        | .returned v => .pure (Completion.returned v)
    · exact .pure (Completion.normal last)

theorem matches_declareFunction (id : Identifier) (isAsync generator : Bool)
    (params : List Parameter) (body : List Stmt) (location : Location) :
    R.Matches (declareFunction id isAsync generator params body location)
      (declareFunction (R.label id) isAsync generator (params.map R.parameter) (R.allStmts body)
        (R.location location)) := by
  rw [declareFunction, declareFunction]
  split
  · exact .unimplemented _ _
  · split
    · exact .unimplemented _ _
    · refine .bind (.modify fun m => ?_) fun _ => .pure _
      rw [current_machine]
      exact R.setFunction_machine id.name ⟨id.name, params, body, m.current.id⟩ m

include heval hexec in
theorem matches_call (f : Closure) (args : List Value) (location : Location) :
    R.Matches (call eval exec f args location)
      (call eval' exec' (R.closure f) args (R.location location)) := by
  intro m
  have hconfig : (R.machine m).config = m.config := rfl
  have hdepth : (R.machine m).callDepth = m.callDepth := rfl
  rw [call, call, Action.get_bind, Action.get_bind, hconfig, hdepth]
  split
  · rfl
  · have hbody := (matches_bindAll heval f.params args).bind fun _ =>
      (matches_executeBlock hexec f.body).bind fun c => .pure c.value
    exact hbody.inCall (some f.home) m

/-! ## Nodes and trees -/

include heval hexec in
theorem matches_evaluateNode (e : Expr) :
    R.Matches (evaluateNode eval exec e) (evaluateNode eval' exec' (R.expr e)) := by
  cases e with
  | identifier id =>
    intro m
    show EStateM.Result.ok (((R.machine m).lookupVariable (R.rename id.name)).getD _) _ = _
    rw [lookupVariable_machine]
    rfl
  | literal node => exact .pure _
  | chain e location => exact matches_evaluateChain heval e
  | member object property computed optional location =>
    exact matches_evaluateChain heval (.member object property computed optional location)
  | assignment left right location =>
    rw [expr, evaluateNode_assignment, evaluateNode_assignment, identifier?_expr, kindName_expr]
    cases left.identifier? with
    | none => exact .unimplemented _ _
    | some id =>
      exact (heval right).bind fun v =>
        (Matches.modify (R.assign_machine id.name v)).bind fun _ => .pure v
  | array elements location =>
    rw [expr, allExprs_eq]
    exact (matches_evaluateAll heval elements).bind fun vs => .pure (Value.array vs)
  | object properties location =>
    exact (matches_evaluateEntries heval location properties []).bind fun entries =>
      .pure (Value.object entries)
  | binary left operator right location =>
    refine (heval left).bind fun l => (heval right).bind fun r => ?_
    cases Operator.ofSymbol? operator with
    | none => exact .throw (.failed (.unsupportedOperator operator location))
    | some o => exact .pure (o.apply l r)
  | call callee arguments location =>
    intro m
    rw [expr, evaluateNode_call, evaluateNode_call, identifier?_orLabel, kindName_orLabel,
      allExprs_eq]
    cases callee.identifier? with
    | none => rfl
    | some id =>
      have hfound := R.lookupFunction_machine m id.name
      simp only [Option.map_some, label, hfound]
      cases m.lookupFunction id.name with
      | none => rfl
      | some f =>
        exact (matches_evaluateAll heval arguments).bind
          (fun args => matches_call heval hexec f args location) m

include heval hexec in
theorem matches_executeNode (rounds : Nat) (s : Stmt) :
    R.Matches (executeNode eval exec rounds s) (executeNode eval' exec' rounds (R.stmt s)) := by
  cases s with
  | empty location => exact .pure _
  | debugger location => exact .halt
  | ifElse test consequent alternate location =>
    refine (heval test).bind fun v => ?_
    split
    · exact hexec consequent
    · cases alternate with
      | none => exact .pure _
      | some s => exact hexec s
  | whileLoop test body location => exact matches_loop (heval test) (hexec body) .absent rounds
  | block body location => exact matches_executeBlock hexec body
  | expression e location => exact (heval e).bind fun v => .pure (Completion.normal v)
  | function id isAsync generator params body bodyLocation location =>
    exact (matches_declareFunction id isAsync generator params body location).bind fun v =>
      .pure (Completion.normal v)
  | declaration kind declarations location =>
    exact (matches_declareAll heval declarations).bind fun _ => .pure _
  | array children location =>
    exact (matches_evaluateAll heval children).bind fun vs => .pure (Completion.normal (.array vs))
  | ret argument location =>
    exact (matches_evaluateOptional heval argument).bind fun v => .pure (Completion.returned v)

end Parts

section Levels

variable (R : Relabeling)

/-- With as many levels, the relabeled machine goes through the relabeled tree as the machine goes
through the tree: by induction on the levels, one node at a time. -/
theorem matches_levels (levels : Nat) :
    (∀ e, R.Matches (evaluate levels e) (evaluate levels (R.expr e))) ∧
      ∀ s, R.Matches (execute levels s) (execute levels (R.stmt s)) := by
  induction levels with
  | zero => exact ⟨fun e => .throw .exhausted, fun s => .throw .exhausted⟩
  | succ levels ih =>
    exact ⟨fun e => matches_evaluateNode ih.1 ih.2 e,
      fun s => matches_executeNode ih.1 ih.2 levels s⟩

variable {α : Type}

/-- A relabeled operation. -/
def operation : Operation α → Operation α
  | .evaluate e => .evaluate (R.expr e)
  | .execute s => .execute (R.stmt s)
  | .executeBody body => .executeBody (R.allStmts body)
  | .call f args location => .call (R.closure f) args (R.location location)
  | .run p => .run (R.program p)

theorem matches_act (op : Operation α) (levels : Nat) :
    R.Matches (op.act levels) ((R.operation op).act levels) := by
  have ⟨heval, hexec⟩ := R.matches_levels levels
  cases op with
  | evaluate e => exact heval e
  | execute s => exact hexec s
  | executeBody body => exact matches_executeBlock hexec body
  | call f args location => exact matches_call heval hexec f args location
  | run p =>
    have hresume : ∀ m, { R.machine m with halted := false } =
        R.machine { m with halted := false } := fun _ => rfl
    exact (Matches.modify hresume).bind fun _ => matches_executeBlock hexec p.body

/-- A relabeled operation on the relabeled machine, with any number of levels. -/
theorem perform_eq (op : Operation α) (levels : Nat) (m : Machine) :
    (R.operation op).perform levels (R.machine m) =
      ((op.perform levels m).1.mapError R.stop, R.machine (op.perform levels m).2) := by
  rw [Operation.perform_eq, Operation.perform_eq]
  exact (R.matches_act op levels).perform m

end Levels

end Relabeling

end Treewalk
