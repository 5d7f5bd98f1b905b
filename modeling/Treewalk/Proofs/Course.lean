import Treewalk.Proofs.Plan

/-!
# The plans of nodes

Every node of a tree has a plan, and so has the body of a call.  Each one comes with the requests
that may come up in it, so that what a node cannot do is known without a look at how it is
evaluated.

A call is the one node without a plan.  It enters a function that is found by its name and is no
part of the tree, so that `Course` keeps it apart.

## Main definitions

* `Expr.Asks`, `Stmt.Asks`, `Closure.Asks` — the requests that may come up.
* `Expr.course`, `Stmt.planned`, `Closure.planned`, `bodyPlanned` — the plans.
* `evaluateNode_call`, `call_eq` — calls, given the plans of their arguments and bodies.
-/

namespace Treewalk

/-! ## Parts that stand for themselves -/

/-- An expression that is a name. -/
def Expr.identifier? : Expr → Option Identifier
  | .identifier id => some id
  | _ => none

/-- An expression that is a name is that name. -/
theorem Expr.eq_of_identifier? {e : Expr} {id : Identifier} (h : e.identifier? = some id) :
    e = .identifier id := by
  cases e with
  | identifier id' => exact congrArg _ (Option.some.inj h)
  | _ => cases h

/-- The key of an entry that needs no evaluation. -/
def Property.fixedKey? (p : Property) : Option String :=
  match p.computed, p.key with
  | false, .identifier id => some id.name
  | false, .literal node => some node.value.toValue.display
  | _, _ => none

theorem entryKey_eq (eval : Expr → Action Value) (p : Property) :
    entryKey eval p =
      match p.fixedKey? with
      | some key => return key
      | none => do return (← eval p.key).display := by
  simp only [entryKey, Property.fixedKey?]
  split <;> simp only [*]

theorem memberKey_eq (eval : Expr → Action Value) (property : Expr) (computed : Bool) :
    memberKey eval property computed =
      match if computed then none else property.identifier? with
      | some id => return .text id.name
      | none => eval property := by
  cases computed <;> cases property <;> rfl

theorem evaluateNode_assignment (eval : Expr → Action Value) (exec : Stmt → Action Completion)
    (left right : Expr) (location : Location) :
    evaluateNode eval exec (.assignment left right location) =
      match left.identifier? with
      | some id => do
        let v ← eval right
        modify (Machine.assign id.name v)
        return v
      | none => Action.unimplemented (left.kindName ++ " assignment target") location := by
  cases left <;> rfl

/-! ## What comes up at a node -/

/-- The expressions that are evaluated for a chain of member expressions. -/
def Expr.linkParts : Expr → List Expr
  | .member inner property _ _ _ => inner.linkParts ++ [property]
  | e => [e]

/-- What goes over from a member expression to its two sides holds of all that is evaluated for a
chain. -/
theorem Expr.forall_mem_linkParts {P : Expr → Prop}
    (hmember : ∀ inner property computed optional location,
      P (.member inner property computed optional location) → P inner ∧ P property)
    {e : Expr} (h : P e) : ∀ e' ∈ e.linkParts, P e' := by
  fun_induction linkParts e with
  | case1 inner property computed optional location ih =>
    obtain ⟨hinner, hproperty⟩ := hmember _ _ _ _ _ h
    exact List.forall_mem_append.mpr ⟨ih hinner, List.forall_mem_singleton.mpr hproperty⟩
  | case2 => exact List.forall_mem_singleton.mpr h

/-- The expressions that may be evaluated for an expression. -/
def Expr.parts : Expr → List Expr
  | .identifier _ | .literal _ => []
  | .chain e _ => e.linkParts
  | .member inner property _ _ _ => inner.linkParts ++ [property]
  | .assignment _ right _ => [right]
  | .array elements _ => elements
  | .object properties _ => properties.flatMap fun p => [p.key, p.value]
  | .binary left _ right _ => [left, right]
  | .call _ arguments _ => arguments

/-- The requests of an expression, apart from those of a call. -/
inductive Expr.Asks : Expr → Request → Prop where
  | part {e e' : Expr} : e' ∈ e.parts → Asks e (.evaluate e')
  | lookup (id : Identifier) : Asks (.identifier id) (.lookup id.name)
  | assign {left right : Expr} {location : Location} {id : Identifier} (v : Value) :
    left.identifier? = some id → Asks (.assignment left right location) (.assign id.name v)
  | target {left right : Expr} {location : Location} : left.identifier? = none →
    Asks (.assignment left right location)
      (.unimplemented (left.kindName ++ " assignment target") location)
  | method (properties : List Property) (location : Location) :
    Asks (.object properties location) (.unimplemented "method Property" location)
  | accessor (properties : List Property) (location : Location) :
    Asks (.object properties location) (.unimplemented "accessor Property" location)
  | operator {left right : Expr} {operator : String} {location : Location} :
    Operator.ofSymbol? operator = none →
    Asks (.binary left operator right location) (.fail (.unsupportedOperator operator location))

/-- The expressions that may be evaluated for a statement. -/
def Stmt.expressions : Stmt → List Expr
  | .empty _ | .debugger _ | .block .. | .function .. => []
  | .ifElse test _ _ _ | .whileLoop test _ _ => [test]
  | .expression e _ => [e]
  | .declaration _ declarations _ => declarations.filterMap Declarator.init
  | .array children _ => children
  | .ret argument _ => argument.toList

/-- The statements that may be executed for a statement. -/
def Stmt.statements : Stmt → List Stmt
  | .ifElse _ consequent alternate _ => consequent :: alternate.toList
  | .whileLoop _ body _ => [body]
  | .block body _ => body
  | _ => []

/-- The requests of a statement. -/
inductive Stmt.Asks : Stmt → Request → Prop where
  | expression {s : Stmt} {e : Expr} : e ∈ s.expressions → Asks s (.evaluate e)
  | statement {s s' : Stmt} : s' ∈ s.statements → Asks s (.execute s')
  | halt (location : Location) : Asks (.debugger location) .halt
  | rounds (test : Expr) (body : Stmt) (location : Location) :
    Asks (.whileLoop test body location) .exhaust
  | isAsync (id : Identifier) (generator : Bool) (params : List Parameter) (body : List Stmt)
    (bodyLocation location : Location) :
    Asks (.function id true generator params body bodyLocation location)
      (.unimplemented "async FunctionDeclarationStatement" location)
  | generator (id : Identifier) (params : List Parameter) (body : List Stmt)
    (bodyLocation location : Location) :
    Asks (.function id false true params body bodyLocation location)
      (.unimplemented "generator FunctionDeclarationStatement" location)
  | declare (id : Identifier) (params : List Parameter) (body : List Stmt)
    (bodyLocation location : Location) :
    Asks (.function id false false params body bodyLocation location)
      (.declare id.name params body)
  | bind {kind : DeclarationKind} {declarations : List Declarator} {location : Location}
    {d : Declarator} (v : Value) : d ∈ declarations →
    Asks (.declaration kind declarations location) (.bind d.id.name v)
  | ret (argument : Option Expr) (location : Location) (v : Value) :
    Asks (.ret argument location) (.ret v)

/-- The requests of a call of a function. -/
inductive Closure.Asks (f : Closure) : Request → Prop where
  | default {p : Parameter} {e : Expr} : p ∈ f.params → e ∈ p.default → Asks f (.evaluate e)
  | bind {p : Parameter} (v : Value) : p ∈ f.params → Asks f (.bind p.id.name v)
  | body {s : Stmt} : s ∈ f.body → Asks f (.execute s)

/-! ## The plans of parts -/

namespace Planned

variable {P : Request → Prop}

def evaluateAll : (es : List Expr) → (∀ e ∈ es, P (.evaluate e)) →
    Planned P silent fun eval _ => Treewalk.evaluateAll eval es
  | [], _ => .pure []
  | e :: es, h =>
    (evaluate e (h e (by simp))).bind fun v =>
      (evaluateAll es fun e' he => h e' (by simp [he])).bind fun vs => .pure (v :: vs)

def evaluateOptional : (e : Option Expr) → (∀ e' ∈ e, P (.evaluate e')) →
    Planned P silent fun eval _ => Treewalk.evaluateOptional eval e
  | none, _ => .pure Value.absent
  | some e, h => evaluate e (h e rfl)

def entryKey (p : Property) (h : P (.evaluate p.key)) :
    Planned P silent fun eval _ => Treewalk.entryKey eval p :=
  match hp : p.fixedKey? with
  | some key => (Planned.pure key).congr fun eval _ => by rw [entryKey_eq, hp]
  | none => ((evaluate p.key h).bind fun v => .pure v.display).congr fun eval _ => by
    rw [entryKey_eq, hp]

def entryValue (location : Location) : (p : Property) → P (.evaluate p.value) →
    P (.unimplemented "method Property" location) →
    P (.unimplemented "accessor Property" location) →
    Planned P silent fun eval _ => Treewalk.entryValue eval location p
  | ⟨.init, _, value, _, _, false⟩, h, _, _ => evaluate value h
  | ⟨.getter, _, _, _, _, false⟩, _, _, h => unimplemented _ _ h
  | ⟨.setter, _, _, _, _, false⟩, _, _, h => unimplemented _ _ h
  | ⟨_, _, _, _, _, true⟩, _, h, _ => unimplemented _ _ h

def evaluateEntries (location : Location)
    (hmethod : P (.unimplemented "method Property" location))
    (haccessor : P (.unimplemented "accessor Property" location)) :
    (ps : List Property) → (∀ p ∈ ps, P (.evaluate p.key) ∧ P (.evaluate p.value)) →
    (entries : Entries Value) →
    Planned P silent fun eval _ => Treewalk.evaluateEntries eval location entries ps
  | [], _, entries => .pure entries
  | p :: ps, h, entries =>
    (entryKey p (h p (by simp)).1).bind fun key =>
      (entryValue location p (h p (by simp)).2 hmethod haccessor).bind fun v =>
        evaluateEntries location hmethod haccessor ps (fun q hq => h q (by simp [hq]))
          (Entries.insert key v entries)

def memberKey (property : Expr) (computed : Bool) (h : P (.evaluate property)) :
    Planned P silent fun eval _ => Treewalk.memberKey eval property computed :=
  match hid : if computed then none else property.identifier? with
  | some id => (Planned.pure (Value.text id.name)).congr fun eval _ => by rw [memberKey_eq, hid]
  | none => (evaluate property h).congr fun eval _ => by rw [memberKey_eq, hid]

/-- The step of a chain from the value so far. -/
def link (property : Expr) (computed optional : Bool) (h : P (.evaluate property)) (v : Value) :
    Planned P silent fun eval _ =>
      if optional && v.isNullish then return none
      else do
        let key ← Treewalk.memberKey eval property computed
        return some (v.member key) :=
  if hv : (optional && v.isNullish) = true then
    (Planned.pure none).congr fun _ _ => by rw [if_pos hv]
  else
    ((memberKey property computed h).bind fun key => .pure (some (v.member key))).congr
      fun _ _ => by rw [if_neg hv]

def evaluateLink : (e : Expr) → (∀ e' ∈ e.linkParts, P (.evaluate e')) →
    Planned P silent fun eval _ => Treewalk.evaluateLink eval e
  | .member object property computed optional location, h =>
    (evaluateLink object fun e' he => h e' (by simp [Expr.linkParts, he])).bind fun
      | none => .pure none
      | some v => link property computed optional (h property (by simp [Expr.linkParts])) v
  | .identifier _, h | .literal _, h | .chain _ _, h | .assignment _ _ _, h | .array _ _, h
  | .object _ _, h | .binary _ _ _ _, h | .call _ _ _, h =>
    (evaluate _ (h _ (by simp [Expr.linkParts]))).bind fun v => .pure (some v)

def evaluateChain (e : Expr) (h : ∀ e' ∈ e.linkParts, P (.evaluate e')) :
    Planned P silent fun eval _ => Treewalk.evaluateChain eval e :=
  (evaluateLink e h).bind fun v => .pure (v.getD .absent)

def declareAll : (ds : List Declarator) → (∀ d ∈ ds, ∀ e ∈ d.init, P (.evaluate e)) →
    (∀ d ∈ ds, ∀ v, P (.bind d.id.name v)) →
    Planned P silent fun eval _ => Treewalk.declareAll eval ds
  | [], _, _ => .pure ()
  | d :: ds, hinit, hbind =>
    (evaluateOptional d.init (hinit d (by simp))).bind fun v =>
      (bindName d.id.name v (hbind d (by simp) v)).bind fun _ =>
        declareAll ds (fun d' hd => hinit d' (by simp [hd])) fun d' hd => hbind d' (by simp [hd])

def argumentFor (p : Parameter) (h : ∀ e ∈ p.default, P (.evaluate e)) :
    (args : List Value) → Planned P silent fun eval _ => Treewalk.argumentFor eval p args
  | [] => evaluateOptional p.default h
  | v :: _ =>
    if hv : v.isAbsent = true then
      (evaluateOptional p.default h).congr fun _ _ => by rw [Treewalk.argumentFor, if_pos hv]
    else (Planned.pure v).congr fun _ _ => by rw [Treewalk.argumentFor, if_neg hv]

def bindAll : (ps : List Parameter) → (∀ p ∈ ps, ∀ e ∈ p.default, P (.evaluate e)) →
    (∀ p ∈ ps, ∀ v, P (.bind p.id.name v)) → (args : List Value) →
    Planned P silent fun eval _ => Treewalk.bindAll eval ps args
  | [], _, _, _ => .pure ()
  | p :: ps, hdefault, hbind, args =>
    (argumentFor p (hdefault p (by simp)) args).bind fun v =>
      (bindName p.id.name v (hbind p (by simp) v)).bind fun _ =>
        bindAll ps (fun q hq => hdefault q (by simp [hq])) (fun q hq => hbind q (by simp [hq]))
          args.tail

def executeAll : (ss : List Stmt) → (∀ s ∈ ss, P (.execute s)) → (last : Value) →
    Planned P Completion.ending fun _ exec => Treewalk.executeAll exec last ss
  | [], _, last => .pure (Completion.normal last)
  | s :: ss, h, _ =>
    executeThen s (h s (by simp)) fun v => executeAll ss (fun s' hs => h s' (by simp [hs])) v

def executeBlock (body : List Stmt) (h : ∀ s ∈ body, P (.execute s)) :
    Planned P Completion.ending fun _ exec => Treewalk.executeBlock exec body :=
  executeAll body h .absent

def loop (test : Expr) (body : Stmt) (htest : P (.evaluate test)) (hbody : P (.execute body))
    (hend : P .exhaust) : (rounds : Nat) → (last : Value) →
    Planned P Completion.ending fun eval exec => Treewalk.loop (eval test) (exec body) last rounds
  | 0, _ => never .exhaust hend nofun fun _ _ => rfl
  | rounds + 1, last => (evaluate test htest).bind fun v =>
    if hv : v.isTruthy = true then
      (executeThen body hbody fun v => loop test body htest hbody hend rounds v).congr
        fun _ _ => (if_pos hv).symm
    else (Planned.pure (Completion.normal last)).congr fun _ _ => by rw [if_neg hv]

end Planned

/-! ## Plans of nodes -/

/-- How an expression is evaluated: along a plan, or as a call, which looks its function up before
its arguments are evaluated and enters it after that. -/
inductive Course (e : Expr) where
  | plan (p : Planned e.Asks silent fun eval exec => evaluateNode eval exec e)
  | call (callee : Expr) (arguments : List Expr) (location : Location)
    (h : e = .call callee arguments location)
    (p : Planned e.Asks silent fun eval _ => evaluateAll eval arguments)

def Expr.course : (e : Expr) → Course e
  | .identifier id => .plan <|
    (Planned.ask (.lookup id.name) (.lookup id)).bind fun v => .pure (v.getD .absent)
  | .literal node => .plan (.pure node.value.toValue)
  | .chain e _ => .plan (.evaluateChain e fun _ h => .part h)
  | .member inner property computed optional location => .plan <|
    .evaluateChain (.member inner property computed optional location) fun _ h => .part h
  | .assignment left right location => .plan <|
    match h : left.identifier? with
    | some id =>
      ((Planned.evaluate right (.part (by simp [parts]))).bind fun v =>
        (Planned.ask (.assign id.name v) (.assign v h)).bind fun _ => .pure v).congr
          fun _ _ => by rw [evaluateNode_assignment, h]; rfl
    | none =>
      (Planned.unimplemented (left.kindName ++ " assignment target") location (.target h)).congr
        fun _ _ => by rw [evaluateNode_assignment, h]
  | .array elements _ => .plan <|
    (Planned.evaluateAll elements fun _ h => .part h).bind fun vs => .pure (Value.array vs)
  | .object properties location => .plan <|
    (Planned.evaluateEntries location (.method _ _) (.accessor _ _) properties
      (fun p hp => ⟨.part (List.mem_flatMap.mpr ⟨p, hp, by simp⟩),
        .part (List.mem_flatMap.mpr ⟨p, hp, by simp⟩)⟩) []).bind
      fun entries => .pure (Value.object entries)
  | .binary left operator right location => .plan <|
    (Planned.evaluate left (.part (by simp [parts]))).bind fun l =>
      (Planned.evaluate right (.part (by simp [parts]))).bind fun r =>
        match h : Operator.ofSymbol? operator with
        | some o => .pure (o.apply l r)
        | none => .fail (.unsupportedOperator operator location) (.operator h)
  | .call callee arguments location =>
    .call callee arguments location rfl (.evaluateAll arguments fun _ h => .part h)

/-- The plan of a statement, with so many rounds for a loop. -/
def Stmt.planned (rounds : Nat) : (s : Stmt) →
    Planned s.Asks Completion.ending fun eval exec => executeNode eval exec rounds s
  | .empty _ => .pure (Completion.normal .absent)
  | .debugger _ => .never .halt (.halt _) nofun fun _ _ => rfl
  | .ifElse test consequent alternate _ =>
    (Planned.evaluate test (.expression (by simp [expressions]))).bind fun v =>
      if hv : v.isTruthy = true then
        (Planned.execute consequent (.statement (by simp [statements]))).congr
          fun _ _ => by rw [if_pos hv]
      else
        match alternate with
        | some s =>
          (Planned.execute s (.statement (by simp [statements]))).congr
            fun _ _ => by rw [if_neg hv]
        | none =>
          (Planned.pure (Completion.normal .absent)).congr fun _ _ => by rw [if_neg hv]
  | .whileLoop test body _ =>
    .loop test body (.expression (by simp [expressions])) (.statement (by simp [statements]))
      (.rounds ..) rounds .absent
  | .block body _ => .executeBlock body fun _ h => .statement h
  | .expression e _ =>
    (Planned.evaluate e (.expression (by simp [expressions]))).bind fun v =>
      .pure (Completion.normal v)
  | .function _ true _ _ _ _ location =>
    (Planned.unimplemented _ location (.isAsync ..)).bind fun v => .pure (Completion.normal v)
  | .function _ false true _ _ _ location =>
    (Planned.unimplemented _ location (.generator ..)).bind fun v => .pure (Completion.normal v)
  | .function id false false params body _ _ =>
    (Planned.ask (.declare id.name params body) (.declare ..)).bind fun _ =>
      .pure (Completion.normal .absent)
  | .declaration _ declarations _ =>
    (Planned.declareAll declarations
      (fun d hd _ he => .expression (List.mem_filterMap.mpr ⟨d, hd, he⟩))
      fun _ hd v => .bind v hd).bind fun _ => .pure (Completion.normal .absent)
  | .array children _ =>
    (Planned.evaluateAll children fun _ h => .expression h).bind fun vs =>
      .pure (Completion.normal (.array vs))
  | .ret argument _ =>
    (Planned.evaluateOptional argument
      fun _ he => .expression (by simpa [expressions] using he)).bind fun v => .ret v (.ret ..)

/-- The plan of the body of a call, which begins with its parameters. -/
def Closure.planned (f : Closure) (args : List Value) :
    Planned f.Asks Completion.ending fun eval exec =>
      bindAll eval f.params args >>= fun _ => executeBlock exec f.body :=
  (Planned.bindAll f.params (fun _ hp _ he => .default hp he) (fun _ hp v => .bind v hp) args).bind
    fun _ => .executeBlock f.body fun _ hs => .body hs

/-- The plan of a list of statements. -/
def bodyPlanned (body : List Stmt) :
    Planned (fun r => ∃ s ∈ body, r = .execute s) Completion.ending
      fun _ exec => executeBlock exec body :=
  .executeBlock body fun s hs => ⟨s, hs, rfl⟩

section Calls

variable (eval : Expr → Action Value) (exec : Stmt → Action Completion)

theorem evaluateNode_call (callee : Expr) (arguments : List Expr) (location : Location)
    (m : Machine) :
    evaluateNode eval exec (.call callee arguments location) m =
      match callee.identifier? with
      | none => .error (.failed (.invalidCallee callee.kindName location)) m
      | some id =>
        match m.lookupFunction id.name with
        | none => .error (.failed (.undefinedFunction id.name location)) m
        | some f =>
          (evaluateAll eval arguments >>= fun args => call eval exec f args location) m := by
  cases callee with
  | identifier id =>
    simp only [evaluateNode, Expr.identifier?, Action.get_bind]
    cases m.lookupFunction id.name <;> rfl
  | _ => rfl

/-- A call below the limit runs the plan of its body in a scope of its own. -/
theorem call_eq (f : Closure) (args : List Value) (location : Location) (m : Machine) :
    call eval exec f args location m =
      if m.config.maxCallDepth ≤ m.callDepth then
        .error (.failed (.callDepthExceeded m.config.maxCallDepth location)) m
      else
        Action.inCall (some f.home)
          ((f.planned args).plan.run eval exec >>= fun c => pure c.value) m := by
  rw [(f.planned args).run_plan, bind_assoc]
  rw [call, Action.get_bind]
  split <;> rfl

theorem Machine.perform_call (f : Closure) (args : List Value) (location : Location) (m : Machine) :
    m.perform (call eval exec f args location) =
      if m.config.maxCallDepth ≤ m.callDepth then
        (.error (.failed (.callDepthExceeded m.config.maxCallDepth location)), m)
      else
        let run := (m.enterCall (some f.home)).perform ((f.planned args).plan.run eval exec)
        (run.1.map Completion.value, run.2.leaveCall) := by
  by_cases h : m.config.maxCallDepth ≤ m.callDepth
  · simp only [perform, call_eq, if_pos h]
  · simp only [perform, call_eq, if_neg h, Action.inCall, bind, EStateM.bind]
    cases (f.planned args).plan.run eval exec (m.enterCall (some f.home)) <;> rfl

end Calls

end Treewalk
