import Mathlib.Logic.Relation
import Treewalk.Proofs.Numbering
import Treewalk.Proofs.Operation

/-!
# Where faults come from

A fault names a location and what was wrong there.  Calls bring in functions that were declared
long before, and no part of evaluation may put a fault down to another node on its way out.  So a
run that fails has a node to blame: it is a node of the tree, or of a function that was there from
the start, and the fault tells its location and its text.

Functions that are declared during a run are nodes of what was there before.  Hence the invariant:
every function that can be found consists of nodes of the tree and of the first functions.

## Main definitions

* `Node`, `Node.Contains` — the nodes of a tree, evaluated or not.
* `Accounts` — the faults that a node is to blame for.
* `Machine.Covered` — a machine all of whose functions consist of given nodes.
* `fault_has_source` — a node to blame for every fault.
-/

namespace Treewalk

/-! ## Nodes -/

/-- A node of a tree. -/
inductive Node where
  | expression (e : Expr)
  | statement (s : Stmt)

/-- The expressions right below an expression, evaluated or not. -/
def Expr.children : Expr → List Expr
  | .identifier _ | .literal _ => []
  | .chain e _ => [e]
  | .member inner property _ _ _ => [inner, property]
  | .assignment left right _ => [left, right]
  | .array elements _ => elements
  | .object properties _ => properties.flatMap fun p => [p.key, p.value]
  | .binary left _ right _ => [left, right]
  | .call callee arguments _ => callee :: arguments

/-- The nodes right below a function: the defaults of its parameters and its statements. -/
def functionNodes (params : List Parameter) (body : List Stmt) : List Node :=
  (params.filterMap Parameter.default).map .expression ++ body.map .statement

/-- The nodes right below a statement. -/
def Stmt.children : Stmt → List Node
  | .function _ _ _ params body _ _ => functionNodes params body
  | s => s.expressions.map .expression ++ s.statements.map .statement

namespace Node

/-- The nodes right below a node. -/
def children : Node → List Node
  | .expression e => e.children.map .expression
  | .statement s => s.children

/-- The second node is the first one or somewhere below it. -/
def Contains : Node → Node → Prop := Relation.ReflTransGen fun n n' => n' ∈ n.children

/-- A set of nodes with all that is below them. -/
def Closed (N : Node → Prop) : Prop := ∀ n, N n → ∀ n' ∈ n.children, N n'

end Node

/-- The nodes of a function. -/
def Closure.nodes (f : Closure) : List Node := functionNodes f.params f.body

theorem Closure.default_mem_nodes {f : Closure} {p : Parameter} {e : Expr} (hp : p ∈ f.params)
    (he : e ∈ p.default) : .expression e ∈ f.nodes :=
  List.mem_append_left _ (List.mem_map_of_mem (List.mem_filterMap.mpr ⟨p, hp, he⟩))

theorem Closure.body_mem_nodes {f : Closure} {s : Stmt} (hs : s ∈ f.body) :
    .statement s ∈ f.nodes :=
  List.mem_append_right _ (List.mem_map_of_mem hs)

section Closed

variable {N : Node → Prop} (hN : Node.Closed N)

include hN

theorem Expr.closed_linkParts {e e' : Expr} (h : N (.expression e)) (he : e' ∈ e.linkParts) :
    N (.expression e') := by
  refine forall_mem_linkParts (P := fun e => N (.expression e)) ?_ h e' he
  intro inner property computed optional location hmember
  have hchildren := hN _ hmember
  simp only [Node.children, children, List.map_cons, List.map_nil, List.forall_mem_cons]
    at hchildren
  exact ⟨hchildren.1, hchildren.2.1⟩

/-- What is evaluated for an expression is below it. -/
theorem Expr.closed_parts {e e' : Expr} (h : N (.expression e)) (he : e' ∈ e.parts) :
    N (.expression e') := by
  have hchildren : ∀ e'' ∈ e.children, N (.expression e'') :=
    fun e'' he'' => hN _ h _ (List.mem_map_of_mem he'')
  cases e with
  | identifier | literal => cases he
  | chain e location => exact closed_linkParts hN (hchildren e (.head _)) he
  | member inner property computed optional location =>
    rcases List.mem_append.mp he with he | he
    · exact closed_linkParts hN (hchildren inner (.head _)) he
    · exact List.mem_singleton.mp he ▸ hchildren property (.tail _ (.head _))
  | assignment left right location =>
    exact List.mem_singleton.mp he ▸ hchildren right (.tail _ (.head _))
  | array | object | binary => exact hchildren e' he
  | call callee arguments location => exact hchildren e' (.tail _ he)

theorem Stmt.closed_expressions {s : Stmt} {e : Expr} (h : N (.statement s))
    (he : e ∈ s.expressions) : N (.expression e) := by
  refine hN _ h _ ?_
  cases s with
  | function => cases he
  | _ => exact List.mem_append_left _ (List.mem_map_of_mem he)

theorem Stmt.closed_statements {s s' : Stmt} (h : N (.statement s)) (hs : s' ∈ s.statements) :
    N (.statement s') := by
  refine hN _ h _ ?_
  cases s with
  | function => cases hs
  | _ => exact List.mem_append_right _ (List.mem_map_of_mem hs)

end Closed

/-! ## Faults of nodes -/

/-- The faults that a node is to blame for under given settings.  The fault has the location of the
node, and the text is the one of the node. -/
inductive Accounts (c : Config) : Node → Fault → Prop where
  | operator {left right : Expr} {operator : String} {location : Location} :
    operator ∉ ["+", "-", "*", "/", "%"] →
    Accounts c (.expression (.binary left operator right location))
      (.unsupportedOperator operator location)
  | undefined (id : Identifier) (arguments : List Expr) (location : Location) :
    Accounts c (.expression (.call (.identifier id) arguments location))
      (.undefinedFunction id.name location)
  | callee {callee : Expr} {arguments : List Expr} {location : Location} :
    (∀ id, callee ≠ .identifier id) →
    Accounts c (.expression (.call callee arguments location))
      (.invalidCallee callee.kindName location)
  | depth (id : Identifier) (arguments : List Expr) (location : Location) :
    Accounts c (.expression (.call (.identifier id) arguments location))
      (.callDepthExceeded c.maxCallDepth location)
  | isAsync {id : Identifier} {generator : Bool} {params : List Parameter} {body : List Stmt}
    {bodyLocation location : Location} : c.policy = .strict →
    Accounts c (.statement (.function id true generator params body bodyLocation location))
      (.unimplemented "async FunctionDeclarationStatement" location)
  | generator {id : Identifier} {params : List Parameter} {body : List Stmt}
    {bodyLocation location : Location} : c.policy = .strict →
    Accounts c (.statement (.function id false true params body bodyLocation location))
      (.unimplemented "generator FunctionDeclarationStatement" location)
  | method {properties : List Property} {location : Location} {p : Property} :
    c.policy = .strict → p ∈ properties → p.method = true →
    Accounts c (.expression (.object properties location))
      (.unimplemented "method Property" location)
  | accessor {properties : List Property} {location : Location} {p : Property} :
    c.policy = .strict → p ∈ properties → p.method = false → p.kind ≠ .init →
    Accounts c (.expression (.object properties location))
      (.unimplemented "accessor Property" location)
  | target {left right : Expr} {location : Location} :
    c.policy = .strict → (∀ id, left ≠ .identifier id) →
    Accounts c (.expression (.assignment left right location))
      (.unimplemented (left.kindName ++ " assignment target") location)

theorem Expr.ne_identifier {e : Expr} (h : e.identifier? = none) (id : Identifier) :
    e ≠ .identifier id := by
  rintro rfl
  cases h

/-- The operators with a rule. -/
theorem Operator.notMem_of_ofSymbol?_eq_none {s : String} (h : Operator.ofSymbol? s = none) :
    s ∉ ["+", "-", "*", "/", "%"] := by
  intro hmem
  simp only [List.mem_cons, List.not_mem_nil, or_false] at hmem
  rcases hmem with rfl | rfl | rfl | rfl | rfl <;> cases h

/-- A stop that is no fault, or one that a node of a set is to blame for. -/
def Stop.Accounted (c : Config) (N : Node → Prop) : Stop → Prop
  | .failed f => ∃ n, N n ∧ Accounts c n f
  | .halted | .exhausted => True

/-! ## Machines and their functions -/

/-- A function is bound in a scope on the stack. -/
def Machine.Registers (m : Machine) (f : Closure) : Prop :=
  ∃ s ∈ m.scopes, ∃ name, Entries.get? name s.funs = some f

/-- All functions of a scope consist of given nodes. -/
def Scope.Covered (N : Node → Prop) (s : Scope) : Prop :=
  ∀ name f, Entries.get? name s.funs = some f → ∀ n ∈ f.nodes, N n

/-- The machine has given settings, and all its functions consist of given nodes. -/
structure Machine.Covered (c : Config) (N : Node → Prop) (m : Machine) : Prop where
  config : m.config = c
  scopes : ∀ s ∈ m.scopes, s.Covered N

theorem Scope.Covered.bindFunction {N : Node → Prop} {s : Scope} (h : s.Covered N) (name : String)
    {f : Closure} (hf : ∀ n ∈ f.nodes, N n) : (s.bindFunction name f).Covered N :=
  Entries.forall_insert hf h

namespace Machine.Covered

variable {c : Config} {N : Node → Prop} {m : Machine}

theorem changeCurrent (h : m.Covered c N) {f : Scope → Scope}
    (hplace : ∀ s, (f s).place = s.place) (hf : ∀ s, Scope.Covered N s → (f s).Covered N) :
    (m.changeCurrent f).Covered c N where
  config := (sameStack_changeCurrent hplace m).config.trans h.config
  scopes := forall_changeCurrent (hf _) h.scopes

theorem assign (h : m.Covered c N) (name : String) (v : Value) : (m.assign name v).Covered c N where
  config := (sameStack_assign name v m).config.trans h.config
  scopes := forall_assign (fun _ hs => hs) h.scopes

theorem enterCall (h : m.Covered c N) (parent : Option Nat) : (m.enterCall parent).Covered c N where
  config := h.config
  scopes := by
    rw [scopes_enterCall]
    exact List.forall_mem_cons.mpr ⟨nofun, h.scopes⟩

theorem leaveCall (h : m.Covered c N) : m.leaveCall.Covered c N where
  config := h.config
  scopes s hs := h.scopes s (m.leaveCall_sublist.subset hs)

theorem lookupFunction (h : m.Covered c N) {name : String} {f : Closure}
    (hf : m.lookupFunction name = some f) : ∀ n ∈ f.nodes, N n := by
  obtain ⟨s, hs, hget⟩ := exists_of_lookupFunction hf
  exact h.scopes s hs name f hget

end Machine.Covered

/-! ## One node -/

section Nodes

variable {c : Config} {N : Node → Prop} {eval : Expr → Action Value}
  {exec : Stmt → Action Completion}

/-- Under the permissive policy there is nothing to account for. -/
theorem maintains_unimplemented_of_strict {kind : String} {location : Location}
    (h : c.policy = .strict → Stop.Accounted c N (.failed (.unimplemented kind location))) :
    (Action.unimplemented kind location).Maintains (Machine.Covered c N)
      (Stop.Accounted c N) :=
  Action.maintains_unimplemented_of_policy fun _ hm hpolicy => h (hm.config ▸ hpolicy)

theorem maintains_bindCovered (name : String) (v : Value) :
    ((Request.bind name v).run eval exec).Maintains (Machine.Covered c N)
      (Stop.Accounted c N) :=
  Action.maintains_modify fun _ h =>
    h.changeCurrent (Scope.place_bindVariable name v) fun _ hs => hs

variable (hN : Node.Closed N)
  (heval : ∀ e, N (.expression e) →
    (eval e).Maintains (Machine.Covered c N) (Stop.Accounted c N))
  (hexec : ∀ s, N (.statement s) →
    (exec s).Maintains (Machine.Covered c N) (Stop.Accounted c N))

include heval in
/-- The value of an entry is only refused for what the entry defines. -/
theorem maintains_entryValue {properties : List Property} {location : Location} {p : Property}
    (h : N (.expression (.object properties location))) (hp : p ∈ properties)
    (hvalue : N (.expression p.value)) :
    (entryValue eval location p).Maintains (Machine.Covered c N) (Stop.Accounted c N) := by
  rw [entryValue]
  cases hmethod : p.method with
  | true =>
    exact maintains_unimplemented_of_strict fun hstrict => ⟨_, h, .method hstrict hp hmethod⟩
  | false =>
    have hrefused : p.kind ≠ .init → (Action.unimplemented "accessor Property" location).Maintains
        (Machine.Covered c N) (Stop.Accounted c N) := fun hkind =>
      maintains_unimplemented_of_strict fun hstrict => ⟨_, h, .accessor hstrict hp hmethod hkind⟩
    cases hkind : p.kind with
    | init => exact heval _ hvalue
    | getter | setter => exact hrefused (by rw [hkind]; exact nofun)

include heval in
theorem maintains_evaluateEntries {properties : List Property} {location : Location}
    (h : N (.expression (.object properties location))) {ps : List Property}
    (hps : ps ⊆ properties)
    (hparts : ∀ p ∈ ps, N (.expression p.key) ∧ N (.expression p.value))
    (entries : Entries Value) :
    (evaluateEntries eval location entries ps).Maintains (Machine.Covered c N)
      (Stop.Accounted c N) := by
  induction ps generalizing entries with
  | nil => exact Action.maintains_pure entries
  | cons p ps ih =>
    rw [List.cons_subset] at hps
    rw [List.forall_mem_cons] at hparts
    have hkey : (entryKey eval p).Maintains (Machine.Covered c N) (Stop.Accounted c N) := by
      rw [entryKey_eq]
      cases p.fixedKey? with
      | some key => exact Action.maintains_pure key
      | none =>
        exact Action.maintains_bind (heval _ hparts.1.1) fun v => Action.maintains_pure v.display
    exact Action.maintains_bind hkey fun key =>
      Action.maintains_bind (maintains_entryValue heval h hps.1 hparts.1.2) fun v =>
        ih hps.2 hparts.2 _

include hN heval in
/-- The requests of an expression.  An object asks for what its entries define, see above. -/
theorem Expr.accounted_asks {e : Expr} {r : Request} (h : e.Asks r)
    (hobject : ∀ properties location, e ≠ .object properties location) (he : N (.expression e)) :
    (r.run eval exec).Maintains (Machine.Covered c N) (Stop.Accounted c N) := by
  cases h with
  | part hpart => exact heval _ (Expr.closed_parts hN he hpart)
  | lookup id => exact fun _ hm => hm
  | assign v hid => exact Action.maintains_modify fun _ hm => hm.assign _ v
  | target hid =>
    exact maintains_unimplemented_of_strict fun hstrict =>
      ⟨_, he, .target hstrict (Expr.ne_identifier hid)⟩
  | method properties location => exact absurd rfl (hobject properties location)
  | accessor properties location => exact absurd rfl (hobject properties location)
  | operator hop =>
    exact Action.maintains_throw ⟨_, he, .operator (Operator.notMem_of_ofSymbol?_eq_none hop)⟩

include hN heval hexec in
theorem Stmt.accounted_asks {s : Stmt} {r : Request} (h : s.Asks r) (hs : N (.statement s)) :
    (r.run eval exec).Maintains (Machine.Covered c N) (Stop.Accounted c N) := by
  cases h with
  | expression he => exact heval _ (Stmt.closed_expressions hN hs he)
  | statement hs' => exact hexec _ (Stmt.closed_statements hN hs hs')
  | halt location => exact Action.maintains_halt trivial fun _ hm => ⟨hm.config, hm.scopes⟩
  | rounds test body location => exact Action.maintains_throw trivial
  | isAsync =>
    exact maintains_unimplemented_of_strict fun hstrict => ⟨_, hs, .isAsync hstrict⟩
  | generator =>
    exact maintains_unimplemented_of_strict fun hstrict => ⟨_, hs, .generator hstrict⟩
  | declare id params body bodyLocation location =>
    -- The nodes of the function are right below its declaration.
    exact Action.maintains_modify fun m hm =>
      hm.changeCurrent (Scope.place_bindFunction id.name _) fun _ hscope =>
        hscope.bindFunction id.name fun n hn => hN _ hs n hn
  | bind v hd => exact maintains_bindCovered _ v
  | ret argument location v => exact Action.maintains_pure ()

include heval hexec in
theorem Closure.accounted_asks {f : Closure} {r : Request} (h : f.Asks r)
    (hf : ∀ n ∈ f.nodes, N n) :
    (r.run eval exec).Maintains (Machine.Covered c N) (Stop.Accounted c N) := by
  cases h with
  | default hp he => exact heval _ (hf _ (Closure.default_mem_nodes hp he))
  | bind v hp => exact maintains_bindCovered _ v
  | body hs => exact hexec _ (hf _ (Closure.body_mem_nodes hs))

include heval hexec in
/-- A call of a function with given nodes is refused where it stands, or else the fault comes from
one of them. -/
theorem maintains_callCovered {f : Closure} (hf : ∀ n ∈ f.nodes, N n) {E : Stop → Prop}
    (hE : ∀ s, Stop.Accounted c N s → E s) {location : Location}
    (hdepth : E (.failed (.callDepthExceeded c.maxCallDepth location))) (args : List Value) :
    (call eval exec f args location).Maintains (Machine.Covered c N) E := by
  intro m hm
  rw [call_eq]
  by_cases hlimit : m.config.maxCallDepth ≤ m.callDepth
  · rw [if_pos hlimit, hm.config]
    exact ⟨hdepth, hm⟩
  · rw [if_neg hlimit]
    have hbody : ((f.planned args).plan.run eval exec).Maintains (Machine.Covered c N) E :=
      Plan.maintains_run (f.planned args).within fun r hr =>
        Action.Maintains.mono (Closure.accounted_asks heval hexec hr hf) hE
    exact Action.maintains_inCall (Action.maintains_bind hbody fun _ => Action.maintains_pure _)
      (hm.enterCall _) fun _ h => h.leaveCall

include hN heval hexec in
theorem accounted_evaluateNode {e : Expr} (he : N (.expression e)) :
    (evaluateNode eval exec e).Maintains (Machine.Covered c N) (Stop.Accounted c N) := by
  by_cases hobject : ∃ properties location, e = .object properties location
  · obtain ⟨properties, location, rfl⟩ := hobject
    have hentries : ∀ p ∈ properties, N (.expression p.key) ∧ N (.expression p.value) :=
      fun p hp => ⟨Expr.closed_parts hN he (List.mem_flatMap.mpr ⟨p, hp, by simp⟩),
        Expr.closed_parts hN he (List.mem_flatMap.mpr ⟨p, hp, by simp⟩)⟩
    exact Action.maintains_bind
      (maintains_evaluateEntries heval he (List.Subset.refl properties) hentries [])
      fun entries => Action.maintains_pure (Value.object entries)
  · have hasks : ∀ r, e.Asks r →
        (r.run eval exec).Maintains (Machine.Covered c N) (Stop.Accounted c N) := fun r hr =>
      Expr.accounted_asks hN heval hr (fun properties location h => hobject ⟨_, _, h⟩) he
    cases e.course with
    | plan p => exact p.maintains hasks
    | call callee arguments location h p =>
      have hargs := p.maintains hasks
      subst h
      intro m hm
      rw [evaluateNode_call]
      cases hid : callee.identifier? with
      | none => exact ⟨⟨_, he, .callee (Expr.ne_identifier hid)⟩, hm⟩
      | some id =>
        obtain rfl := Expr.eq_of_identifier? hid
        dsimp only
        cases hfound : m.lookupFunction id.name with
        | none => exact ⟨⟨_, he, .undefined id arguments location⟩, hm⟩
        | some f =>
          refine Action.maintains_bind hargs (fun args => ?_) m hm
          exact maintains_callCovered heval hexec (hm.lookupFunction hfound) (fun _ h => h)
            ⟨_, he, .depth id arguments location⟩ args

end Nodes

/-! ## Whole runs -/

section Levels

variable {c : Config} {N : Node → Prop} (hN : Node.Closed N)

include hN

/-- By induction on the levels: faults come from the nodes that the evaluation began with. -/
theorem accounted_levels (levels : Nat) :
    (∀ e, N (.expression e) →
      (evaluate levels e).Maintains (Machine.Covered c N) (Stop.Accounted c N)) ∧
    ∀ s, N (.statement s) →
      (execute levels s).Maintains (Machine.Covered c N) (Stop.Accounted c N) := by
  induction levels with
  | zero =>
    exact ⟨fun _ _ => Action.maintains_throw trivial, fun _ _ => Action.maintains_throw trivial⟩
  | succ levels ih =>
    exact ⟨fun e he => accounted_evaluateNode hN ih.1 ih.2 he,
      fun s hs => (s.planned levels).maintains fun r hr => Stmt.accounted_asks hN ih.1 ih.2 hr hs⟩

theorem accounted_executeBody {body : List Stmt} (h : ∀ s ∈ body, N (.statement s))
    (levels : Nat) :
    (executeBody levels body).Maintains (Machine.Covered c N) (Stop.Accounted c N) := by
  have hasks : ∀ r : Request, (∃ s ∈ body, r = .execute s) →
      (r.run (evaluate levels) (execute levels)).Maintains (Machine.Covered c N)
        (Stop.Accounted c N) := by
    rintro r ⟨s, hs, rfl⟩
    exact (accounted_levels hN levels).2 s (h s hs)
  exact (bodyPlanned body).maintains hasks

end Levels

namespace Operation

variable {α : Type}

/-- The nodes that an operation is given. -/
def nodes : Operation α → List Node
  | .evaluate e => [.expression e]
  | .execute s => [.statement s]
  | .executeBody body => body.map .statement
  | .call f _ _ => f.nodes
  | .run p => p.body.map .statement

/-- The location that a host gives for a call of its own. -/
def callLocation? : Operation α → Option Location
  | .call _ _ location => some location
  | _ => none

/-- A stop that is no fault, or one that a node is to blame for, or the refusal of the call that
the host asked for. -/
def Accounted (c : Config) (N : Node → Prop) (op : Operation α) (s : Stop) : Prop :=
  s.Accounted c N ∨ ∃ location ∈ op.callLocation?,
    s = .failed (.callDepthExceeded c.maxCallDepth location)

theorem accounted_act {c : Config} {N : Node → Prop} (hN : Node.Closed N) (op : Operation α)
    (hop : ∀ n ∈ op.nodes, N n) (levels : Nat) :
    (op.act levels).Maintains (Machine.Covered c N) (op.Accounted c N) := by
  have hbody : ∀ {body : List Stmt}, (∀ n ∈ body.map Node.statement, N n) →
      (Treewalk.executeBody levels body).Maintains (Machine.Covered c N) (Stop.Accounted c N) :=
    fun h => accounted_executeBody hN (fun s hs => h _ (List.mem_map_of_mem hs)) levels
  cases op with
  | evaluate e => exact ((accounted_levels hN levels).1 e (hop _ (.head _))).mono fun _ => .inl
  | execute s => exact ((accounted_levels hN levels).2 s (hop _ (.head _))).mono fun _ => .inl
  | executeBody body => exact (hbody hop).mono fun _ => .inl
  | call f args location =>
    exact maintains_callCovered (accounted_levels hN levels).1 (accounted_levels hN levels).2 hop
      (fun _ => .inl) (.inr ⟨location, rfl, rfl⟩) args
  | run p =>
    have hresume : ∀ m, Machine.Covered c N m → { m with halted := false }.Covered c N :=
      fun m h => ⟨h.config, h.scopes⟩
    exact (Action.maintains_bind (Action.maintains_modify hresume) fun _ => hbody hop).mono
      fun _ => .inl

end Operation

/-- Whenever a machine fails, a node is to blame: one of the tree that it was given, or of the body
or a parameter of a function that it was given or had registered before.  Only a call that the host
asks for is refused without a node, at the location that the host gave. -/
theorem fault_has_source {α : Type} (op : Operation α) (levels : Nat) (m : Machine) (f : Fault)
    (h : (op.perform levels m).1 = .error (.failed f)) :
    (∃ root n, (root ∈ op.nodes ∨ ∃ g, m.Registers g ∧ root ∈ g.nodes) ∧ root.Contains n ∧
      Accounts m.config n f) ∨
    ∃ location ∈ op.callLocation?, f = .callDepthExceeded m.config.maxCallDepth location := by
  let N : Node → Prop := fun n =>
    ∃ root, (root ∈ op.nodes ∨ ∃ g, m.Registers g ∧ root ∈ g.nodes) ∧ root.Contains n
  have hN : Node.Closed N := fun n ⟨root, hroot, hn⟩ n' hn' => ⟨root, hroot, hn.tail hn'⟩
  have hcovered : m.Covered m.config N :=
    ⟨rfl, fun s hs name g hg n hn => ⟨n, .inr ⟨g, ⟨s, hs, name, hg⟩, hn⟩, .refl⟩⟩
  have hends :=
    op.accounted_act (c := m.config) hN (fun n hn => ⟨n, .inl hn, .refl⟩) levels m hcovered
  rw [op.perform_eq, Machine.perform] at h
  cases hact : op.act levels m with
  | ok a m' =>
    rw [hact] at h
    cases h
  | error s m' =>
    rw [hact] at h hends
    obtain rfl : s = .failed f := Except.error.inj h
    rcases hends.1 with ⟨n, ⟨root, hroot, hcontains⟩, hn⟩ | ⟨location, hlocation, heq⟩
    · exact .inl ⟨root, n, hroot, hcontains, hn⟩
    · exact .inr ⟨location, hlocation, Stop.failed.inj heq⟩

/-- A function whose parameter has a default with an operator that there is no rule for. -/
def powerByDefault : Closure where
  name := "power"
  params := [⟨{ name := "x" },
    some (.binary (.literal { value := .null }) "**" (.literal { value := .null }) { line := 3 })⟩]
  body := []
  home := 0

/-- The fault of a call is put down to the default of the parameter, and to its line. -/
theorem powerByDefault_to_blame :
    let m := (Machine.new {}).setFunction "power" powerByDefault
    let f : Fault := .unsupportedOperator "**" { line := 3 }
    let op : Operation Value := .evaluate (.call (.identifier { name := "power" }) [] {})
    (op.perform 3 m).1 = .error (.failed f) ∧
      ∃ root n, (root ∈ op.nodes ∨ ∃ g, m.Registers g ∧ root ∈ g.nodes) ∧ root.Contains n ∧
        Accounts m.config n f := by
  intro m f op
  refine ⟨rfl, ?_⟩
  rcases fault_has_source op 3 m f rfl with hnode | ⟨location, hlocation, -⟩
  · exact hnode
  · cases hlocation

end Treewalk
