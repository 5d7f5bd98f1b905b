import Treewalk.Proofs.Footprint

/-!
# Parameters

A call binds its parameters in their order, in a new scope: each one to its argument, or else to the
value of its default.  What is done for one parameter is a `Binding`.  Without an argument it is the
declaration of a variable, with the default for an initializer, so that a call does what these
declarations do in the same scope, and after them the block of its body.

The bindings are put together from the parameters and the arguments from left to right.  So a
default is evaluated after the parameters before it were bound, and before the others are.

## Main definitions

* `Binding`, `Parameter.binding`, `bindings` — what is done for the parameters of a call.
* `callInOrder` — a call as a list of bindings with the body after them.
* `Binding.Spares` — a binding that has nothing to do with a name.
* `InTurn` — what is known when it is the turn of a parameter.
-/

namespace Treewalk

/-! ## Bindings -/

/-- What is done for a parameter. -/
inductive Binding where
  /-- Bind the argument. -/
  | argument (name : String) (v : Value)
  /-- Declare a variable. -/
  | declaration (d : Declarator)

namespace Binding

/-- The name that is bound. -/
def name : Binding → String
  | .argument name _ => name
  | .declaration d => d.id.name

/-- Bind in the current scope. -/
def perform (levels : Nat) : Binding → Action Unit
  | .argument name v => modify (Machine.setVariable name v)
  | .declaration d => do
    let _ ← execute levels (.declaration .letKind [d] {})

/-- The value that is bound. -/
def value (levels : Nat) : Binding → Action Value
  | .argument _ v => return v
  | .declaration d => evaluateOptional (evaluate levels) d.init

/-- A declaration takes one level. -/
theorem perform_succ (levels : Nat) (b : Binding) :
    b.perform (levels + 1) = b.value levels >>= fun v => modify (Machine.setVariable b.name v) := by
  cases b with
  | argument name v => rfl
  | declaration d =>
    simp only [perform, value, name, execute, executeNode, declareAll, bind_assoc, pure_bind]
    rfl

end Binding

/-- What is done for a parameter, given its argument.  An absent argument is as good as none. -/
def Parameter.binding (p : Parameter) : Option Value → Binding
  | none => .declaration ⟨p.id, p.default⟩
  | some v => if v.isAbsent then .declaration ⟨p.id, p.default⟩ else .argument p.id.name v

/-- What is done for parameters, in their order. -/
def bindings : List Parameter → List Value → List Binding
  | [], _ => []
  | p :: ps, args => p.binding args.head? :: bindings ps args.tail

/-- Bind one after the other. -/
def performAll (levels : Nat) : List Binding → Action Unit
  | [] => return ()
  | b :: bs => do
    b.perform levels
    performAll levels bs

/-- Call a function by its bindings and the block of its body, in a scope with a link to the home of
the function. -/
def callInOrder (levels : Nat) (f : Closure) (args : List Value) : Action Value :=
  Action.inCall (some f.home) do
    performAll levels (bindings f.params args)
    return (← execute levels (.block f.body {})).value

theorem Parameter.name_binding (p : Parameter) (arg : Option Value) :
    (p.binding arg).name = p.id.name := by
  cases arg with
  | none => rfl
  | some v =>
    rw [binding]
    split <;> rfl

theorem argumentFor_eq (levels : Nat) (p : Parameter) (args : List Value) :
    argumentFor (evaluate levels) p args = (p.binding args.head?).value levels := by
  cases args with
  | nil => rfl
  | cons v args =>
    rw [argumentFor, List.head?_cons, Parameter.binding]
    split <;> rfl

theorem bindAll_eq (levels : Nat) (ps : List Parameter) (args : List Value) :
    bindAll (evaluate levels) ps args = performAll (levels + 1) (bindings ps args) := by
  induction ps generalizing args with
  | nil => rfl
  | cons p ps ih =>
    simp only [bindAll, bindings, performAll, Binding.perform_succ, Parameter.name_binding,
      argumentFor_eq, ih, bind_assoc]

/-- Below the limit a call binds its parameters in order. -/
theorem callClosure_eq {m : Machine} (h : m.callDepth < m.config.maxCallDepth) (levels : Nat)
    (f : Closure) (args : List Value) (location : Location) :
    callClosure levels f args location m = callInOrder (levels + 1) f args m := by
  rw [callClosure, call, Action.get_bind, if_neg (Nat.not_le.mpr h), bindAll_eq]
  rfl

/-! ## Arguments -/

theorem bindings_append (ps qs : List Parameter) (args : List Value) :
    bindings (ps ++ qs) args = bindings ps args ++ bindings qs (args.drop ps.length) := by
  induction ps generalizing args with
  | nil => rfl
  | cons p ps ih => simp [bindings, ih]

/-- Arguments without a parameter are dropped. -/
theorem bindings_take (ps : List Parameter) (args : List Value) {count : Nat}
    (h : ps.length ≤ count) : bindings ps (args.take count) = bindings ps args := by
  induction ps generalizing args count with
  | nil => rfl
  | cons p ps ih =>
    cases count with
    | zero => exact absurd h (Nat.not_succ_le_zero ps.length)
    | succ count =>
      cases args with
      | nil => rfl
      | cons v args => simp [bindings, ih args (Nat.le_of_succ_le_succ h)]

/-- Absent arguments behind the others are as good as none. -/
theorem bindings_append_absent (ps : List Parameter) (args : List Value) (count : Nat) :
    bindings ps (args ++ List.replicate count .absent) = bindings ps args := by
  induction ps generalizing args count with
  | nil => rfl
  | cons p ps ih =>
    cases args with
    | cons v args => simp [bindings, ih]
    | nil =>
      cases count with
      | zero => rfl
      | succ count =>
        have hrest := ih [] count
        rw [List.nil_append] at hrest ⊢
        rw [List.replicate_succ, bindings, bindings, List.tail_cons, hrest]
        rfl

/-- A call with other arguments that come to the same bindings. -/
theorem callClosure_congr {f : Closure} {args args' : List Value}
    (h : bindings f.params args' = bindings f.params args) (levels : Nat) (location : Location) :
    callClosure levels f args' location = callClosure levels f args location := by
  simp only [callClosure, call, bindAll_eq, h]

theorem performAll_append (levels : Nat) (bs cs : List Binding) :
    performAll levels (bs ++ cs) = (do performAll levels bs; performAll levels cs) := by
  induction bs with
  | nil => rfl
  | cons b bs ih => simp only [List.cons_append, performAll, ih, bind_assoc]

/-! ## One binding -/

namespace Machine

variable {m : Machine} {name : String} {v : Value}

theorem current_setVariable (name : String) (v : Value) (m : Machine) :
    (m.setVariable name v).current = m.current.bindVariable name v := by
  rw [setVariable, changeCurrent, current, current]
  cases m.frames <;> rfl

theorem get?_setVariable (name : String) (v : Value) (m : Machine) :
    Entries.get? name (m.setVariable name v).current.vars = some v := by
  rw [current_setVariable]
  exact Entries.get?_insert_self name v m.current.vars

theorem get?_setVariable_of_ne {other : String} (h : other ≠ name) (v : Value) (m : Machine) :
    Entries.get? other (m.setVariable name v).current.vars =
      Entries.get? other m.current.vars := by
  rw [current_setVariable]
  exact Entries.get?_insert_of_ne h v m.current.vars

/-- The current scope comes first. -/
theorem lookupVariable_of_current (h : Entries.get? name m.current.vars = some v) :
    m.lookupVariable name = some v := by
  obtain ⟨outer, hchain⟩ := m.chain_eq_cons
  rw [lookupVariable, hchain, List.findSome?_cons, h]

end Machine

namespace Binding

variable {levels : Nat} {b : Binding} {m n n' : Machine}

theorem perform_eq_ok (h : b.perform (levels + 1) n = .ok () n') :
    ∃ v k, b.value levels n = .ok v k ∧ n' = k.setVariable b.name v := by
  rw [perform_succ, Action.bind_eq_ok_iff] at h
  obtain ⟨v, k, hvalue, hbind⟩ := h
  refine ⟨v, k, hvalue, ?_⟩
  cases hbind
  rfl

/-- A binding that has nothing to do with a name: another one is bound, and to find the value for it
leaves the variable of the current scope as it is. -/
structure Spares (levels : Nat) (name : String) (b : Binding) : Prop where
  other : name ≠ b.name
  value : ∀ n v n', b.value levels n = .ok v n' →
    Entries.get? name n'.current.vars = Entries.get? name n.current.vars

theorem spares_argument {name other : String} (h : name ≠ other) (v : Value) :
    (argument other v).Spares levels name where
  other := h
  value n w n' hvalue := by
    cases hvalue
    rfl

theorem Spares.perform {name : String} (h : b.Spares levels name)
    (hrun : b.perform (levels + 1) n = .ok () n') :
    Entries.get? name n'.current.vars = Entries.get? name n.current.vars := by
  obtain ⟨v, k, hvalue, rfl⟩ := perform_eq_ok hrun
  rw [Machine.get?_setVariable_of_ne h.other, h.value n v k hvalue]

/-- A binding does no more than a statement may do, and its name is bound then. -/
theorem holds_perform (h : footprintInvariant.holds (.statement, m) n)
    (hrun : b.perform (levels + 1) n = .ok () n') :
    footprintInvariant.holds (.statement, m) n' ∧ Entries.has b.name n'.current.vars = true := by
  obtain ⟨v, k, hvalue, rfl⟩ := perform_eq_ok hrun
  have hk : footprintInvariant.holds (.statement, m) k := by
    cases b with
    | argument name w =>
      cases hvalue
      exact h
    | declaration d =>
      cases hinit : d.init with
      | none =>
        simp only [value, hinit, evaluateOptional] at hvalue
        cases hvalue
        exact h
      | some e =>
        simp only [value, hinit, evaluateOptional] at hvalue
        have hends := footprintInvariant.evaluate h levels e
        rwa [Machine.perform, hvalue] at hends
  have hbinds : footprintInvariant.binds (.statement, m) := rfl
  refine ⟨footprintInvariant.setVariable hbinds hk b.name v, ?_⟩
  rw [Entries.has, Machine.get?_setVariable]
  rfl

end Binding

/-! ## All bindings -/

section Runs

variable {levels : Nat} {bs : List Binding} {m n n' : Machine}

theorem performAll_cons_eq_ok {b : Binding} (h : performAll levels (b :: bs) n = .ok () n') :
    ∃ k, b.perform levels n = .ok () k ∧ performAll levels bs k = .ok () n' := by
  rw [performAll, Action.bind_eq_ok_iff] at h
  obtain ⟨⟨⟩, k, hb, hbs⟩ := h
  exact ⟨k, hb, hbs⟩

theorem get?_performAll {name : String} (h : ∀ b ∈ bs, b.Spares levels name)
    (hrun : performAll (levels + 1) bs n = .ok () n') :
    Entries.get? name n'.current.vars = Entries.get? name n.current.vars := by
  induction bs generalizing n with
  | nil =>
    cases hrun
    rfl
  | cons b bs ih =>
    obtain ⟨k, hb, hbs⟩ := performAll_cons_eq_ok hrun
    rw [List.forall_mem_cons] at h
    rw [ih h.2 hbs, h.1.perform hb]

/-- What is bound once stays bound: by induction on the bindings. -/
theorem holds_performAll (h : footprintInvariant.holds (.statement, m) n)
    (hrun : performAll (levels + 1) bs n = .ok () n') :
    footprintInvariant.holds (.statement, m) n' ∧
      ∀ b ∈ bs, Entries.has b.name n'.current.vars = true := by
  induction bs generalizing m n with
  | nil =>
    cases hrun
    exact ⟨h, nofun⟩
  | cons b bs ih =>
    obtain ⟨k, hb, hbs⟩ := performAll_cons_eq_ok hrun
    obtain ⟨hk, hname⟩ := b.holds_perform h hb
    -- the other bindings begin with the machine where the first name has just been bound
    have hself : footprintInvariant.holds (.statement, k) k := ⟨hk.1, .refl k⟩
    obtain ⟨hend, hrest⟩ := ih hself hbs
    refine ⟨⟨hend.1, hk.2.trans hend.2⟩, List.forall_mem_cons.mpr ⟨?_, hrest⟩⟩
    exact hend.2.current.vars b.name hname

end Runs

/-! ## The turn of a parameter -/

/-- In a call some parameters have been bound, and no other ones yet. -/
def AtTurn (levels : Nat) (f : Closure) (args : List Value) (before : List Parameter)
    (m n : Machine) : Prop :=
  performAll (levels + 1) (bindings before (args.take before.length)) (m.enterCall (some f.home)) =
    .ok () n

/-- What is known of a parameter of a call with others before and after it. -/
structure InTurn (levels : Nat) (f : Closure) (args : List Value) (before : List Parameter)
    (p : Parameter) (after : List Parameter) (m : Machine) : Prop where
  /-- The parameters before it and their arguments are all that matters until it is its turn. -/
  order : performAll (levels + 1) (bindings f.params args) = (do
    performAll (levels + 1) (bindings before (args.take before.length))
    (p.binding args[before.length]?).perform (levels + 1)
    performAll (levels + 1) (bindings after (args.drop (before.length + 1))))
  /-- The parameters before it are found in the scope of the call. -/
  seen : ∀ n, AtTurn levels f args before m n → n.current.id = m.nextId ∧
    ∀ q ∈ before, ∃ v, Entries.get? q.id.name n.current.vars = some v ∧
      n.lookupVariable q.id.name = some v
  /-- There is nothing else in that scope but what the bindings before have put there. -/
  unseen : ∀ n, AtTurn levels f args before m n → ∀ name,
    (∀ b ∈ bindings before (args.take before.length), b.Spares levels name) →
      Entries.has name n.current.vars = false
  /-- Its value takes the place of any earlier one, and stays unless a binding is about its name. -/
  kept : ∀ (n : Machine) v k, (p.binding args[before.length]?).value levels n = .ok v k →
    ∀ bs n', (∀ b ∈ bs, b.Spares levels p.id.name) →
      performAll (levels + 1) (p.binding args[before.length]? :: bs) n = .ok () n' →
        n'.lookupVariable p.id.name = some v

section Turn

variable {levels : Nat} {f : Closure} {args : List Value} {before : List Parameter}
  {p : Parameter} {after : List Parameter} {m n : Machine}

theorem performAll_turn (h : f.params = before ++ p :: after) (levels : Nat) (args : List Value) :
    performAll levels (bindings f.params args) = (do
      performAll levels (bindings before (args.take before.length))
      (p.binding args[before.length]?).perform levels
      performAll levels (bindings after (args.drop (before.length + 1)))) := by
  rw [h, bindings_append, bindings_take before args (Nat.le_refl _), performAll_append, bindings,
    List.head?_drop, List.tail_drop]
  rfl

theorem mem_bindings {q : Parameter} {ps : List Parameter} (hq : q ∈ ps) (args : List Value) :
    ∃ b ∈ bindings ps args, b.name = q.id.name := by
  induction ps generalizing args with
  | nil => cases hq
  | cons p ps ih =>
    rcases List.mem_cons.mp hq with rfl | hq
    · exact ⟨_, List.mem_cons_self, q.name_binding args.head?⟩
    · obtain ⟨b, hb, hname⟩ := ih hq args.tail
      exact ⟨b, List.mem_cons_of_mem _ hb, hname⟩

theorem AtTurn.seen (h : AtTurn levels f args before m n) (hm : m.WellNumbered) :
    n.current.id = m.nextId ∧
      ∀ q ∈ before, ∃ v, Entries.get? q.id.name n.current.vars = some v ∧
        n.lookupVariable q.id.name = some v := by
  obtain ⟨⟨-, halters⟩, hnames⟩ :=
    holds_performAll (m := m.enterCall (some f.home)) ⟨hm.enterCall _, .refl _⟩ h
  refine ⟨Scope.id_eq_of_place halters.current.place, ?_⟩
  intro q hq
  obtain ⟨b, hb, hname⟩ := mem_bindings hq (args.take before.length)
  have hhas := hnames b hb
  rw [hname, Entries.has, Option.isSome_iff_exists] at hhas
  obtain ⟨v, hv⟩ := hhas
  exact ⟨v, hv, Machine.lookupVariable_of_current hv⟩

theorem AtTurn.unseen (h : AtTurn levels f args before m n) {name : String}
    (hspares : ∀ b ∈ bindings before (args.take before.length), b.Spares levels name) :
    Entries.has name n.current.vars = false := by
  rw [Entries.has, get?_performAll hspares h]
  rfl

theorem lookupVariable_performAll {b : Binding} {bs : List Binding} {v : Value} {k n' : Machine}
    (hvalue : b.value levels n = .ok v k) (hspares : ∀ c ∈ bs, c.Spares levels b.name)
    (h : performAll (levels + 1) (b :: bs) n = .ok () n') :
    n'.lookupVariable b.name = some v := by
  obtain ⟨j, hb, hbs⟩ := performAll_cons_eq_ok h
  obtain ⟨w, k', hvalue', rfl⟩ := Binding.perform_eq_ok hb
  rw [hvalue] at hvalue'
  cases hvalue'
  refine Machine.lookupVariable_of_current ?_
  rw [get?_performAll hspares hbs, Machine.get?_setVariable]

theorem inTurn (h : f.params = before ++ p :: after) (levels : Nat) (args : List Value)
    (hm : m.WellNumbered) : InTurn levels f args before p after m where
  order := performAll_turn h (levels + 1) args
  seen _ hturn := hturn.seen hm
  unseen _ hturn _ hspares := hturn.unseen hspares
  kept n v k hvalue bs n' hspares hrun := by
    rw [← p.name_binding args[before.length]?] at hspares ⊢
    exact lookupVariable_performAll hvalue hspares hrun

end Turn

/-- A call below the limit does what its bindings do in a new scope, one after the other, and then
the block of its body.  When it is the turn of a parameter, the parameters before it are found in
that scope and the others are not; its value takes the place of an earlier one.  Absent arguments
behind the others and arguments behind the parameters make no difference. -/
theorem call_binds_in_order (f : Closure) (args : List Value) :
    (∀ levels location (m : Machine), m.callDepth < m.config.maxCallDepth →
        callClosure levels f args location m = callInOrder (levels + 1) f args m) ∧
      (∀ before p after, f.params = before ++ p :: after →
        ∀ levels (m : Machine), m.WellNumbered → InTurn levels f args before p after m) ∧
      (∀ count levels location,
        callClosure levels f (args ++ List.replicate count .absent) location =
          callClosure levels f args location) ∧
      ∀ count, f.params.length ≤ count → ∀ levels location,
        callClosure levels f (args.take count) location = callClosure levels f args location := by
  refine ⟨?_, ?_, ?_, ?_⟩
  · intro levels location m hm
    exact callClosure_eq hm levels f args location
  · intro before p after h levels m hm
    exact inTurn h levels args hm
  · intro count levels location
    exact callClosure_congr (bindings_append_absent f.params args count) levels location
  · intro count h levels location
    exact callClosure_congr (bindings_take f.params args h) levels location

/-- A parameter without a default. -/
def parameterX : Parameter := ⟨{ name := "x" }, none⟩

/-- A parameter with the value of the other one for its default. -/
def parameterY : Parameter := ⟨{ name := "y" }, some (.identifier { name := "x" })⟩

/-- A function with the first parameter twice. -/
def pairOfX : Closure where
  name := "f"
  params := [parameterX, parameterX, parameterY]
  body := [.ret (some (.array [.identifier { name := "x" }, .identifier { name := "y" }] {})) {}]
  home := 0

/-- When it is the turn of the default, it finds the second argument under the first name, and
nothing under the name of its own parameter. -/
theorem pairOfX_called :
    let m := Machine.new {}
    let args : List Value := [.null, .bool true, .absent, .null]
    let n := (m.enterCall (some 0)).setVariable "x" (.bool true)
    m.callDepth < m.config.maxCallDepth ∧
      callClosure 3 pairOfX args {} m = .ok (.array [.bool true, .bool true]) { nextId := 2 } ∧
      callClosure 3 pairOfX args {} m = callInOrder 4 pairOfX args m ∧
      m.WellNumbered ∧ AtTurn 3 pairOfX args [parameterX, parameterX] m n ∧
      (∃ v, Entries.get? "x" n.current.vars = some v ∧ n.lookupVariable "x" = some v) ∧
      Entries.has "y" n.current.vars = false ∧
      callClosure 3 pairOfX [.null, .bool true, .absent] {} m = callClosure 3 pairOfX args {} m := by
  intro m args n
  obtain ⟨hcalls, hturns, -, hdropped⟩ := call_binds_in_order pairOfX args
  have hm : m.WellNumbered := ⟨by decide, by decide⟩
  have hdepth : m.callDepth < m.config.maxCallDepth := by decide
  have hturn : AtTurn 3 pairOfX args [parameterX, parameterX] m n := rfl
  have hdefault := hturns [parameterX, parameterX] parameterY [] rfl 3 m hm
  have hspares : ∀ b ∈ bindings [parameterX, parameterX] (args.take 2), b.Spares 3 "y" := by
    have hne : "y" ≠ "x" := by decide
    exact List.forall_mem_cons.mpr ⟨Binding.spares_argument hne _,
      List.forall_mem_singleton.mpr (Binding.spares_argument hne _)⟩
  exact ⟨hdepth, rfl, hcalls 3 {} m hdepth, hm, hturn,
    (hdefault.seen n hturn).2 parameterX List.mem_cons_self,
    hdefault.unseen n hturn "y" hspares,
    congrFun (hdropped 3 (Nat.le_refl 3) 3 {}) m⟩

end Treewalk
