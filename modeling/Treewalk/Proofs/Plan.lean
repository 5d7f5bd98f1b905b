import Treewalk.Machine.Evaluate

/-!
# Plans

A node of a tree is evaluated by a number of requests, one after the other: to evaluate or to
execute a part of it, to look a variable up, to bind a name, or to give up.  Which one comes next
depends on the answers so far.  A `Plan` is such a course of requests as a value.  What holds of
all requests of a plan holds of the plan by one induction, whatever the node is.

`Planned` ties a plan to an action: to run the plan is to act, whatever expressions and statements
do.  The plans of larger actions are put together in the same way as the actions.

## Main definitions

* `Request`, `Plan` — what is asked for, and in which order.
* `Plan.run`, `Plan.Within`, `Plan.Marked` — to run a plan, and what is known of it.
* `Planned` — an action that runs along a plan.
* `Action.Maintains` — a property that is kept, with the stops that are expected.
-/

namespace Treewalk

/-- How an action ends. -/
inductive Ending where
  | normal
  | returned (v : Value)
  | stopped (s : Stop)

/-- The ending of a statement that was not stopped. -/
def Completion.ending : Completion → Ending
  | .normal _ => .normal
  | .returned v => .returned v

theorem Completion.ending_ne_stopped (c : Completion) (s : Stop) : c.ending ≠ .stopped s := by
  intro h
  cases c <;> cases h

/-- The ending of whatever cannot return. -/
def silent {α : Type} (_ : α) : Ending := .normal

theorem silent_ne_stopped {α : Type} (a : α) (s : Stop) : silent a ≠ .stopped s := by
  intro h
  cases h

theorem silent_ne_returned {α : Type} (a : α) (v : Value) : silent a ≠ .returned v := by
  intro h
  cases h

/-- What a node asks for. -/
inductive Request where
  | evaluate (e : Expr)
  | execute (s : Stmt)
  /-- The value of a variable. -/
  | lookup (name : String)
  | unimplemented (kind : String) (location : Location)
  | assign (name : String) (v : Value)
  /-- Bind a variable in the current scope. -/
  | bind (name : String) (v : Value)
  /-- Bind a function in the current scope. -/
  | declare (name : String) (params : List Parameter) (body : List Stmt)
  /-- Nothing; it marks a return that has its value. -/
  | ret (v : Value)
  | halt
  | fail (f : Fault)
  /-- Give up for lack of levels. -/
  | exhaust

namespace Request

/-- The answers to a request. -/
abbrev Answer : Request → Type
  | .evaluate _ | .unimplemented .. => Value
  | .execute _ => Completion
  | .lookup _ => Option Value
  | .assign .. | .bind .. | .declare .. | .ret _ => Unit
  | .halt | .fail _ | .exhaust => Empty

/-- Meet a request, given how expressions are evaluated and statements executed. -/
def run (eval : Expr → Action Value) (exec : Stmt → Action Completion) :
    (r : Request) → Action r.Answer
  | .evaluate e => eval e
  | .execute s => exec s
  | .lookup name => do return (← get).lookupVariable name
  | .unimplemented kind location => Action.unimplemented kind location
  | .assign name v => modify (Machine.assign name v)
  | .bind name v => modify (Machine.setVariable name v)
  | .declare name params body =>
    modify fun m => m.setFunction name ⟨name, params, body, m.current.id⟩
  | .ret _ => return ()
  | .halt => Action.halt
  | .fail f => Action.fail f
  | .exhaust => throw .exhausted

/-- The ending that an answer stands for. -/
def ending : (r : Request) → r.Answer → Ending
  | .execute _, c => c.ending
  | .ret v, _ => .returned v
  | _, _ => .normal

theorem ending_ne_stopped (r : Request) (a : r.Answer) (s : Stop) : r.ending a ≠ .stopped s := by
  cases r with
  | execute s => exact Completion.ending_ne_stopped a _
  | _ =>
    intro h
    cases h

end Request

/-- A course of requests that branches over the answers. -/
inductive Plan (α : Type) where
  | done (a : α)
  | ask (r : Request) (next : r.Answer → Plan α)

namespace Plan

variable {α β : Type} {P : Request → Prop}

/-- One plan after another. -/
def bind : Plan α → (α → Plan β) → Plan β
  | done a, f => f a
  | ask r next, f => ask r fun a => (next a).bind f

/-- One request for its answer. -/
def one (r : Request) : Plan r.Answer := ask r done

/-- Meet the requests of a plan. -/
def run (eval : Expr → Action Value) (exec : Stmt → Action Completion) : Plan α → Action α
  | done a => pure a
  | ask r next => r.run eval exec >>= fun a => (next a).run eval exec

/-- All requests that may come up have a property. -/
def Within (P : Request → Prop) : Plan α → Prop
  | done _ => True
  | ask r next => P r ∧ ∀ a, (next a).Within P

/-- A plan that is at its end as soon as there was a return, and only then ends with one. -/
def Marked (mark : α → Ending) : Plan α → Prop
  | done a => mark a = .normal
  | ask r next => ∀ a, (r.ending a = .normal → (next a).Marked mark) ∧
      ∀ v, r.ending a = .returned v → ∃ b, next a = done b ∧ mark b = .returned v

theorem run_bind (eval : Expr → Action Value) (exec : Stmt → Action Completion) (p : Plan α)
    (f : α → Plan β) :
    (p.bind f).run eval exec = p.run eval exec >>= fun a => (f a).run eval exec := by
  induction p with
  | done a => rfl
  | ask r next ih => simp only [bind, run, ih, bind_assoc]

theorem bind_bind {γ : Type} (p : Plan α) (f : α → Plan β) (g : β → Plan γ) :
    (p.bind f).bind g = p.bind fun a => (f a).bind g := by
  induction p with
  | done a => rfl
  | ask r next ih => simp only [bind, ih]

theorem within_bind {p : Plan α} {f : α → Plan β} (hp : p.Within P) (hf : ∀ a, (f a).Within P) :
    (p.bind f).Within P := by
  induction p with
  | done a => exact hf a
  | ask r next ih => exact ⟨hp.1, fun a => ih a (hp.2 a)⟩

/-- Nothing comes after a return, since what comes first does not return. -/
theorem marked_bind {mark : β → Ending} {p : Plan α} {f : α → Plan β} (hp : p.Marked silent)
    (hf : ∀ a, (f a).Marked mark) : (p.bind f).Marked mark := by
  induction p with
  | done a => exact hf a
  | ask r next ih =>
    intro a
    refine ⟨fun h => ih a ((hp a).1 h), fun v h => ?_⟩
    obtain ⟨b, -, hb⟩ := (hp a).2 v h
    cases hb

end Plan

/-! ## Actions along plans -/

/-- An action, given how expressions are evaluated and statements executed. -/
abbrev Scheme (α : Type) := (Expr → Action Value) → (Stmt → Action Completion) → Action α

/-- A plan for an action: whatever expressions and statements do, to run it is to act. -/
structure Planned {α : Type} (P : Request → Prop) (mark : α → Ending) (F : Scheme α) where
  plan : Plan α
  within : plan.Within P
  marked : plan.Marked mark
  run_plan : ∀ eval exec, plan.run eval exec = F eval exec

namespace Planned

variable {α β : Type} {P : Request → Prop} {mark : β → Ending}

/-- A plan without requests. -/
protected def pure (b : β) (h : mark b = .normal := by rfl) :
    Planned P mark fun _ _ => pure b where
  plan := .done b
  within := trivial
  marked := h
  run_plan _ _ := rfl

/-- A plan after one that does not return. -/
protected def bind {F : Scheme α} {G : α → Scheme β} (p : Planned P silent F)
    (q : ∀ a, Planned P mark (G a)) :
    Planned P mark fun eval exec => F eval exec >>= fun a => G a eval exec where
  plan := p.plan.bind fun a => (q a).plan
  within := Plan.within_bind p.within fun a => (q a).within
  marked := Plan.marked_bind p.marked fun a => (q a).marked
  run_plan eval exec := by simp only [Plan.run_bind, p.run_plan, (q _).run_plan]

/-- The same plan for the same action. -/
def congr {F G : Scheme β} (p : Planned P mark F) (h : ∀ eval exec, F eval exec = G eval exec) :
    Planned P mark G where
  plan := p.plan
  within := p.within
  marked := p.marked
  run_plan eval exec := (p.run_plan eval exec).trans (h eval exec)

/-- One request that cannot return. -/
def ask (r : Request) (h : P r) (hr : ∀ a, r.ending a = .normal := by exact fun _ => rfl) :
    Planned P silent fun eval exec => r.run eval exec where
  plan := .one r
  within := ⟨h, fun _ => trivial⟩
  marked a := ⟨fun _ => rfl, fun v hv => by rw [hr a] at hv; cases hv⟩
  run_plan _ _ := bind_pure _

/-- A request without an answer. -/
def never (r : Request) (h : P r) (hr : r.Answer → False) {F : Scheme β}
    (hF : ∀ eval exec, (r.run eval exec >>= fun a => (hr a).elim) = F eval exec) :
    Planned P mark F where
  plan := .ask r fun a => (hr a).elim
  within := ⟨h, fun a => (hr a).elim⟩
  marked a := (hr a).elim
  run_plan eval exec := by
    rw [← hF]
    exact congrArg _ (funext fun a => (hr a).elim)

/-- Execute a statement. -/
def execute (s : Stmt) (h : P (.execute s)) :
    Planned P Completion.ending fun _ exec => exec s where
  plan := .one (.execute s)
  within := ⟨h, fun _ => trivial⟩
  marked
    | .normal _ => ⟨fun _ => rfl, nofun⟩
    | .returned v => ⟨nofun, fun _ h => ⟨.returned v, rfl, h⟩⟩
  run_plan _ _ := bind_pure _

/-- Execute a statement and go on unless it returned. -/
def executeThen {K : Value → Scheme Completion} (s : Stmt) (h : P (.execute s))
    (q : ∀ v, Planned P Completion.ending (K v)) :
    Planned P Completion.ending fun eval exec => exec s >>= fun c =>
      match c with
      | .normal v => K v eval exec
      | .returned v => pure (.returned v) where
  plan := .ask (.execute s) fun
    | .normal v => (q v).plan
    | .returned v => .done (.returned v)
  within := ⟨h, fun
    | .normal v => (q v).within
    | .returned _ => trivial⟩
  marked
    | .normal v => ⟨fun _ => (q v).marked, nofun⟩
    | .returned v => ⟨nofun, fun _ h => ⟨.returned v, rfl, h⟩⟩
  run_plan eval exec := by
    refine congrArg (exec s >>= ·) (funext fun c => ?_)
    cases c with
    | normal v => exact (q v).run_plan eval exec
    | returned v => rfl

/-- Return a value, which is marked before. -/
def ret (v : Value) (h : P (.ret v)) :
    Planned P Completion.ending fun _ _ => pure (.returned v) where
  plan := .ask (.ret v) fun _ => .done (.returned v)
  within := ⟨h, fun _ => trivial⟩
  marked _ := ⟨nofun, fun _ h => ⟨.returned v, rfl, h⟩⟩
  run_plan _ _ := rfl

/-- Evaluate an expression. -/
def evaluate (e : Expr) (h : P (.evaluate e)) : Planned P silent fun eval _ => eval e :=
  ask (.evaluate e) h

def unimplemented (kind : String) (location : Location) (h : P (.unimplemented kind location)) :
    Planned P silent fun _ _ => Action.unimplemented kind location :=
  ask (.unimplemented kind location) h

def bindName (name : String) (v : Value) (h : P (.bind name v)) :
    Planned P silent fun _ _ => modify (Machine.setVariable name v) :=
  ask (.bind name v) h

def fail (f : Fault) (h : P (.fail f)) : Planned P mark fun _ _ => Action.fail f :=
  never (.fail f) h nofun fun _ _ => rfl

end Planned

/-! ## Outcomes of actions -/

section Outcomes

variable {α β : Type}

/-- To read the machine is to go on with it. -/
theorem Action.get_bind (f : Machine → Action α) (m : Machine) : (get >>= f) m = f m m := rfl

/-- An action and the next one come to their end if the first one does, and the next one after it. -/
theorem Action.bind_eq_ok_iff {act : Action α} {f : α → Action β} {m m' : Machine} {b : β} :
    (act >>= f) m = .ok b m' ↔ ∃ a n, act m = .ok a n ∧ f a n = .ok b m' := by
  simp only [bind, EStateM.bind]
  cases act m <;> simp [and_assoc]

theorem Action.unimplemented_eq (kind : String) (location : Location) (m : Machine) :
    unimplemented kind location m =
      match m.config.policy with
      | .permissive => .ok .absent m
      | .strict => .error (.failed (.unimplemented kind location)) m := by
  rw [unimplemented, get_bind]
  cases m.config.policy <;> rfl

namespace Machine

theorem perform_bind (act : Action α) (f : α → Action β) (m : Machine) :
    m.perform (act >>= f) =
      match m.perform act with
      | (.ok a, m') => m'.perform (f a)
      | (.error s, m') => (.error s, m') := by
  simp only [perform, bind, EStateM.bind]
  cases act m <;> rfl

theorem perform_unimplemented (kind : String) (location : Location) (m : Machine) :
    m.perform (Action.unimplemented kind location) =
      match m.config.policy with
      | .permissive => (.ok .absent, m)
      | .strict => (.error (.failed (.unimplemented kind location)), m) := by
  rw [perform, Action.unimplemented_eq]
  cases m.config.policy <;> rfl

end Machine

end Outcomes

/-! ## What actions maintain -/

namespace Action

variable {α β : Type} {I J : Machine → Prop} {E : Stop → Prop}

/-- From a machine with a property an action leads to one with it, and stops only in ways that are
expected. -/
def Maintains (I : Machine → Prop) (E : Stop → Prop) (act : Action α) : Prop :=
  ∀ m, I m → match act m with
    | .ok _ m' => I m'
    | .error s m' => E s ∧ I m'

/-- More ways to stop may be expected. -/
theorem Maintains.mono {E' : Stop → Prop} {act : Action α} (h : act.Maintains I E)
    (hE : ∀ s, E s → E' s) : act.Maintains I E' := by
  intro m hm
  have hends := h m hm
  cases hact : act m with
  | ok a m' =>
    rw [hact] at hends
    exact hends
  | error s m' =>
    rw [hact] at hends
    exact ⟨hE s hends.1, hends.2⟩

theorem maintains_pure (a : α) : (pure a : Action α).Maintains I E := fun _ h => h

theorem maintains_throw {s : Stop} (hs : E s) : (throw s : Action α).Maintains I E :=
  fun _ h => ⟨hs, h⟩

theorem maintains_modify {f : Machine → Machine} (hf : ∀ m, I m → I (f m)) :
    (modify f : Action Unit).Maintains I E :=
  hf

theorem maintains_bind {act : Action α} {f : α → Action β} (hact : act.Maintains I E)
    (hf : ∀ a, (f a).Maintains I E) : (act >>= f).Maintains I E := by
  intro m h
  have hends := hact m h
  simp only [bind, EStateM.bind]
  cases hm : act m with
  | ok a m' =>
    rw [hm] at hends
    exact hf a m' hends
  | error s m' =>
    rw [hm] at hends
    exact hends

theorem maintains_halt (hE : E .halted) (hI : ∀ m, I m → I m.halt) :
    (halt : Action α).Maintains I E :=
  maintains_bind (maintains_modify hI) fun _ => maintains_throw hE

/-- Under the permissive policy there is nothing to expect. -/
theorem maintains_unimplemented_of_policy {kind : String} {location : Location}
    (hE : ∀ m, I m → m.config.policy = .strict → E (.failed (.unimplemented kind location))) :
    (unimplemented kind location).Maintains I E := by
  intro m h
  rw [unimplemented_eq]
  cases hpolicy : m.config.policy with
  | permissive => exact h
  | strict => exact ⟨hE m h hpolicy, h⟩

theorem maintains_unimplemented {kind : String} {location : Location}
    (hE : E (.failed (.unimplemented kind location))) :
    (unimplemented kind location).Maintains I E :=
  maintains_unimplemented_of_policy fun _ _ _ => hE

/-- The scope of a call may have a property of its own. -/
theorem maintains_inCall {act : Action α} {parent : Option Nat} {m : Machine}
    (hact : act.Maintains J E) (henter : J (m.enterCall parent))
    (hleave : ∀ m', J m' → I m'.leaveCall) :
    match inCall parent act m with
    | .ok _ m' => I m'
    | .error s m' => E s ∧ I m' := by
  have hends := hact _ henter
  simp only [inCall]
  cases hm : act (m.enterCall parent) with
  | ok a m' =>
    rw [hm] at hends
    exact hleave m' hends
  | error s m' =>
    rw [hm] at hends
    exact ⟨hends.1, hleave m' hends.2⟩

end Action

/-- A plan maintains what all of its requests maintain. -/
theorem Plan.maintains_run {α : Type} {I : Machine → Prop} {E : Stop → Prop}
    {P : Request → Prop} {eval : Expr → Action Value} {exec : Stmt → Action Completion}
    {p : Plan α} (hp : p.Within P) (h : ∀ r, P r → (r.run eval exec).Maintains I E) :
    (p.run eval exec).Maintains I E := by
  induction p with
  | done a => exact Action.maintains_pure a
  | ask r next ih => exact Action.maintains_bind (h r hp.1) fun a => ih a (hp.2 a)

theorem Planned.maintains {α : Type} {I : Machine → Prop} {E : Stop → Prop}
    {P : Request → Prop} {mark : α → Ending} {F : Scheme α} {eval : Expr → Action Value}
    {exec : Stmt → Action Completion} (p : Planned P mark F)
    (h : ∀ r, P r → (r.run eval exec).Maintains I E) : (F eval exec).Maintains I E := by
  rw [← p.run_plan]
  exact p.plan.maintains_run p.within h

end Treewalk
