import Mathlib.Data.List.Induction
import Treewalk.Machine.Session
import Treewalk.Proofs.Course

/-!
# Traces

A trace is the outcome of a run together with the list of what happened in it: which expressions
and statements were begun, what was bound, which calls were entered and left, and why the run
stopped.  Nothing but an event changes a machine, so that the events of a run can be replayed and
lead to the machine at its end.

The trace of a node comes from its plan.  Every request stands for one event or for the trace of a
part.

## Main definitions

* `Event`, `Event.apply`, `Machine.replay` — what happens to a machine.
* `Everywhere`, `prefix_induction` — what holds at every event of a list, and after any of them.
* `Trace`, `Traced` — actions that tell what they do.
* `evaluateTraced`, `executeTraced`, `executeBodyTraced`, `callClosureTraced`, `runTraced` — the
  traces of evaluation.
-/

namespace Treewalk

/-! ## Events -/

/-- What happens to a machine. -/
inductive Event where
  /-- An expression is begun. -/
  | evaluates (e : Expr)
  /-- A statement is begun. -/
  | executes (s : Stmt)
  | assigns (name : String) (v : Value)
  /-- A variable is bound in the current scope. -/
  | binds (name : String) (v : Value)
  /-- A function is bound in the current scope, which becomes its home. -/
  | declares (name : String) (params : List Parameter) (body : List Stmt)
  /-- The scope of a call is entered. -/
  | enters (link : Option Nat)
  /-- The scope of a call is left. -/
  | leaves
  | halts
  | fails (f : Fault)
  /-- A return has its value. -/
  | returns (v : Value)
  /-- A new pass begins. -/
  | resumes
  /-- A host enters a scope. -/
  | opens
  /-- A host leaves a scope. -/
  | closes
  /-- A host binds a function in the current scope. -/
  | registers (name : String) (f : Closure)

namespace Event

/-- What an event makes of a machine. -/
def apply : Event → Machine → Machine
  | .assigns name v, m => m.assign name v
  | .binds name v, m => m.setVariable name v
  | .declares name params body, m => m.setFunction name ⟨name, params, body, m.current.id⟩
  | .enters link, m => m.enterCall link
  | .leaves, m => m.leaveCall
  | .halts, m => m.halt
  | .resumes, m => { m with halted := false }
  | .opens, m => m.enterScope
  | .closes, m => m.exitScope
  | .registers name f, m => m.setFunction name f
  | .evaluates _, m | .executes _, m | .fails _, m | .returns _, m => m

/-- The stop that an event is the beginning of. -/
def stop? : Event → Option Stop
  | .halts => some .halted
  | .fails f => some (.failed f)
  | _ => none

end Event

/-- Let events happen one after the other. -/
def Machine.replay (m : Machine) (events : List Event) : Machine :=
  events.foldl (fun m ev => ev.apply m) m

namespace Machine

@[simp] theorem replay_nil (m : Machine) : m.replay [] = m := rfl

@[simp] theorem replay_cons (m : Machine) (ev : Event) (events : List Event) :
    m.replay (ev :: events) = (ev.apply m).replay events := rfl

@[simp] theorem replay_append (m : Machine) (a b : List Event) :
    m.replay (a ++ b) = (m.replay a).replay b :=
  List.foldl_append

end Machine

/-! ## Events with what is around them -/

/-- What holds at every event of a list, given the events before it and after it. -/
def Everywhere (Q : List Event → Event → List Event → Prop) (events : List Event) : Prop :=
  ∀ past ev later, events = past ++ ev :: later → Q past ev later

namespace Everywhere

variable {Q Q' : List Event → Event → List Event → Prop} {ev : Event} {a b events : List Event}

theorem nil : Everywhere Q [] := by
  intro past ev later h
  exact absurd h.symm (by simp)

theorem cons (h : Q [] ev events) (hrest : Everywhere (fun past => Q (ev :: past)) events) :
    Everywhere Q (ev :: events) := by
  intro past ev' later heq
  cases past with
  | nil =>
    obtain ⟨rfl, rfl⟩ := List.cons.inj heq
    exact h
  | cons first past =>
    obtain ⟨rfl, rfl⟩ := List.cons.inj heq
    exact hrest past ev' later rfl

theorem append (ha : Everywhere (fun past ev later => Q past ev (later ++ b)) a)
    (hb : Everywhere (fun past => Q (a ++ past)) b) : Everywhere Q (a ++ b) := by
  induction a generalizing Q with
  | nil => exact hb
  | cons ev a ih =>
    refine cons (ha [] ev a rfl) (ih (fun past ev' later heq => ?_) hb)
    exact ha (ev :: past) ev' later (by rw [heq, List.cons_append])

theorem mono (h : Everywhere Q events) (hQ : ∀ past ev later, Q past ev later → Q' past ev later) :
    Everywhere Q' events :=
  fun past ev later heq => hQ past ev later (h past ev later heq)

end Everywhere

/-- What holds at the beginning of a list, and is kept by each of its elements, holds after any of
the first ones. -/
theorem prefix_induction {α : Type} {events : List α} {P : List α → Prop} (hnil : P [])
    (hstep : ∀ past ev later, events = past ++ ev :: later → P past → P (past ++ [ev]))
    {past : List α} (hpast : past <+: events) : P past := by
  induction past using List.reverseRecOn with
  | nil => exact hnil
  | append_singleton past ev ih =>
    obtain ⟨later, hlater⟩ := hpast
    rw [List.append_assoc] at hlater
    exact hstep past ev later hlater.symm (ih ⟨[ev] ++ later, hlater⟩)

/-! ## Actions with their events -/

/-- What happened in a run, and its outcome. -/
structure Trace (α : Type) where
  events : List Event
  outcome : Except Stop α

/-- An action that tells what it does.  The machine after it is the one that its events lead to. -/
abbrev Traced (α : Type) := Machine → Trace α

namespace Traced

variable {α β : Type}

protected def pure (a : α) : Traced α := fun _ => ⟨[], .ok a⟩

/-- Go on from the machine that the events lead to. -/
protected def bind (t : Traced α) (f : α → Traced β) : Traced β := fun m =>
  match (t m).outcome with
  | .ok a =>
    let rest := f a (m.replay (t m).events)
    ⟨(t m).events ++ rest.events, rest.outcome⟩
  | .error s => ⟨(t m).events, .error s⟩

protected def map (f : α → β) (t : Traced α) : Traced β := fun m =>
  ⟨(t m).events, (t m).outcome.map f⟩

/-- Let one thing happen. -/
def log (ev : Event) : Traced Unit := fun _ => ⟨[ev], .ok ()⟩

/-- Stop with one last event. -/
def stop (ev : Event) (s : Stop) : Traced α := fun _ => ⟨[ev], .error s⟩

/-- Stop with a fault. -/
def fail (f : Fault) : Traced α := stop (.fails f) (.failed f)

/-- Give up for lack of levels. -/
def exhaust : Traced α := fun _ => ⟨[], .error .exhausted⟩

/-- Act in the scope of a call. -/
def inCall (link : Option Nat) (t : Traced α) : Traced α := fun m =>
  let body := t (m.enterCall link)
  ⟨.enters link :: (body.events ++ [.leaves]), body.outcome⟩

end Traced

/-! ## Traces of evaluation -/

section Parts

variable (eval : Expr → Traced Value) (exec : Stmt → Traced Completion)

/-- What a request lets happen. -/
def Request.traced : (r : Request) → Traced r.Answer
  | .evaluate e => eval e
  | .execute s => exec s
  | .lookup name => fun m => ⟨[], .ok (m.lookupVariable name)⟩
  | .unimplemented kind location => fun m =>
    match m.config.policy with
    | .permissive => Traced.pure Value.absent m
    | .strict => Traced.fail (.unimplemented kind location) m
  | .assign name v => .log (.assigns name v)
  | .bind name v => .log (.binds name v)
  | .declare name params body => .log (.declares name params body)
  | .ret v => .log (.returns v)
  | .halt => .stop .halts .halted
  | .fail f => .fail f
  | .exhaust => .exhaust

/-- What a plan lets happen. -/
def Plan.traced {α : Type} : Plan α → Traced α
  | .done a => .pure a
  | .ask r next => (r.traced eval exec).bind fun a => (next a).traced

/-- What a call lets happen. -/
def callTraced (f : Closure) (args : List Value) (location : Location) : Traced Value := fun m =>
  if m.config.maxCallDepth ≤ m.callDepth then
    Traced.fail (.callDepthExceeded m.config.maxCallDepth location) m
  else
    Traced.map Completion.value (.inCall (some f.home) ((f.planned args).plan.traced eval exec)) m

/-- What the evaluation of a node lets happen. -/
def nodeTraced (e : Expr) : Traced Value :=
  match e.course with
  | .plan p => p.plan.traced eval exec
  | .call callee _ location _ p =>
    match callee.identifier? with
    | some id => fun m =>
      match m.lookupFunction id.name with
      | some f =>
        ((p.plan.traced eval exec).bind fun args => callTraced eval exec f args location) m
      | none => Traced.fail (.undefinedFunction id.name location) m
    | none => .fail (.invalidCallee callee.kindName location)

end Parts

mutual

/-- The trace of an expression, which begins with the expression. -/
def evaluateTraced : Nat → Expr → Traced Value
  | 0, _ => .exhaust
  | levels + 1, e =>
    (Traced.log (.evaluates e)).bind fun _ =>
      nodeTraced (evaluateTraced levels) (executeTraced levels) e

/-- The trace of a statement, which begins with the statement. -/
def executeTraced : Nat → Stmt → Traced Completion
  | 0, _ => .exhaust
  | levels + 1, s =>
    (Traced.log (.executes s)).bind fun _ =>
      (s.planned levels).plan.traced (evaluateTraced levels) (executeTraced levels)

end

/-- The trace of a list of statements. -/
def executeBodyTraced (levels : Nat) (body : List Stmt) : Traced Completion :=
  (bodyPlanned body).plan.traced (evaluateTraced levels) (executeTraced levels)

/-- The trace of a call. -/
def callClosureTraced (levels : Nat) (f : Closure) (args : List Value) (location : Location) :
    Traced Value :=
  callTraced (evaluateTraced levels) (executeTraced levels) f args location

/-- The trace of a program. -/
def runTraced (levels : Nat) (p : Program) : Traced Completion :=
  (Traced.log .resumes).bind fun _ => executeBodyTraced levels p.body

end Treewalk
