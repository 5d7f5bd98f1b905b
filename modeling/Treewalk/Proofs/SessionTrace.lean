import Treewalk.Proofs.History

/-!
# Traces of sessions

The events of a session are those of its steps, one step after the other.  The ones of a frame
stand between its beginning and its end.

A property of single events that speaks of what came before and of what comes after is local if more
events around it make no difference.  A local property holds at every event of a session if it holds
at every event of the runs in it and at what a host does itself.

## Main definitions

* `Session.events`, `Session.eventsAll` — what happens in a session.
* `Local`, `Lifts` — properties of single events that can be lifted from runs to sessions.
-/

namespace Treewalk

/-! ## Local properties -/

/-- Properties of an event in a list that begins with a given machine. -/
abbrev Situation := Machine → List Event → Event → List Event → Prop

/-- Events that come earlier or later make no difference. -/
structure Local (Q : Situation) : Prop where
  extend : ∀ {m past ev later} after, Q m past ev later → Q m past ev (later ++ after)
  prepend : ∀ {m past ev later} before, Q (m.replay before) past ev later →
    Q m (before ++ past) ev later

namespace Local

variable {Q : Situation} {m : Machine}

theorem append (hQ : Local Q) {a b : List Event} (ha : Everywhere (Q m) a)
    (hb : Everywhere (Q (m.replay a)) b) : Everywhere (Q m) (a ++ b) :=
  .append (ha.mono fun _ _ _ h => hQ.extend b h) (hb.mono fun _ _ _ h => hQ.prepend a h)

theorem cons (hQ : Local Q) {ev : Event} {events : List Event} (hev : Q m [] ev events)
    (h : Everywhere (Q (ev.apply m)) events) : Everywhere (Q m) (ev :: events) :=
  .cons hev (h.mono fun _ _ _ h => hQ.prepend [ev] h)

end Local

/-! ## Events of sessions -/

namespace Session

mutual

/-- What happens in a step. -/
def events (levels : Nat) (s : Session) : Step → List Event
  | .run p => (runTraced levels p s.machine).events
  | .execute body => (executeBodyTraced levels body s.machine).events
  | .evaluate e => (evaluateTraced levels e s.machine).events
  | .enterScope => [.opens]
  | .exitScope => [.closes]
  | .halt => [.halts]
  | .setVariable name v => [.binds name v]
  | .bindFunction slot name =>
    match Entries.get? slot s.slots with
    | some f => [.registers name f]
    | none => []
  | .call slot args location =>
    match Entries.get? slot s.slots with
    | some f => (callClosureTraced levels f args location s.machine).events
    | none => []
  | .frame steps =>
    .enters none ::
      (eventsAll levels (s.withMachine (s.machine.enterCall none)) steps ++ [.leaves])
  | .getVariable _ | .lookupVariable _ | .lookupFunction _ | .hasFunction _ | .grab ..
  | .unreadable _ => []

/-- What happens in steps that are taken one after the other. -/
def eventsAll (levels : Nat) (s : Session) : List Step → List Event
  | [] => []
  | step :: steps => events levels s step ++ eventsAll levels (perform levels s step).2 steps

end

mutual

/-- The events of a step lead to the machine after it. -/
theorem replay_events (levels : Nat) (s : Session) (step : Step) :
    s.machine.replay (s.events levels step) = (s.perform levels step).2.machine := by
  cases step with
  | run p => exact (tells_run levels p s.machine).replay
  | execute body => exact (tells_executeBody levels body s.machine).replay
  | evaluate e => exact (tells_evaluate levels e s.machine).replay
  | bindFunction slot name =>
    simp only [events, perform]
    cases Entries.get? slot s.slots <;> rfl
  | call slot args location =>
    simp only [events, perform]
    cases Entries.get? slot s.slots with
    | none => rfl
    | some f => exact (tells_callClosure levels f args location s.machine).replay
  | frame steps =>
    simp only [events, Machine.replay_cons, Machine.replay_append]
    exact congrArg Machine.leaveCall
      (replay_eventsAll levels (s.withMachine (s.machine.enterCall none)) steps)
  | grab name slot =>
    simp only [events, perform]
    cases s.machine.lookupFunction name <;> rfl
  | _ => rfl

/-- The events of a session lead to the machine at its end. -/
theorem replay_eventsAll (levels : Nat) (s : Session) (steps : List Step) :
    s.machine.replay (s.eventsAll levels steps) = (s.performAll levels steps).2.machine := by
  cases steps with
  | nil => rfl
  | cons step steps =>
    rw [eventsAll, Machine.replay_append, replay_events levels s step]
    exact replay_eventsAll levels (s.perform levels step).2 steps

end

end Session

/-! ## From runs to sessions -/

namespace Step

mutual

/-- The host binds no function by itself. -/
def bindsNoFunction : Step → Bool
  | .bindFunction .. => false
  | .frame steps => allBindNoFunction steps
  | _ => true

/-- The host binds no function by itself in any step. -/
def allBindNoFunction : List Step → Bool
  | [] => true
  | step :: steps => step.bindsNoFunction && allBindNoFunction steps

end

end Step

/-- What a host does by itself, apart from binding functions. -/
def Event.ByHost : Event → Prop
  | .binds .. | .enters _ | .leaves | .halts | .opens | .closes => True
  | _ => False

/-- A local property that holds at every event of a run and at what a host does. -/
structure Lifts (Q : Situation) : Prop extends Local Q where
  run : ∀ levels p m, Everywhere (Q m) (runTraced levels p m).events
  executeBody : ∀ levels body m, Everywhere (Q m) (executeBodyTraced levels body m).events
  evaluate : ∀ levels e m, Everywhere (Q m) (evaluateTraced levels e m).events
  callClosure : ∀ levels f args location m,
    Everywhere (Q m) (callClosureTraced levels f args location m).events
  byHost : ∀ {m past ev later}, ev.ByHost → Q m past ev later

namespace Lifts

variable {Q : Situation}

theorem single (hQ : Lifts Q) {m : Machine} {ev : Event} (hev : ev.ByHost) :
    Everywhere (Q m) [ev] :=
  .cons (hQ.byHost hev) .nil

mutual

theorem events (hQ : Lifts Q) (levels : Nat) (s : Session) (step : Step)
    (h : step.bindsNoFunction = true) : Everywhere (Q s.machine) (s.events levels step) := by
  cases step with
  | run p => exact hQ.run levels p s.machine
  | execute body => exact hQ.executeBody levels body s.machine
  | evaluate e => exact hQ.evaluate levels e s.machine
  | enterScope => exact hQ.single trivial
  | exitScope => exact hQ.single trivial
  | halt => exact hQ.single trivial
  | setVariable name v => exact hQ.single trivial
  | bindFunction slot name => cases h
  | call slot args location =>
    simp only [Session.events]
    cases Entries.get? slot s.slots with
    | none => exact .nil
    | some f => exact hQ.callClosure levels f args location s.machine
  | frame steps =>
    refine hQ.cons (hQ.byHost trivial) (hQ.append ?_ (hQ.single trivial))
    exact hQ.eventsAll levels (s.withMachine (s.machine.enterCall none)) steps h
  | getVariable | lookupVariable | lookupFunction | hasFunction | grab | unreadable => exact .nil

/-- The property holds at every event of a session. -/
theorem eventsAll (hQ : Lifts Q) (levels : Nat) (s : Session) (steps : List Step)
    (h : Step.allBindNoFunction steps = true) :
    Everywhere (Q s.machine) (s.eventsAll levels steps) := by
  cases steps with
  | nil => exact .nil
  | cons step steps =>
    rw [Step.allBindNoFunction, Bool.and_eq_true] at h
    refine hQ.append (hQ.events levels s step h.1) ?_
    rw [Session.replay_events]
    exact hQ.eventsAll levels (s.perform levels step).2 steps h.2

end

end Lifts

end Treewalk
