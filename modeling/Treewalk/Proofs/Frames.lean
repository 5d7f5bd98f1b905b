import Treewalk.Proofs.Finality
import Treewalk.Proofs.Footprint
import Treewalk.Proofs.Nesting
import Treewalk.Proofs.Operation
import Treewalk.Proofs.SessionTrace

/-!
# Frames of a host

A host can enter a call frame, take any steps in it, and leave it, and some of these steps may enter
scopes that they do not leave, or leave scopes that they did not enter.  A frame is left by taking
away whatever scope is the innermost one then, so the scopes and the depth of calls drift apart.
The depth does not go wrong for that: frames and calls are entered and left one inside the other,
and nothing else changes it.  Nor does the global scope, which is never taken away.

## Main definitions

* `Nested` — events in which every frame that is entered is left.
* `History.nested`, `Session.nested_eventsAll` — so it is in runs and in sessions.
* `Machine.LeavesFrame` — what it means to leave a frame.
* `session_frames` — frames and scopes at any time in a session.
-/

namespace Treewalk

/-! ## Frames that are open -/

theorem Event.opening_eq_zero {ev : Event} (h : ¬ ev.Moves) : ev.opening = 0 := by
  cases ev with
  | enters | leaves => exact absurd trivial h
  | _ => rfl

/-- Every frame that is entered is left, one inside the other. -/
inductive Nested : List Event → Prop where
  | nil : Nested []
  | other {ev : Event} {rest : List Event} : ev.opening = 0 → Nested rest → Nested (ev :: rest)
  | frame {body rest : List Event} (link : Option Nat) : Nested body → Nested rest →
    Nested (.enters link :: (body ++ .leaves :: rest))

namespace Nested

variable {events a b : List Event}

theorem single {ev : Event} (h : ev.opening = 0) : Nested [ev] := .other h .nil

theorem append (ha : Nested a) (hb : Nested b) : Nested (a ++ b) := by
  induction ha with
  | nil => exact hb
  | other h _ ih => exact .other h ih
  | frame link hbody _ _ ih =>
    rw [List.cons_append, List.append_assoc]
    exact .frame link hbody ih

theorem openCalls_eq_zero (h : Nested events) : openCalls events = 0 := by
  induction h with
  | nil => rfl
  | other h _ ih => rw [openCalls_cons, h, ih, Int.add_zero]
  | frame link _ _ ihbody ih =>
    simp only [openCalls_cons, openCalls_append, ihbody, ih, Event.opening]
    decide

/-- No frame is left that is not open.  The induction is on the nesting, with the frames that are
open around the events. -/
theorem open_of_leaves (h : Nested events) {around : Int} (haround : 0 ≤ around) :
    Everywhere (fun past ev _ => ev = .leaves → 0 < around + openCalls past) events := by
  induction h generalizing around with
  | nil => exact .nil
  | @other ev rest h _ ih =>
    refine .cons ?_ ((ih haround).mono fun past ev' _ hpast hev' => ?_)
    · rintro rfl
      cases h
    · rw [openCalls_cons, h, Int.zero_add]
      exact hpast hev'
  | @frame body rest link hbody _ ihbody ih =>
    refine .cons nofun (.append ?_ (.cons (fun _ => ?_) ?_))
    · refine (ihbody (Int.add_nonneg haround Int.one_nonneg)).mono fun past ev _ hpast hev => ?_
      rw [openCalls_cons, ← Int.add_assoc]
      exact hpast hev
    · rw [List.append_nil, openCalls_cons, hbody.openCalls_eq_zero]
      exact Int.lt_add_one_of_le haround
    · refine (ih haround).mono fun past ev _ hpast hev => ?_
      simp only [openCalls_cons, openCalls_append, hbody.openCalls_eq_zero, Event.opening]
      have := hpast hev
      omega

end Nested

/-- Calls are entered and left one inside the other, also those whose bodies are stopped. -/
theorem History.nested {events : List Event} {k : Ending} (h : History events k) :
    Nested events := by
  induction h with
  | done | exhausted => exact .nil
  | plain hev _ ih => exact .other hev.opening_eq ih
  | halt location => exact .other rfl (.single rfl)
  | fail | ret => exact .single rfl
  | declaration _ _ _ _ _ _ ih => exact .other rfl (.other rfl ih)
  | call link _ _ _ ihbody ih => exact .frame link ihbody ih
  | stoppedCall link _ ih => exact .frame link ih .nil

theorem Operation.nested {α : Type} (op : Operation α) (levels : Nat) (m : Machine) :
    Nested (op.traced levels m).events :=
  (op.tells levels m).history.nested

namespace Session

mutual

theorem nested_events (levels : Nat) (s : Session) (step : Step) :
    Nested (s.events levels step) := by
  cases step with
  | run p => exact (Operation.run p).nested levels s.machine
  | execute body => exact (Operation.executeBody body).nested levels s.machine
  | evaluate e => exact (Operation.evaluate e).nested levels s.machine
  | enterScope | exitScope | halt | setVariable => exact .single rfl
  | bindFunction slot name =>
    rw [events]
    cases Entries.get? slot s.slots with
    | none => exact .nil
    | some f => exact .single rfl
  | call slot args location =>
    rw [events]
    cases Entries.get? slot s.slots with
    | none => exact .nil
    | some f => exact (Operation.call f args location).nested levels s.machine
  | frame steps => exact .frame none (nested_eventsAll levels _ steps) .nil
  | getVariable | lookupVariable | lookupFunction | hasFunction | grab | unreadable => exact .nil

/-- Frames and calls are entered and left one inside the other, whatever a host does to the scopes
in between. -/
theorem nested_eventsAll (levels : Nat) (s : Session) (steps : List Step) :
    Nested (s.eventsAll levels steps) := by
  cases steps with
  | nil => exact .nil
  | cons step steps =>
    exact (nested_events levels s step).append (nested_eventsAll levels _ steps)

end

end Session

/-! ## The depth of calls -/

theorem Event.callDepth_eq_add {ev : Event} {m : Machine} (h : ev = .leaves → 0 < m.callDepth) :
    ((ev.apply m).callDepth : Int) = m.callDepth + ev.opening := by
  by_cases hmoves : ev.Moves
  · cases ev with
    | enters link => exact Int.natCast_succ m.callDepth
    | leaves =>
      have hdepth : (Event.leaves.apply m).callDepth = m.callDepth - 1 := rfl
      rw [hdepth, opening]
      have := h rfl
      omega
    | opens | closes => exact (Int.add_zero _).symm
    | _ => exact hmoves.elim
  · rw [(ev.sameStack hmoves m).callDepth, opening_eq_zero hmoves, Int.add_zero]

/-- The depth of calls changes with the number of open frames, if only open frames are left: by
induction on the events. -/
theorem callDepth_replay {start : Machine} {events past : List Event} (hnested : Nested events)
    (hpast : past <+: events) :
    ((start.replay past).callDepth : Int) = start.callDepth + openCalls past := by
  refine prefix_induction (P := fun past => ((start.replay past).callDepth : Int) =
    start.callDepth + openCalls past) (Int.add_zero _).symm (fun past ev later heq ih => ?_) hpast
  have hleaves := hnested.open_of_leaves (Int.natCast_nonneg start.callDepth) past ev later heq
  rw [Machine.replay_append, openCalls_append, ← Int.add_assoc, ← ih, openCalls_cons,
    openCalls_nil, Int.add_zero]
  refine Event.callDepth_eq_add fun hev => ?_
  have := hleaves hev
  omega

/-! ## The global scope -/

namespace Machine

variable {f : Scope → Scope} (hf : ∀ s : Scope, s.Extended (f s))

include hf

theorem extended_changeCurrent (m : Machine) : m.global.Extended (m.changeCurrent f).global := by
  rw [changeCurrent]
  split
  · exact hf _
  · exact .refl _

theorem extended_changeScope (id : Nat) (m : Machine) :
    m.global.Extended (m.changeScope id f).global := by
  rw [changeScope]
  split
  · exact hf _
  · exact .refl _

end Machine

/-- Nothing that happens takes a name from the global scope, or puts another scope in its place. -/
theorem Event.extended_global (ev : Event) (m : Machine) :
    m.global.Extended (ev.apply m).global := by
  have hvariable : ∀ name v s, Scope.Extended s (s.bindVariable name v) :=
    fun name v s => (Scope.grown_bindVariable name v s).extended
  cases ev with
  | assigns name v =>
    rw [apply, Machine.assign]
    split
    · exact Machine.extended_changeScope (hvariable name v) _ m
    · exact Machine.extended_changeCurrent (hvariable name v) m
  | binds name v => exact Machine.extended_changeCurrent (hvariable name v) m
  | declares name params body =>
    exact Machine.extended_changeCurrent (Scope.extended_bindFunction name _) m
  | registers name f => exact Machine.extended_changeCurrent (Scope.extended_bindFunction name f) m
  | _ => exact .refl _

theorem extended_global_replay (m : Machine) (events : List Event) :
    m.global.Extended (m.replay events).global := by
  induction events generalizing m with
  | nil => exact .refl _
  | cons ev events ih => exact (ev.extended_global m).trans (ih _)

/-! ## Sessions -/

/-- One machine is the other one after a frame was left: the depth of calls is one less, and the
innermost scope is gone unless only the global one was left. -/
structure Machine.LeavesFrame (m m' : Machine) : Prop where
  callDepth : m'.callDepth + 1 = m.callDepth
  scopes : m'.scopes = if 1 < m.scopeDepth then m.scopes.tail else m.scopes

theorem Machine.leavesFrame {m : Machine} (h : 0 < m.callDepth) : m.LeavesFrame m.leaveCall where
  callDepth := Nat.sub_add_cancel h
  scopes := by
    cases hframes : m.frames <;>
      simp [Machine.scopes, Machine.scopeDepth, leaveCall, exitScope, hframes]

/-- Whatever a host asks for, in frames that are nested in any way, and whatever has happened so
far: the depth of calls is the number of frames and calls that are open, there is a scope, and the
lowest one is the global scope from the beginning, in which no name is ever lost.  When a frame is
left there is one to be left, and it takes one scope with it if there is any but the global one. -/
theorem session_frames (levels : Nat) (config : Config) (steps : List Step) :
    let start := (Session.start config).machine
    let events := (Session.start config).eventsAll levels steps
    start.replay events = ((Session.start config).performAll levels steps).2.machine ∧
      Nested events ∧
      (∀ past, past <+: events →
        let m := start.replay past
        (m.callDepth : Int) = openCalls past ∧ 1 ≤ m.scopeDepth ∧
          m.scopes.getLast? = some m.global) ∧
      (∀ past, past ++ [.leaves] <+: events →
        (start.replay past).LeavesFrame (start.replay (past ++ [.leaves]))) ∧
      ∀ past past', past <+: past' → past' <+: events →
        (start.replay past).global.Extended (start.replay past').global := by
  intro start events
  have hnested : Nested events := Session.nested_eventsAll levels _ steps
  have hdepth : ∀ past, past <+: events → ((start.replay past).callDepth : Int) = openCalls past :=
    fun past hpast => (callDepth_replay hnested hpast).trans (Int.zero_add _)
  refine ⟨Session.replay_eventsAll levels _ steps, hnested, fun past hpast => ?_,
    fun past hpast => ?_, ?_⟩
  · exact ⟨hdepth past hpast, Nat.le_add_left 1 _, List.getLast?_concat⟩
  · have hopen : 0 < (start.replay past).callDepth := by
      obtain ⟨later, heq⟩ := hpast
      have hleaves := hnested.open_of_leaves (Int.le_refl 0) past .leaves later
        (by rw [← heq, List.append_assoc, List.singleton_append]) rfl
      have := hdepth past
        ⟨.leaves :: later, by rw [← heq, List.append_assoc, List.singleton_append]⟩
      omega
    rw [Machine.replay_append]
    exact Machine.leavesFrame hopen
  · rintro past _ ⟨between, rfl⟩ -
    rw [Machine.replay_append]
    exact extended_global_replay _ between

/-- A frame whose own scope is left, and in which two scopes are entered, leaves one of them. -/
example : let steps : List Step := [.frame [.exitScope, .enterScope, .enterScope]]
    let m := ((Session.start {}).performAll 0 steps).2.machine
    m.scopeDepth = 2 ∧ m.callDepth = 0 := ⟨rfl, rfl⟩

end Treewalk
