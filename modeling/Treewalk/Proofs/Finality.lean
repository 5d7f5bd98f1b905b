import Treewalk.Proofs.History

/-!
# Stops and returns are final

Once a machine is halted or a fault comes up, a run only leaves the calls that are open.  It begins
no expression and no statement, binds nothing and enters nothing, and it ends with that very halt
or fault.  After a return the innermost call is left at once, or the run is at its end.

## Main definitions

* `openCalls` — the number of calls that are open after some events.
* `Moment` — what an event means for the ones after it.
* `Final` — a trace in which stops and returns are final.
-/

namespace Treewalk

/-! ## Open calls -/

/-- By how much an event changes the number of open calls. -/
def Event.opening : Event → Int
  | .enters _ => 1
  | .leaves => -1
  | _ => 0

/-- The number of calls that were entered and not left. -/
def openCalls : List Event → Int
  | [] => 0
  | ev :: events => ev.opening + openCalls events

@[simp] theorem openCalls_nil : openCalls [] = 0 := rfl

@[simp] theorem openCalls_cons (ev : Event) (events : List Event) :
    openCalls (ev :: events) = ev.opening + openCalls events := rfl

@[simp] theorem openCalls_append (a b : List Event) :
    openCalls (a ++ b) = openCalls a + openCalls b := by
  induction a with
  | nil => simp
  | cons ev a ih => simp only [List.cons_append, openCalls_cons, ih, Int.add_assoc]

@[simp] theorem opening_enters (link : Option Nat) : (Event.enters link).opening = 1 := rfl

@[simp] theorem opening_leaves : Event.leaves.opening = -1 := rfl

theorem Event.Plain.opening_eq {ev : Event} (h : ev.Plain) : ev.opening = 0 := by
  cases ev <;> first | rfl | exact h.elim

/-! ## Moments of a history -/

/-- What an event means for the ones after it, in a history with a given ending. -/
structure Moment (k : Ending) (past : List Event) (ev : Event) (later : List Event) : Prop where
  stop : ∀ s, ev.stop? = some s → (∀ next ∈ later, next = .leaves) ∧ k = .stopped s
  debugger : ∀ location, ev = .executes (.debugger location) → ∃ rest, later = .halts :: rest
  ret : ∀ v, ev = .returns v →
    (openCalls past = 0 ∧ later = [] ∧ k = .returned v) ∨
      (0 < openCalls past ∧ ∃ rest, later = .leaves :: rest)

namespace Moment

variable {k k' : Ending} {past later rest : List Event} {ev : Event}

/-- An event that is neither a stop nor a return, nor a debugger statement. -/
theorem of_silent (hstop : ev.stop? = none)
    (hdebugger : ∀ location, ev ≠ .executes (.debugger location))
    (hret : ∀ v, ev ≠ .returns v) : Moment k past ev later where
  stop s h := by
    rw [hstop] at h
    cases h
  debugger location h := absurd h (hdebugger location)
  ret v h := absurd h (hret v)

theorem of_plain (h : ev.Plain) : Moment k past ev later := by
  refine of_silent ?_ ?_ ?_
  · cases ev <;> first | rfl | exact h.elim
  · rintro location rfl
    exact h
  · rintro v rfl
    exact h

theorem of_stop {s : Stop} (hs : ev.stop? = some s) :
    Moment (.stopped s) past ev [] where
  stop s' hs' := by
    rw [hs] at hs'
    exact ⟨nofun, congrArg _ (Option.some.inj hs')⟩
  debugger location h := by
    subst h
    cases hs
  ret v h := by
    subst h
    cases hs

/-- Events that come before make no difference if all their calls are left. -/
theorem prepend (h : Moment k past ev later) (before : List Event)
    (hbefore : openCalls before = 0) : Moment k (before ++ past) ev later where
  stop := h.stop
  debugger := h.debugger
  ret v hv := by
    rw [openCalls_append, hbefore, Int.zero_add]
    exact h.ret v hv

/-- An event of the body of a call, which is left after the body.  If the body was stopped, so is
what the call belongs to. -/
theorem inCall (h : Moment k past ev later) (link : Option Nat)
    (hstop : ∀ s, k = .stopped s → (∀ next ∈ rest, next = .leaves) ∧ k' = .stopped s) :
    Moment k' (.enters link :: past) ev (later ++ .leaves :: rest) where
  stop s hs := by
    obtain ⟨hlater, hk⟩ := h.stop s hs
    obtain ⟨hrest, hk'⟩ := hstop s hk
    refine ⟨?_, hk'⟩
    rw [List.forall_mem_append, List.forall_mem_cons]
    exact ⟨hlater, rfl, hrest⟩
  debugger location hev := by
    obtain ⟨after, hafter⟩ := h.debugger location hev
    exact ⟨after ++ .leaves :: rest, by rw [hafter, List.cons_append]⟩
  ret v hv := by
    refine .inr ?_
    rw [openCalls_cons, opening_enters]
    rcases h.ret v hv with ⟨hopen, hlater, -⟩ | ⟨hopen, after, hafter⟩
    · exact ⟨by omega, rest, by rw [hlater, List.nil_append]⟩
    · exact ⟨by omega, after ++ .leaves :: rest, by rw [hafter, List.cons_append]⟩

end Moment

namespace History

variable {events : List Event} {k : Ending}

/-- All calls of a history are left in it. -/
theorem openCalls_eq (h : History events k) : openCalls events = 0 := by
  induction h with
  | plain hev _ ih => simp [hev.opening_eq, ih]
  | declaration id params body bodyLocation location _ ih => simp [Event.opening, ih]
  | call link _ _ _ ihbody ih => simp [ihbody, ih]
  | stoppedCall link _ ih => simp [ih]
  | done | exhausted | halt | fail | ret => rfl

theorem moments (h : History events k) : Everywhere (Moment k) events := by
  induction h with
  | done => exact .nil
  | exhausted => exact .nil
  | @plain ev _ _ hev _ ih =>
    refine .cons (.of_plain hev) (ih.mono fun _ _ _ h => ?_)
    exact h.prepend [ev] (by simp [hev.opening_eq])
  | halt location => exact .cons ⟨nofun, fun _ _ => ⟨[], rfl⟩, nofun⟩ (.cons (.of_stop rfl) .nil)
  | fail f => exact .cons (.of_stop rfl) .nil
  | ret v =>
    refine .cons ⟨nofun, nofun, fun v' hv => .inl ⟨rfl, rfl, ?_⟩⟩ .nil
    rw [Event.returns.inj hv]
  | declaration id params body bodyLocation location _ ih =>
    refine .cons (.of_silent rfl nofun nofun) (.cons (.of_silent rfl nofun nofun) ?_)
    exact ih.mono fun _ _ _ h => h.prepend [_, _] rfl
  | @call body _ _ _ link hbody hne _ ihbody ih =>
    -- The body was not stopped, so that a stop in it cannot have come up.
    refine .cons (.of_silent rfl nofun nofun) (.append ?_ (.cons (.of_silent rfl nofun nofun) ?_))
    · exact ihbody.mono fun _ _ _ h => h.inCall link fun s hs => absurd hs (hne s)
    · refine ih.mono fun past _ _ h => ?_
      have := h.prepend (.enters link :: (body ++ [.leaves])) (by simp [hbody.openCalls_eq])
      simpa using this
  | stoppedCall link _ ih =>
    refine .cons (.of_silent rfl nofun nofun) (.append ?_ (.cons (.of_silent rfl nofun nofun) .nil))
    exact ih.mono fun _ _ _ h => h.inCall link fun s hs => ⟨nofun, hs⟩

/-- A history that ends with a stop has an event that it comes from. -/
theorem exists_stop (h : History events k) {s : Stop} (hk : k = .stopped s)
    (hs : s ≠ .exhausted) : ∃ ev ∈ events, ev.stop? = some s := by
  induction h with
  | done => cases hk
  | exhausted => exact absurd (Ending.stopped.inj hk).symm hs
  | plain hev _ ih =>
    obtain ⟨ev, hmem, hev⟩ := ih hk
    exact ⟨ev, List.mem_cons_of_mem _ hmem, hev⟩
  | halt location => exact ⟨.halts, by simp, congrArg some (Ending.stopped.inj hk)⟩
  | fail f => exact ⟨.fails f, by simp, congrArg some (Ending.stopped.inj hk)⟩
  | ret v => cases hk
  | declaration id params body bodyLocation location _ ih =>
    obtain ⟨ev, hmem, hev⟩ := ih hk
    exact ⟨ev, by simp [hmem], hev⟩
  | call link _ _ _ _ ih =>
    obtain ⟨ev, hmem, hev⟩ := ih hk
    exact ⟨ev, by simp [hmem], hev⟩
  | stoppedCall link _ ih =>
    obtain ⟨ev, hmem, hev⟩ := ih hk
    exact ⟨ev, by simp [hmem], hev⟩

/-- A history that ends with a return has it as its last event. -/
theorem exists_returns (h : History events k) {v : Value} (hk : k = .returned v) :
    ∃ before, events = before ++ [.returns v] := by
  induction h with
  | done => cases hk
  | exhausted => cases hk
  | @plain ev _ _ hev _ ih =>
    obtain ⟨before, hbefore⟩ := ih hk
    exact ⟨ev :: before, by rw [hbefore, List.cons_append]⟩
  | halt location => cases hk
  | fail f => cases hk
  | ret v => exact ⟨[], by rw [Ending.returned.inj hk, List.nil_append]⟩
  | declaration id params body bodyLocation location _ ih =>
    obtain ⟨before, hbefore⟩ := ih hk
    exact ⟨_ :: _ :: before, by rw [hbefore]; rfl⟩
  | @call body _ _ _ link _ _ _ _ ih =>
    obtain ⟨before, hbefore⟩ := ih hk
    exact ⟨.enters link :: (body ++ .leaves :: before), by rw [hbefore]; simp⟩
  | stoppedCall link _ ih => cases hk

end History

/-! ## Runs -/

/-- A trace of a run in which stops and returns are final. -/
structure Final {α : Type} (mark : α → Ending) (m : Machine) (run : Except Stop α × Machine)
    (tr : Trace α) : Prop where
  outcome : tr.outcome = run.1
  /-- Nothing but the events of the trace changes the machine. -/
  replay : m.replay tr.events = run.2
  /-- After a stop the open calls are left, nothing else happens, and the run ends with it. -/
  stop : Everywhere (fun _ ev later => ∀ s, ev.stop? = some s →
    (∀ next ∈ later, next = .leaves) ∧ run.1 = .error s) tr.events
  /-- A stop is never made up. -/
  exists_stop : ∀ s, run.1 = .error s → s ≠ .exhausted → ∃ ev ∈ tr.events, ev.stop? = some s
  /-- A debugger statement halts at once. -/
  debugger : Everywhere (fun _ ev later => ∀ location, ev = .executes (.debugger location) →
    ∃ rest, later = .halts :: rest) tr.events
  /-- After a return the innermost call is left at once.  Outside of all calls the run ends with
  the return. -/
  ret : Everywhere (fun past ev later => ∀ v, ev = .returns v →
    (openCalls past = 0 ∧ later = [] ∧ ∃ a, run.1 = .ok a ∧ mark a = .returned v) ∨
      (0 < openCalls past ∧ ∃ rest, later = .leaves :: rest)) tr.events
  /-- A run that returns has the return as its last event. -/
  exists_returns : ∀ a v, run.1 = .ok a → mark a = .returned v →
    ∃ before, tr.events = before ++ [.returns v]

section Outcomes

variable {α : Type} {mark : α → Ending} {m : Machine} {run : Except Stop α × Machine} {tr : Trace α}

/-- The trace of a run is final. -/
theorem Trace.Tells.final (h : tr.Tells mark m run) (hmark : ∀ a s, mark a ≠ .stopped s) :
    Final mark m run tr where
  outcome := h.outcome
  replay := h.replay
  stop := h.history.moments.mono fun _ _ _ hmoment s hs => by
    obtain ⟨hlater, hk⟩ := hmoment.stop s hs
    refine ⟨hlater, ?_⟩
    cases hrun : run.1 with
    | ok a =>
      rw [hrun] at hk
      exact absurd hk (hmark a s)
    | error s' =>
      rw [hrun] at hk
      rw [Ending.stopped.inj hk]
  exists_stop s hs := h.history.exists_stop (by rw [hs]; rfl)
  debugger := h.history.moments.mono fun _ _ _ hmoment => hmoment.debugger
  ret := h.history.moments.mono fun _ _ _ hmoment v hv => by
    rcases hmoment.ret v hv with ⟨hopen, hlater, hk⟩ | hinner
    · refine .inl ⟨hopen, hlater, ?_⟩
      cases hrun : run.1 with
      | ok a =>
        rw [hrun] at hk
        exact ⟨a, rfl, hk⟩
      | error s =>
        rw [hrun] at hk
        cases hk
    · exact .inr hinner
  exists_returns a v ha hv := h.history.exists_returns (by rw [ha]; exact hv)

end Outcomes

/-- Whatever is evaluated, executed, called or run, nothing happens after a halt, a fault or a
return but that calls are left; and a run ends with the halt, the fault or the return that came up
in it. -/
theorem stops_are_final (levels : Nat) (m : Machine) :
    (∀ e, Final silent m (m.perform (evaluate levels e)) (evaluateTraced levels e m)) ∧
      (∀ s, Final Completion.ending m (m.perform (execute levels s)) (executeTraced levels s m)) ∧
      (∀ body, Final Completion.ending m (m.perform (executeBody levels body))
        (executeBodyTraced levels body m)) ∧
      (∀ f args location, Final silent m (m.perform (callClosure levels f args location))
        (callClosureTraced levels f args location m)) ∧
      ∀ p, Final Completion.ending m (m.run levels p) (runTraced levels p m) :=
  ⟨fun e => (tells_evaluate levels e m).final silent_ne_stopped,
    fun s => (tells_execute levels s m).final Completion.ending_ne_stopped,
    fun body => (tells_executeBody levels body m).final Completion.ending_ne_stopped,
    fun f args location => (tells_callClosure levels f args location m).final silent_ne_stopped,
    fun p => (tells_run levels p m).final Completion.ending_ne_stopped⟩

/-- An assignment after a debugger statement is not begun. -/
example : (executeBodyTraced 3 [.debugger {}, .expression (.assignment (.identifier { name := "x" })
    (.literal { value := .null }) {}) {}] (.new {})).events =
      [.executes (.debugger {}), .halts] := rfl

end Treewalk
