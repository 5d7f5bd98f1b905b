import Treewalk.Proofs.Nesting
import Treewalk.Proofs.Operation
import Treewalk.Proofs.SessionTrace

/-!
# Where events come from

Some events of a run do not come up by themselves.  A call is entered, or refused for the depth of
calls, once it is attempted: its function was found when the call began, and its arguments have been
evaluated since.  Which of the two happens is decided by the depth at that time.  A construct fails
for the lack of a rule only where the settings are strict.

What a run evaluates has a trace of its own, which is a part of the trace of the run.

## Main definitions

* `Attempt`, `Operation.Attempts` — the calls that are attempted in a run.
* `Origin` — what an event goes back to.
* `Operation.origin` — every event of a run has an origin.
-/

namespace Treewalk

/-! ## Events -/

theorem Event.config_apply (ev : Event) (m : Machine) : (ev.apply m).config = m.config := by
  by_cases hev : ev.Moves
  · cases ev with
    | enters | leaves | opens | closes => rfl
    | _ => exact hev.elim
  · exact (ev.sameStack hev m).config

theorem Machine.config_replay (m : Machine) (events : List Event) :
    (m.replay events).config = m.config := by
  induction events generalizing m with
  | nil => rfl
  | cons ev events ih => rw [replay_cons, ih, ev.config_apply]

theorem Event.eq_fails {ev : Event} {f : Fault} (h : ev.stop? = some (.failed f)) :
    ev = .fails f := by
  cases ev with
  | fails g => rw [Stop.failed.inj (Option.some.inj h)]
  | _ => cases h

/-! ## Sequencing of traces -/

namespace Traced

variable {α β γ : Type}

theorem bind_assoc (t : Traced α) (f : α → Traced β) (g : β → Traced γ) :
    (t.bind f).bind g = t.bind fun a => (f a).bind g := by
  funext m
  simp only [Traced.bind]
  cases (t m).outcome with
  | error s => rfl
  | ok a =>
    dsimp only
    rw [Machine.replay_append]
    cases (f a (m.replay (t m).events)).outcome with
    | error s => rfl
    | ok b => simp only [List.append_assoc]

end Traced

theorem Plan.traced_bind {α β : Type} (eval : Expr → Traced Value) (exec : Stmt → Traced Completion)
    (p : Plan α) (f : α → Plan β) :
    (p.bind f).traced eval exec = (p.traced eval exec).bind fun a => (f a).traced eval exec := by
  induction p with
  | done a => rfl
  | ask r next ih => simp only [Plan.bind, Plan.traced, Traced.bind_assoc, ih]

/-! ## Calls -/

/-- The trace of expressions that are evaluated in order. -/
def evaluateAllTraced (levels : Nat) : List Expr → Traced (List Value)
  | [] => .pure []
  | e :: es =>
    (evaluateTraced levels e).bind fun v =>
      (evaluateAllTraced levels es).bind fun vs => .pure (v :: vs)

theorem traced_evaluateAll {P : Request → Prop} (levels : Nat) (es : List Expr)
    (h : ∀ e ∈ es, P (.evaluate e)) :
    (Planned.evaluateAll es h).plan.traced (evaluateTraced levels) (executeTraced levels) =
      evaluateAllTraced levels es := by
  induction es with
  | nil => rfl
  | cons e es ih =>
    have htail := ih fun e' he => h e' (List.mem_cons_of_mem _ he)
    simp only [Planned.evaluateAll, Planned.bind, Planned.evaluate, Planned.ask, Plan.one,
      Plan.bind, Plan.traced, Plan.traced_bind, htail, Request.traced, evaluateAllTraced,
      Planned.pure]

section Calls

variable {levels : Nat} {id : Identifier} {arguments : List Expr} {location : Location}
  {m : Machine} {f : Closure} {args : List Value}

/-- A call of a function that is found evaluates its arguments and goes on with the function. -/
theorem evaluateTraced_call (hf : m.lookupFunction id.name = some f) :
    evaluateTraced (levels + 1) (.call (.identifier id) arguments location) m =
      ((Traced.log (.evaluates (.call (.identifier id) arguments location))).bind fun _ =>
        (evaluateAllTraced levels arguments).bind fun args =>
          callClosureTraced levels f args location) m := by
  have hargs := traced_evaluateAll (P := (Expr.call (.identifier id) arguments location).Asks)
    levels arguments fun _ h => .part h
  simp only [evaluateTraced, nodeTraced, Expr.course, Expr.identifier?, Traced.bind, Traced.log,
    Machine.replay_cons, Machine.replay_nil, Event.apply, hf, hargs, callClosureTraced]

variable (location) in
/-- What follows the arguments of a call. -/
theorem events_evaluateTraced_call (hf : m.lookupFunction id.name = some f)
    (hargs : (evaluateAllTraced levels arguments m).outcome = .ok args) :
    (evaluateTraced (levels + 1) (.call (.identifier id) arguments location) m).events =
      .evaluates (.call (.identifier id) arguments location) ::
        ((evaluateAllTraced levels arguments m).events ++
          (callClosureTraced levels f args location
            (m.replay (evaluateAllTraced levels arguments m).events)).events) := by
  rw [evaluateTraced_call hf]
  simp only [Traced.bind, Traced.log, Machine.replay_cons, Machine.replay_nil, Event.apply, hargs,
    List.cons_append, List.nil_append]

/-- A call whose arguments stop is not attempted. -/
theorem events_evaluateTraced_of_error {s : Stop} (hf : m.lookupFunction id.name = some f)
    (hargs : (evaluateAllTraced levels arguments m).outcome = .error s) :
    (evaluateTraced (levels + 1) (.call (.identifier id) arguments location) m).events =
      .evaluates (.call (.identifier id) arguments location) ::
        (evaluateAllTraced levels arguments m).events := by
  rw [evaluateTraced_call hf]
  simp only [Traced.bind, Traced.log, Machine.replay_cons, Machine.replay_nil, Event.apply, hargs,
    List.cons_append, List.nil_append]

/-- A call beyond the limit is refused, with nothing done for it. -/
theorem callClosureTraced_of_le (h : m.config.maxCallDepth ≤ m.callDepth) :
    callClosureTraced levels f args location m =
      ⟨[.fails (.callDepthExceeded m.config.maxCallDepth location)],
        .error (.failed (.callDepthExceeded m.config.maxCallDepth location))⟩ := by
  rw [callClosureTraced, callTraced, if_pos h]
  rfl

/-- A call below the limit has its events between those of entering and leaving its scope. -/
theorem events_callClosureTraced_of_lt (h : m.callDepth < m.config.maxCallDepth) :
    (callClosureTraced levels f args location m).events =
      .enters (some f.home) ::
        (((f.planned args).plan.traced (evaluateTraced levels) (executeTraced levels)
          (m.enterCall (some f.home))).events ++ [.leaves]) := by
  rw [callClosureTraced, callTraced, if_neg (Nat.not_le.mpr h)]
  rfl

theorem callClosureTraced_ne_nil : (callClosureTraced levels f args location m).events ≠ [] := by
  rcases Nat.lt_or_ge m.callDepth m.config.maxCallDepth with h | h
  · rw [events_callClosureTraced_of_lt h]
    exact List.cons_ne_nil _ _
  · rw [callClosureTraced_of_le h]
    exact List.cons_ne_nil _ _

end Calls

/-! ## Attempts -/

/-- A call that is attempted after some of the events of a run.  The evaluation of the call is a
part of the run.  Its function was found when it began, and its arguments have been evaluated. -/
inductive Attempt (m : Machine) (events : List Event) : List Event → Closure → Location → Prop where
  | intro {before after : List Event} {levels : Nat} {id : Identifier} {arguments : List Expr}
    {location : Location} {f : Closure} {args : List Value} :
    events = before ++ (evaluateTraced (levels + 1) (.call (.identifier id) arguments location)
      (m.replay before)).events ++ after →
    (m.replay before).lookupFunction id.name = some f →
    (evaluateAllTraced levels arguments (m.replay before)).outcome = .ok args →
    Attempt m events (before ++ .evaluates (.call (.identifier id) arguments location) ::
      (evaluateAllTraced levels arguments (m.replay before)).events) f location

namespace Attempt

variable {m : Machine} {events past : List Event} {f : Closure} {location : Location}

theorem extend (h : Attempt m events past f location) (after : List Event) :
    Attempt m (events ++ after) past f location := by
  obtain ⟨hevents, hf, hargs⟩ := h
  exact .intro (by rw [hevents, List.append_assoc]) hf hargs

theorem prepend (before : List Event) (h : Attempt (m.replay before) events past f location) :
    Attempt m (before ++ events) (before ++ past) f location := by
  obtain @⟨before', after, levels, id, arguments, location, f, args, hevents, hf, hargs⟩ := h
  rw [← Machine.replay_append] at hevents hf hargs ⊢
  have hwhole : before ++ events = before ++ before' ++ (evaluateTraced (levels + 1)
      (.call (.identifier id) arguments location) (m.replay (before ++ before'))).events ++ after := by
    rw [hevents]
    simp only [List.append_assoc]
  rw [← List.append_assoc]
  exact .intro hwhole hf hargs

/-- What comes next in the run is the call, or that it is refused. -/
theorem exists_later (h : Attempt m events past f location) :
    ∃ levels args after, events =
      past ++ (callClosureTraced levels f args location (m.replay past)).events ++ after := by
  obtain @⟨before, after, levels, id, arguments, location, f, args, hevents, hf, hargs⟩ := h
  refine ⟨levels, args, after, ?_⟩
  rw [hevents, events_evaluateTraced_call location hf hargs]
  simp only [Machine.replay_append, Machine.replay_cons, Event.apply, List.append_assoc,
    List.cons_append]

end Attempt

/-! ## Origins -/

/-- What an event goes back to, given the calls that are attempted right before it. -/
structure Origin (attempted : Closure → Location → Prop) (m : Machine) (past : List Event)
    (ev : Event) (later : List Event) : Prop where
  /-- The trace of what is begun comes next. -/
  evaluates : ∀ e, ev = .evaluates e → ∃ levels after,
    ev :: later = (evaluateTraced (levels + 1) e (m.replay past)).events ++ after
  /-- A call that is entered is attempted below the limit. -/
  enters : ∀ link, ev = .enters link →
    (m.replay past).callDepth < (m.replay past).config.maxCallDepth ∧
      ∃ f location, attempted f location ∧ link = some f.home
  /-- A call that is refused is attempted at the limit or beyond it. -/
  exceeded : ∀ limit location, ev = .fails (.callDepthExceeded limit location) →
    limit = (m.replay past).config.maxCallDepth ∧ limit ≤ (m.replay past).callDepth ∧
      ∃ f, attempted f location
  /-- Only strict settings make a construct without a rule fail. -/
  unimplemented : ∀ kind location, ev = .fails (.unimplemented kind location) →
    (m.replay past).config.policy = .strict

/-- An event that asks for no origin. -/
def Event.Unbidden : Event → Prop
  | .evaluates _ | .enters _ | .fails (.callDepthExceeded ..) | .fails (.unimplemented ..) => False
  | _ => True

namespace Origin

variable {attempted attempted' : Closure → Location → Prop} {m : Machine}
  {past later : List Event} {ev : Event}

theorem mono (h : Origin attempted m past ev later)
    (hsub : ∀ f location, attempted f location → attempted' f location) :
    Origin attempted' m past ev later where
  evaluates := h.evaluates
  enters link hev := by
    obtain ⟨hdepth, f, location, hf, hlink⟩ := h.enters link hev
    exact ⟨hdepth, f, location, hsub f location hf, hlink⟩
  exceeded limit location hev := by
    obtain ⟨hlimit, hdepth, f, hf⟩ := h.exceeded limit location hev
    exact ⟨hlimit, hdepth, f, hsub f location hf⟩
  unimplemented := h.unimplemented

theorem of_unbidden (h : ev.Unbidden) : Origin attempted m past ev later where
  evaluates e hev := by
    subst hev
    exact h.elim
  enters link hev := by
    subst hev
    exact h.elim
  exceeded limit location hev := by
    subst hev
    exact h.elim
  unimplemented kind location hev := by
    subst hev
    exact h.elim

theorem of_strict {kind : String} {location : Location}
    (h : (m.replay past).config.policy = .strict) :
    Origin attempted m past (.fails (.unimplemented kind location)) later :=
  ⟨nofun, nofun, nofun, fun _ _ _ => h⟩

theorem of_evaluates {e : Expr} (levels : Nat) (after : List Event)
    (h : .evaluates e :: later =
      (evaluateTraced (levels + 1) e (m.replay past)).events ++ after) :
    Origin attempted m past (.evaluates e) later where
  evaluates e' hev := by
    rw [← Event.evaluates.inj hev]
    exact ⟨levels, after, h⟩
  enters := nofun
  exceeded := nofun
  unimplemented := nofun

/-- The first event of a call that is attempted: it is entered or refused. -/
theorem of_attempted {levels : Nat} {f : Closure} {args : List Value} {location : Location}
    (hf : attempted f location)
    (hev : (callClosureTraced levels f args location (m.replay past)).events.head? = some ev) :
    Origin attempted m past ev later := by
  rcases Nat.lt_or_ge (m.replay past).callDepth (m.replay past).config.maxCallDepth with h | h
  · rw [events_callClosureTraced_of_lt h, List.head?_cons, Option.some.injEq] at hev
    subst hev
    refine ⟨nofun, fun link hlink => ⟨h, f, location, hf, ?_⟩, nofun, nofun⟩
    exact (Event.enters.inj hlink).symm
  · rw [callClosureTraced_of_le h, List.head?_cons, Option.some.injEq] at hev
    subst hev
    refine ⟨nofun, nofun, fun limit location' heq => ?_, nofun⟩
    obtain ⟨rfl, rfl⟩ := Fault.callDepthExceeded.inj (Event.fails.inj heq)
    exact ⟨rfl, h, f, hf⟩

end Origin

/-- An event that goes back to what happened in the run before it. -/
def Originates : Situation := fun m past ev later =>
  Origin (Attempt m (past ++ ev :: later) past) m past ev later

theorem local_originates : Local Originates where
  extend := by
    intro m past ev later after h
    have hevents : past ++ ev :: (later ++ after) = past ++ ev :: later ++ after := by simp
    refine ⟨fun e hev => ?_, (h.mono fun f location hf => ?_).enters,
      (h.mono fun f location hf => ?_).exceeded, h.unimplemented⟩
    · obtain ⟨levels, rest, hrest⟩ := h.evaluates e hev
      exact ⟨levels, rest ++ after, by rw [← List.cons_append, hrest, List.append_assoc]⟩
    · rw [hevents]
      exact hf.extend after
    · rw [hevents]
      exact hf.extend after
  prepend := by
    intro m past ev later before h
    have hattempt : ∀ f location, Attempt (m.replay before) (past ++ ev :: later) past f location →
        Attempt m (before ++ past ++ ev :: later) (before ++ past) f location := by
      intro f location hf
      rw [List.append_assoc]
      exact hf.prepend before
    have hmono := h.mono hattempt
    refine ⟨?_, ?_, ?_, ?_⟩ <;> rw [Machine.replay_append]
    · exact h.evaluates
    · exact hmono.enters
    · exact hmono.exceeded
    · exact h.unimplemented

/-! ## Traces with origins -/

/-- All events of a traced action have an origin in it. -/
def Traced.Explained {α : Type} (t : Traced α) : Prop :=
  ∀ m, Everywhere (Originates m) (t m).events

namespace Traced

variable {α β : Type}

theorem explained_pure (a : α) : (Traced.pure a).Explained := fun _ => .nil

theorem explained_exhaust : (exhaust : Traced α).Explained := fun _ => .nil

theorem explained_log {ev : Event} (h : ev.Unbidden) : (log ev).Explained :=
  fun _ => .cons (.of_unbidden h) .nil

theorem explained_stop {ev : Event} {s : Stop} (h : ev.Unbidden) :
    (stop ev s : Traced α).Explained :=
  fun _ => .cons (.of_unbidden h) .nil

theorem explained_bind {t : Traced α} {f : α → Traced β} (ht : t.Explained)
    (hf : ∀ a, (f a).Explained) : (t.bind f).Explained := by
  intro m
  rw [Traced.bind]
  cases (t m).outcome with
  | error s => exact ht m
  | ok a => exact local_originates.append (ht m) (hf a _)

end Traced

/-- A request that does not fail for the settings by itself. -/
def Request.Neutral : Request → Prop
  | .fail f => (Event.fails f).Unbidden
  | _ => True

theorem Expr.Asks.neutral {e : Expr} {r : Request} (h : e.Asks r) : r.Neutral := by
  cases h <;> trivial

theorem Stmt.Asks.neutral {s : Stmt} {r : Request} (h : s.Asks r) : r.Neutral := by
  cases h <;> trivial

theorem Closure.Asks.neutral {f : Closure} {r : Request} (h : f.Asks r) : r.Neutral := by
  cases h <;> trivial

section Nodes

variable {α : Type} {eval : Expr → Traced Value} {exec : Stmt → Traced Completion}
  (heval : ∀ e, (eval e).Explained) (hexec : ∀ s, (exec s).Explained)

include heval hexec in
theorem Request.explained {r : Request} (hr : r.Neutral) : (r.traced eval exec).Explained := by
  cases r with
  | evaluate e => exact heval e
  | execute s => exact hexec s
  | lookup name => exact fun _ => .nil
  | unimplemented kind location =>
    intro m
    simp only [Request.traced]
    cases hpolicy : m.config.policy with
    | permissive => exact .nil
    | strict => exact .cons (.of_strict hpolicy) .nil
  | assign | bind | declare | ret => exact Traced.explained_log trivial
  | halt => exact Traced.explained_stop trivial
  | fail f => exact Traced.explained_stop hr
  | exhaust => exact Traced.explained_exhaust

include heval hexec in
theorem Plan.explained {P : Request → Prop} {p : Plan α} (hp : p.Within P)
    (hP : ∀ r, P r → r.Neutral) : (p.traced eval exec).Explained := by
  induction p with
  | done a => exact Traced.explained_pure a
  | ask r next ih =>
    exact Traced.explained_bind (Request.explained heval hexec (hP r hp.1)) fun a => ih a (hp.2 a)

end Nodes

/-- All that is evaluated and executed with so many levels is explained. -/
structure LevelsExplained (levels : Nat) : Prop where
  evaluate : ∀ e, (evaluateTraced levels e).Explained
  execute : ∀ s, (executeTraced levels s).Explained

section Levels

variable {levels : Nat}

theorem explained_evaluateAll (h : LevelsExplained levels) (es : List Expr) :
    (evaluateAllTraced levels es).Explained := by
  induction es with
  | nil => exact Traced.explained_pure []
  | cons e es ih =>
    exact Traced.explained_bind (h.evaluate e) fun v =>
      Traced.explained_bind ih fun vs => Traced.explained_pure (v :: vs)

/-- What comes after the first event of a call is explained within the call. -/
theorem explained_callClosure_tail (h : LevelsExplained levels) (f : Closure) (args : List Value)
    (location : Location) (m : Machine) {ev : Event} {rest : List Event}
    (hevents : (callClosureTraced levels f args location m).events = ev :: rest) :
    Everywhere (Originates (ev.apply m)) rest := by
  rcases Nat.lt_or_ge m.callDepth m.config.maxCallDepth with hlt | hle
  · rw [events_callClosureTraced_of_lt hlt] at hevents
    obtain ⟨rfl, rfl⟩ := List.cons.inj hevents
    have hbody := Plan.explained h.evaluate h.execute (f.planned args).within
      fun r hr => Closure.Asks.neutral hr
    exact local_originates.append (hbody _) (.cons (.of_unbidden trivial) .nil)
  · rw [callClosureTraced_of_le hle] at hevents
    obtain ⟨rfl, rfl⟩ := List.cons.inj hevents
    exact .nil

/-- The first event of an expression is that it is begun. -/
theorem explained_begun {e : Expr} {m : Machine} {rest : List Event}
    (hevents : (evaluateTraced (levels + 1) e m).events = .evaluates e :: rest)
    (hrest : Everywhere (fun past => Originates m (.evaluates e :: past)) rest) :
    Everywhere (Originates m) (evaluateTraced (levels + 1) e m).events := by
  rw [hevents]
  refine .cons (.of_evaluates levels [] ?_) hrest
  rw [Machine.replay_nil, List.append_nil, hevents]

/-- The same where the rest is explained by itself. -/
theorem explained_begun_of_tail {e : Expr} {m : Machine} {rest : List Event}
    (hevents : (evaluateTraced (levels + 1) e m).events = .evaluates e :: rest)
    (hrest : Everywhere (Originates m) rest) :
    Everywhere (Originates m) (evaluateTraced (levels + 1) e m).events :=
  explained_begun hevents (hrest.mono fun _ _ _ h => local_originates.prepend [.evaluates e] h)

/-- A call that finds its function is explained up to its arguments by them.  If these come to an
end, it is attempted. -/
theorem explained_call (h : LevelsExplained levels) (id : Identifier) (arguments : List Expr)
    (location : Location) {m : Machine} {f : Closure} (hf : m.lookupFunction id.name = some f) :
    Everywhere (Originates m)
      (evaluateTraced (levels + 1) (.call (.identifier id) arguments location) m).events := by
  let e : Expr := .call (.identifier id) arguments location
  let before := (evaluateAllTraced levels arguments m).events
  have hbefore : Everywhere (Originates m) before := explained_evaluateAll h arguments m
  cases hargs : (evaluateAllTraced levels arguments m).outcome with
  | error s => exact explained_begun_of_tail (events_evaluateTraced_of_error hf hargs) hbefore
  | ok args =>
    have hevents := events_evaluateTraced_call location hf hargs
    cases hcall : (callClosureTraced levels f args location (m.replay before)).events with
    | nil => exact absurd hcall callClosureTraced_ne_nil
    | cons ev rest =>
      rw [hcall] at hevents
      have hwhole : .evaluates e :: before ++ ev :: rest =
          (evaluateTraced (levels + 1) e m).events ++ [] := by
        rw [hevents, List.append_nil]
        rfl
      have hattempt : Attempt m (.evaluates e :: before ++ ev :: rest) (.evaluates e :: before) f
          location :=
        @Attempt.intro m _ [] [] levels id arguments location f args hwhole hf hargs
      have htail := explained_callClosure_tail h f args location (m.replay before) hcall
      refine explained_begun hevents (.append ?_ (.cons ?_ ?_))
      · refine hbefore.mono fun past ev' later h => ?_
        exact local_originates.prepend [.evaluates e] (local_originates.extend (ev :: rest) h)
      · have hhead : (callClosureTraced levels f args location
            (m.replay (.evaluates e :: before))).events.head? = some ev :=
          congrArg List.head? hcall
        rw [List.append_nil]
        exact .of_attempted hattempt hhead
      · have hmachine : m.replay (.evaluates e :: (before ++ [ev])) =
            ev.apply (m.replay before) := by
          rw [Machine.replay_cons, Machine.replay_append]
          rfl
        refine htail.mono fun past ev' later h => ?_
        rw [← hmachine] at h
        simpa using local_originates.prepend _ h

theorem explained_evaluate_succ (h : LevelsExplained levels) (e : Expr) :
    (evaluateTraced (levels + 1) e).Explained := by
  intro m
  cases hcourse : e.course with
  | plan p =>
    have hevents : (evaluateTraced (levels + 1) e m).events =
        .evaluates e :: (p.plan.traced (evaluateTraced levels) (executeTraced levels) m).events := by
      simp only [evaluateTraced, nodeTraced, hcourse]
      rfl
    have hplan := Plan.explained h.evaluate h.execute p.within fun r hr => Expr.Asks.neutral hr
    exact explained_begun_of_tail hevents (hplan m)
  | call callee arguments location he p =>
    clear hcourse
    subst he
    cases hid : callee.identifier? with
    | none =>
      have hevents : (evaluateTraced (levels + 1) (.call callee arguments location) m).events =
          [.evaluates (.call callee arguments location),
            .fails (.invalidCallee callee.kindName location)] := by
        simp only [evaluateTraced, nodeTraced, Expr.course, hid]
        rfl
      exact explained_begun_of_tail hevents (.cons (.of_unbidden trivial) .nil)
    | some id =>
      obtain rfl := Expr.eq_of_identifier? hid
      cases hf : m.lookupFunction id.name with
      | some f => exact explained_call h id arguments location hf
      | none =>
        have hevents :
            (evaluateTraced (levels + 1) (.call (.identifier id) arguments location) m).events =
              [.evaluates (.call (.identifier id) arguments location),
                .fails (.undefinedFunction id.name location)] := by
          simp only [evaluateTraced, nodeTraced, Expr.course, hid, Traced.bind, Traced.log,
            Machine.replay_cons, Machine.replay_nil, Event.apply, hf]
          rfl
        exact explained_begun_of_tail hevents (.cons (.of_unbidden trivial) .nil)

theorem explained_execute_succ (h : LevelsExplained levels) (s : Stmt) :
    (executeTraced (levels + 1) s).Explained :=
  Traced.explained_bind (Traced.explained_log trivial) fun _ =>
    Plan.explained h.evaluate h.execute (s.planned levels).within fun _ hr => hr.neutral

end Levels

/-- By induction on the levels, one node at a time. -/
theorem levelsExplained (levels : Nat) : LevelsExplained levels := by
  induction levels with
  | zero => exact ⟨fun e => Traced.explained_exhaust, fun s => Traced.explained_exhaust⟩
  | succ levels ih => exact ⟨explained_evaluate_succ ih, explained_execute_succ ih⟩

theorem explained_executeBody (levels : Nat) (body : List Stmt) :
    (executeBodyTraced levels body).Explained := by
  have h := levelsExplained levels
  refine Plan.explained h.evaluate h.execute (bodyPlanned body).within ?_
  rintro r ⟨s, -, rfl⟩
  trivial

/-! ## Operations -/

namespace Operation

variable {α : Type}

/-- The call that a host asks for. -/
def called? : Operation α → Option (Closure × Location)
  | .call f _ location => some (f, location)
  | _ => none

/-- The calls that are attempted in an operation, after some of its events: the one that a host asks
for, and those that come up in the run. -/
inductive Attempts (op : Operation α) (levels : Nat) (m : Machine) :
    List Event → Closure → Location → Prop where
  | asked {f : Closure} {location : Location} :
    op.called? = some (f, location) → Attempts op levels m [] f location
  | inside {past : List Event} {f : Closure} {location : Location} :
    Attempt m (op.traced levels m).events past f location → Attempts op levels m past f location

private theorem origin_of_originates {op : Operation α} {levels : Nat} {m : Machine}
    (h : Everywhere (Originates m) (op.traced levels m).events) :
    Everywhere (fun past => Origin (op.Attempts levels m past) m past)
      (op.traced levels m).events := by
  intro past ev later hevents
  refine (h past ev later hevents).mono fun f location hf => .inside ?_
  rw [hevents]
  exact hf

private theorem origin_call (levels : Nat) (f : Closure) (args : List Value) (location : Location)
    (m : Machine) :
    Everywhere (fun past => Origin ((Operation.call f args location).Attempts levels m past) m past)
      (callClosureTraced levels f args location m).events := by
  intro past ev later hevents
  cases past with
  | nil => exact .of_attempted (.asked rfl) (congrArg List.head? hevents)
  | cons first past =>
    have htail := explained_callClosure_tail (levelsExplained levels) f args location m hevents
    have horigin := local_originates.prepend [first] (htail past ev later rfl)
    refine Origin.mono horigin fun g location' hg => .inside ?_
    exact hevents.symm ▸ hg

/-- Every event of an operation has an origin in it. -/
theorem origin (op : Operation α) (levels : Nat) (m : Machine) :
    Everywhere (fun past => Origin (op.Attempts levels m past) m past)
      (op.traced levels m).events := by
  cases op with
  | evaluate e => exact origin_of_originates ((levelsExplained levels).evaluate e m)
  | execute s => exact origin_of_originates ((levelsExplained levels).execute s m)
  | executeBody body => exact origin_of_originates (explained_executeBody levels body m)
  | call f args location => exact origin_call levels f args location m
  | run p =>
    have hrun : (runTraced levels p).Explained :=
      Traced.explained_bind (Traced.explained_log trivial) fun _ => explained_executeBody levels p.body
    exact origin_of_originates (hrun m)

end Operation

end Treewalk
