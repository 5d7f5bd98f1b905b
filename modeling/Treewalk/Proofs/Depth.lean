import Treewalk.Proofs.Nesting
import Treewalk.Proofs.Origin

/-!
# The depth of calls

A call is entered only below the limit.  So a run never goes deeper than the limit, unless it began
there, and it has one more scope on the stack for each call that it has entered.

A run fails for the depth of calls if and only if a call is attempted in it at the limit or beyond.
That call is refused at once: nothing happens for it after its arguments.

## Main definitions

* `Operation.RespectsLimit` — what the limit means for a run.
* `calls_respect_limit` — it means that for every operation.
-/

namespace Treewalk

/-! ## What events do to the depth -/

/-- Only a call that is entered leads deeper, by one. -/
theorem Event.callDepth_apply (ev : Event) (m : Machine) :
    (ev.apply m).callDepth ≤ m.callDepth ∨
      (∃ link, ev = .enters link) ∧ (ev.apply m).callDepth = m.callDepth + 1 := by
  by_cases hev : ev.Moves
  · cases ev with
    | enters link => exact .inr ⟨⟨link, rfl⟩, rfl⟩
    | leaves => exact .inl (Nat.sub_le _ _)
    | opens | closes => exact .inl (Nat.le_refl _)
    | _ => exact hev.elim
  · exact .inl (Nat.le_of_eq (ev.sameStack hev m).callDepth)

/-- Every open call has one scope. -/
theorem Inside.balanced {m : Machine} {past : List Event} (h : Inside m past) :
    (m.replay past).scopeDepth + m.callDepth = m.scopeDepth + (m.replay past).callDepth := by
  induction h with
  | level hlevel => rw [hlevel.scopeDepth, hlevel.callDepth]
  | @call m before past link hlevel _ ih =>
    rw [Machine.replay_append, Machine.replay_cons]
    have hscopes : ((m.replay before).enterCall link).scopeDepth = m.scopeDepth + 1 :=
      congrArg (· + 1) hlevel.scopeDepth
    have hcalls : ((m.replay before).enterCall link).callDepth = m.callDepth + 1 :=
      congrArg (· + 1) hlevel.callDepth
    simp only [Event.apply] at ih ⊢
    omega

/-! ## Runs -/

namespace Operation

variable {α : Type}

/-- What the limit of calls means for a run. -/
structure RespectsLimit (op : Operation α) (levels : Nat) (m : Machine) : Prop where
  outcome : (op.traced levels m).outcome = (op.perform levels m).1
  replay : m.replay (op.traced levels m).events = (op.perform levels m).2
  /-- At no time a run is deeper than the limit, or than it was at the beginning. -/
  depth_le : ∀ past, past <+: (op.traced levels m).events →
    (m.replay past).callDepth ≤ max m.callDepth m.config.maxCallDepth
  /-- The scopes and the calls grow and shrink together. -/
  balanced : ∀ past, past <+: (op.traced levels m).events →
    (m.replay past).scopeDepth + m.callDepth = m.scopeDepth + (m.replay past).callDepth
  /-- Where the host has entered neither scopes nor calls there is one scope for each call and the
  global one. -/
  scopeDepth_le : m.frames = [] → m.callDepth = 0 →
    ∀ past, past <+: (op.traced levels m).events →
      (m.replay past).scopeDepth = (m.replay past).callDepth + 1 ∧
        (m.replay past).scopeDepth ≤ m.config.maxCallDepth + 1
  /-- A call that is begun has its own trace next.  If its function is found and its arguments come
  to an end, it is attempted. -/
  begun : Everywhere (fun past ev later => ∀ id arguments location,
    ev = .evaluates (.call (.identifier id) arguments location) →
    ∃ levels' after, ev :: later = (evaluateTraced (levels' + 1)
        (.call (.identifier id) arguments location) (m.replay past)).events ++ after ∧
      ∀ f args, (m.replay past).lookupFunction id.name = some f →
        (evaluateAllTraced levels' arguments (m.replay past)).outcome = .ok args →
        op.Attempts levels m
          (past ++ ev :: (evaluateAllTraced levels' arguments (m.replay past)).events) f location)
    (op.traced levels m).events
  /-- A run fails for the depth of calls if and only if a call is attempted at the limit or
  beyond. -/
  exceeded_iff : ∀ limit location,
    (op.perform levels m).1 = .error (.failed (.callDepthExceeded limit location)) ↔
      limit = m.config.maxCallDepth ∧ ∃ past f, op.Attempts levels m past f location ∧
        m.config.maxCallDepth ≤ (m.replay past).callDepth
  /-- Such a call is refused right after it is attempted, and then the open calls are left. -/
  refused : ∀ past f location, op.Attempts levels m past f location →
    m.config.maxCallDepth ≤ (m.replay past).callDepth →
    ∃ later, (op.traced levels m).events =
        past ++ .fails (.callDepthExceeded m.config.maxCallDepth location) :: later ∧
      ∀ next ∈ later, next = .leaves

section Runs

variable (op : Operation α) (levels : Nat) (m : Machine)

theorem callDepth_le {past : List Event} (hpast : past <+: (op.traced levels m).events) :
    (m.replay past).callDepth ≤ max m.callDepth m.config.maxCallDepth := by
  refine prefix_induction
    (P := fun past => (m.replay past).callDepth ≤ max m.callDepth m.config.maxCallDepth)
    (Nat.le_max_left _ _) (fun past ev later hevents hbefore => ?_) hpast
  rw [Machine.replay_append, Machine.replay_cons, Machine.replay_nil]
  rcases ev.callDepth_apply (m.replay past) with hle | ⟨⟨link, rfl⟩, heq⟩
  · exact Nat.le_trans hle hbefore
  · have hlimit := ((op.origin levels m past _ later hevents).enters link rfl).1
    rw [Machine.config_replay] at hlimit
    omega

theorem balanced {past : List Event} (hpast : past <+: (op.traced levels m).events) :
    (m.replay past).scopeDepth + m.callDepth = m.scopeDepth + (m.replay past).callDepth :=
  ((op.tells levels m).history.inside m hpast).balanced

/-- What comes next after a call is attempted at the limit or beyond. -/
theorem exists_fails {past : List Event} {f : Closure} {location : Location}
    (hf : op.Attempts levels m past f location)
    (hdepth : m.config.maxCallDepth ≤ (m.replay past).callDepth) :
    ∃ later, (op.traced levels m).events =
      past ++ .fails (.callDepthExceeded m.config.maxCallDepth location) :: later := by
  rw [← m.config_replay past] at hdepth ⊢
  cases hf with
  | asked hasked =>
    cases op with
    | call g args location' =>
      obtain ⟨rfl, rfl⟩ := Prod.mk.inj (Option.some.inj hasked)
      exact ⟨[], congrArg Trace.events (callClosureTraced_of_le hdepth)⟩
    | _ => cases hasked
  | inside hinside =>
    obtain ⟨levels', args, after, hevents⟩ := hinside.exists_later
    rw [callClosureTraced_of_le hdepth] at hevents
    exact ⟨after, by rw [hevents, List.append_assoc]; rfl⟩

theorem refused {past : List Event} {f : Closure} {location : Location}
    (hf : op.Attempts levels m past f location)
    (hdepth : m.config.maxCallDepth ≤ (m.replay past).callDepth) :
    ∃ later, (op.traced levels m).events =
        past ++ .fails (.callDepthExceeded m.config.maxCallDepth location) :: later ∧
      (∀ next ∈ later, next = .leaves) ∧ (op.perform levels m).1 =
        .error (.failed (.callDepthExceeded m.config.maxCallDepth location)) := by
  obtain ⟨later, hevents⟩ := op.exists_fails levels m hf hdepth
  exact ⟨later, hevents, (op.final levels m).stop past _ later hevents _ rfl⟩

theorem exists_attempt {limit : Nat} {location : Location}
    (h : (op.perform levels m).1 = .error (.failed (.callDepthExceeded limit location))) :
    limit = m.config.maxCallDepth ∧ ∃ past f, op.Attempts levels m past f location ∧
      m.config.maxCallDepth ≤ (m.replay past).callDepth := by
  obtain ⟨ev, hmem, hstop⟩ := (op.final levels m).exists_stop _ h nofun
  obtain ⟨past, later, hevents⟩ := List.append_of_mem hmem
  obtain ⟨hlimit, hdepth, f, hf⟩ :=
    (op.origin levels m past ev later hevents).exceeded limit location (Event.eq_fails hstop)
  rw [Machine.config_replay] at hlimit
  rw [hlimit] at hdepth
  exact ⟨hlimit, past, f, hf, hdepth⟩

end Runs

end Operation

/-- Whatever is evaluated, executed, called or run: it never goes deeper than the limit, with a scope
for each call, and it fails for the depth of calls exactly if a call is attempted too deep, at once
and before anything is done for that call. -/
theorem calls_respect_limit {α : Type} (op : Operation α) (levels : Nat) (m : Machine) :
    op.RespectsLimit levels m where
  outcome := (op.tells levels m).outcome
  replay := (op.tells levels m).replay
  depth_le _ := op.callDepth_le levels m
  balanced _ := op.balanced levels m
  scopeDepth_le hframes hcalls past hpast := by
    have hdepth := op.callDepth_le levels m hpast
    have hbalanced := op.balanced levels m hpast
    have hscopes : m.scopeDepth = 1 := by rw [Machine.scopeDepth, hframes, List.length_nil]
    omega
  begun past ev later hevents id arguments location hev := by
    subst hev
    obtain ⟨levels', after, hafter⟩ :=
      (op.origin levels m past _ later hevents).evaluates _ rfl
    have hwhole : (op.traced levels m).events = past ++ (evaluateTraced (levels' + 1)
        (.call (.identifier id) arguments location) (m.replay past)).events ++ after := by
      rw [hevents, hafter, List.append_assoc]
    exact ⟨levels', after, hafter, fun f args hf hargs => .inside (.intro hwhole hf hargs)⟩
  exceeded_iff limit location := by
    refine ⟨op.exists_attempt levels m, ?_⟩
    rintro ⟨rfl, past, f, hf, hdepth⟩
    obtain ⟨-, -, -, houtcome⟩ := op.refused levels m hf hdepth
    exact houtcome
  refused past f location hf hdepth := by
    obtain ⟨later, hevents, hlater, -⟩ := op.refused levels m hf hdepth
    exact ⟨later, hevents, hlater⟩

/-- A machine that lets no call in, and a function without parameters. -/
example : (evaluateTraced 2 (.call (.identifier { name := "f" }) [] {})
    ((Machine.new { maxCallDepth := 0 }).setFunction "f" ⟨"f", [], [], 0⟩)).events =
      [.evaluates (.call (.identifier { name := "f" }) [] {}),
        .fails (.callDepthExceeded 0 {})] := rfl

end Treewalk
