import Treewalk.Proofs.Origin

/-!
# Settings

The settings of a machine say what it does with a construct that it has no rule for, and how deep
calls may go.  Evaluation reads them where it may fail for them and nowhere else.  So a run under
tighter settings fails for them, or it is the run under looser settings: a strict machine behaves
like a permissive one up to the first construct without a rule, and a higher limit of calls makes
no difference to a run that did not meet the lower one.

## Main definitions

* `Machine.withConfig` — a machine with other settings.
* `Config.Loosened` — looser settings, and the faults that the tighter ones may lead to.
* `Operation.same_of_loosened` — what looser settings do to a run.
-/

namespace Treewalk

namespace Machine

/-- Put other settings in place. -/
def withConfig (c : Config) (m : Machine) : Machine := { m with config := c }

/-- Put another policy in place. -/
def withPolicy (policy : Policy) (m : Machine) : Machine :=
  m.withConfig { m.config with policy }

/-- Put another limit of calls in place. -/
def withLimit (maxCallDepth : Nat) (m : Machine) : Machine :=
  m.withConfig { m.config with maxCallDepth }

section WithConfig

variable (c : Config) (m : Machine)

theorem setVariable_withConfig (name : String) (v : Value) :
    (m.withConfig c).setVariable name v = (m.setVariable name v).withConfig c := by
  rw [setVariable, setVariable, changeCurrent, changeCurrent]
  cases hframes : m.frames <;> simp [withConfig, hframes]

theorem setFunction_withConfig (name : String) (f : Closure) :
    (m.withConfig c).setFunction name f = (m.setFunction name f).withConfig c := by
  rw [setFunction, setFunction, changeCurrent, changeCurrent]
  cases hframes : m.frames <;> simp [withConfig, hframes]

theorem assign_withConfig (name : String) (v : Value) :
    (m.withConfig c).assign name v = (m.assign name v).withConfig c := by
  have howner : (m.withConfig c).owner? name = m.owner? name := rfl
  rw [assign, assign, howner]
  cases m.owner? name with
  | none => exact setVariable_withConfig c m name v
  | some s => by_cases h : m.global.id = s.id <;> simp [changeScope, withConfig, h]

end WithConfig

end Machine

/-! ## Looser settings -/

/-- The second settings are the looser ones in all that they differ in.  Where they do, the faults
that the first ones lead to are excused. -/
structure Config.Loosened (excused : Stop → Prop) (c c' : Config) : Prop where
  policy : c'.policy = c.policy ∨ c.policy = .strict ∧
    ∀ kind location, excused (.failed (.unimplemented kind location))
  limit : c'.maxCallDepth = c.maxCallDepth ∨ c.maxCallDepth ≤ c'.maxCallDepth ∧
    ∀ location, excused (.failed (.callDepthExceeded c.maxCallDepth location))

/-- Two machines that only differ in their settings, which are fixed. -/
def Config.Apart (c c' : Config) (m n : Machine) : Prop := m.config = c ∧ n = m.withConfig c'

namespace Config

variable {excused : Stop → Prop} {c c' : Config} {m n : Machine}

theorem Loosened.unimplemented (h : c.Loosened excused c') (hmn : c.Apart c' m n) (kind : String)
    (location : Location) :
    Ends (c.Apart c') excused (Action.unimplemented kind location m)
      (Action.unimplemented kind location n) := by
  obtain ⟨hc, rfl⟩ := hmn
  rw [Action.unimplemented_eq, Action.unimplemented_eq, hc]
  rcases h.policy with hpolicy | ⟨hstrict, hexcused⟩
  · have hconfig : (m.withConfig c').config.policy = c.policy := hpolicy
    rw [hconfig]
    cases c.policy with
    | permissive => exact .ok _ ⟨hc, rfl⟩
    | strict => exact .error _ ⟨hc, rfl⟩
  · rw [hstrict]
    exact .excuse (hexcused kind location)

theorem Loosened.sameLimit (h : c.Loosened excused c') (hmn : c.Apart c' m n) :
    SameLimit excused m n := by
  obtain ⟨rfl, rfl⟩ := hmn
  rcases h.limit with hlimit | ⟨hle, hexcused⟩
  · exact ⟨fun hm => hlimit ▸ hm, fun hm => .inr ⟨hlimit ▸ hm, hlimit⟩⟩
  · exact ⟨fun hm => Nat.lt_of_lt_of_le hm hle, fun _ => .inl hexcused⟩

/-- Runs under two settings of which the second ones are looser. -/
def Loosened.coupling (h : c.Loosened excused c') : Coupling Unit where
  rel _ := c.Apart c'
  excused := excused
  binds _ := True
  matched _ f g := f = g
  lookupVariable := by
    rintro - m n ⟨-, rfl⟩ name
    rfl
  lookupFunction := by
    rintro - m n ⟨-, rfl⟩ name
    show Option.Rel _ (m.lookupFunction name) (m.lookupFunction name)
    cases m.lookupFunction name with
    | none => exact .none
    | some f => exact .some rfl
  assign := by
    rintro - m n ⟨hc, rfl⟩ name v
    exact ⟨(Machine.sameStack_assign name v m).config.trans hc, m.assign_withConfig c' name v⟩
  halt := by
    rintro - m n ⟨hc, rfl⟩
    exact ⟨hc, rfl⟩
  setVariable := by
    rintro - m n - ⟨hc, rfl⟩ name v
    have hstack := Machine.sameStack_changeCurrent (Scope.place_bindVariable name v) m
    exact ⟨hstack.config.trans hc, m.setVariable_withConfig c' name v⟩
  setFunction := by
    rintro - m n - ⟨hc, rfl⟩ name params body
    have hstack := Machine.sameStack_changeCurrent
      (Scope.place_bindFunction name ⟨name, params, body, m.current.id⟩) m
    exact ⟨hstack.config.trans hc, m.setFunction_withConfig c' name _⟩
  unimplemented := h.unimplemented
  limit := h.sameLimit
  sameCode := by
    rintro - f g rfl
    exact ⟨rfl, rfl⟩
  enter := by
    rintro - m n f g ⟨hc, rfl⟩ rfl
    refine ⟨(), trivial, ⟨hc, rfl⟩, ?_⟩
    rintro m' n' ⟨hc', rfl⟩
    exact ⟨hc', rfl⟩

end Config

/-! ## Runs -/

namespace Operation

variable {α : Type} {excused : Stop → Prop} {c c' : Config}

/-- A run comes to an end for which it is excused, or it is the run under looser settings. -/
theorem same_of_loosened (op : Operation α) (m : Machine) {change : Machine → Machine}
    (h : c.Loosened excused c') (hexcused : ¬ excused .exhausted)
    (hchange : ∀ n : Machine, n.config = c → n.withConfig c' = change n) :
    EndsWith excused (fun levels => op.perform levels (m.withConfig c)) ∨
      SameRuns change (fun levels => op.perform levels (m.withConfig c))
        fun levels => op.perform levels (m.withConfig c') := by
  by_cases hstop : ∃ levels s, excused s ∧ (op.perform levels (m.withConfig c)).1 = .error s
  · obtain ⟨levels, s, hs, hend⟩ := hstop
    have hfinal : (op.perform levels (m.withConfig c)).1 ≠ .error .exhausted := by
      rw [hend]
      rintro ⟨⟩
      exact hexcused hs
    refine .inl ⟨s, (op.perform levels (m.withConfig c)).2, hs, ?_, levels, fun more hmore => ?_⟩
    · rintro rfl
      exact hexcused hs
    · exact (op.perform_of_le hmore hfinal).trans (Prod.ext hend rfl)
  · refine .inr (.of_forall (fun levels => ?_) fun levels => op.finishes)
    have hkeeps := h.coupling.keeps_act (k := ()) trivial ?_ (fun f => rfl) op levels
    · have hends := hkeeps (m.withConfig c) (m.withConfig c') ⟨rfl, rfl⟩
      rw [op.perform_eq, op.perform_eq]
      rcases hends.perform_or with ⟨s, hs, hend⟩ | ⟨houtcome, hc, hmachine⟩
      · exact absurd ⟨levels, s, hs, op.perform_eq levels _ ▸ hend⟩ hstop
      · exact ⟨houtcome.symm, hmachine.trans (hchange _ hc)⟩
    · rintro m n ⟨hc, rfl⟩
      exact ⟨hc, rfl⟩

/-- A construct without a rule is no failure where the settings are permissive. -/
theorem code_ne_of_permissive (op : Operation α) {levels : Nat} {m : Machine} {f : Fault}
    (hpolicy : m.config.policy = .permissive)
    (hf : (op.perform levels m).1 = .error (.failed f)) : f.code ≠ "R004" := by
  intro hcode
  obtain ⟨ev, hmem, hstop⟩ := (op.final levels m).exists_stop _ hf nofun
  obtain ⟨past, later, hevents⟩ := List.append_of_mem hmem
  have horigin := op.origin levels m past ev later hevents
  cases f with
  | unimplemented kind location =>
    have hstrict := horigin.unimplemented kind location (Event.eq_fails hstop)
    rw [Machine.config_replay, hpolicy] at hstrict
    cases hstrict
  | _ => simp [Fault.code] at hcode

end Operation

/-- A strict run fails for a construct without a rule, or it is the permissive run: it comes to an
end if that one does, with the same outcome and in the same machine up to the policy.  No permissive
run fails for such a construct. -/
theorem strict_refines_permissive {α : Type} (op : Operation α) (m : Machine) :
    (EndsWith (fun s => ∃ kind location, s = .failed (.unimplemented kind location))
        (fun levels => op.perform levels (m.withPolicy .strict)) ∨
      SameRuns (Machine.withPolicy .permissive)
        (fun levels => op.perform levels (m.withPolicy .strict))
        fun levels => op.perform levels (m.withPolicy .permissive)) ∧
    ∀ levels f, (op.perform levels (m.withPolicy .permissive)).1 = .error (.failed f) →
      f.code ≠ "R004" := by
  refine ⟨?_, fun levels f hf => op.code_ne_of_permissive rfl hf⟩
  have hloosened : Config.Loosened
      (fun s => ∃ kind location, s = .failed (.unimplemented kind location))
      { m.config with policy := .strict } { m.config with policy := .permissive } :=
    ⟨.inr ⟨rfl, fun kind location => ⟨kind, location, rfl⟩⟩, .inl rfl⟩
  refine op.same_of_loosened m hloosened nofun fun n hn => ?_
  rw [Machine.withPolicy, hn]

/-- A run that does not fail for the depth of calls is the run under any higher limit: that one
comes to an end if this one does, with the same outcome and in the same machine up to the limit. -/
theorem higher_limit_changes_nothing {α : Type} (op : Operation α) (m : Machine)
    {limit limit' : Nat} (h : limit ≤ limit') :
    EndsWith (fun s => ∃ location, s = .failed (.callDepthExceeded limit location))
        (fun levels => op.perform levels (m.withLimit limit)) ∨
      SameRuns (Machine.withLimit limit') (fun levels => op.perform levels (m.withLimit limit))
        fun levels => op.perform levels (m.withLimit limit') := by
  have hloosened : Config.Loosened
      (fun s => ∃ location, s = .failed (.callDepthExceeded limit location))
      { m.config with maxCallDepth := limit } { m.config with maxCallDepth := limit' } :=
    ⟨.inl rfl, .inr ⟨h, fun location => ⟨location, rfl⟩⟩⟩
  refine op.same_of_loosened m hloosened nofun fun n hn => ?_
  rw [Machine.withLimit, hn]

/-- A machine with a function that returns `true`. -/
def machineWithF : Machine :=
  (Machine.new {}).setFunction "f" ⟨"f", [], [.ret (some (.literal { value := .bool true })) {}], 0⟩

/-- A call of that function. -/
def callOfF : Operation Value := .evaluate (.call (.identifier { name := "f" }) [] {})

/-- The call is not nested in another one, so that it is the same under any limit but zero. -/
theorem limits_of_callOfF : 1 ≤ 5 ∧
    SameRuns (Machine.withLimit 5) (fun levels => callOfF.perform levels (machineWithF.withLimit 1))
      fun levels => callOfF.perform levels (machineWithF.withLimit 5) := by
  have hreturns : (callOfF.perform 4 (machineWithF.withLimit 1)).1 = .ok (.bool true) := rfl
  exact ⟨by decide, (higher_limit_changes_nothing callOfF machineWithF (by decide)).resolve_left
    (Operation.not_endsWith hreturns)⟩

end Treewalk
