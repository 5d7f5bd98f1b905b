import Treewalk.Proofs.Course

/-!
# The halt flag

Evaluation sets the flag of a machine when it is halted and never reads it.  So the flag is a record
of the outcome: nothing else depends on what it was before, and afterwards it is set if it was set
before or the run was halted.

## Main definitions

* `Machine.withHalted` — a machine with another flag.
* `Action.Recorded` — an action that only records in the flag whether it was halted.
* `HaltRecorded` — what that means for a run.
-/

namespace Treewalk

namespace Machine

/-- Put another flag in place. -/
def withHalted (b : Bool) (m : Machine) : Machine := { m with halted := b }

section WithHalted

variable (b c : Bool) (m : Machine)

@[simp] theorem withHalted_self : m.withHalted m.halted = m := rfl

@[simp] theorem withHalted_withHalted : (m.withHalted b).withHalted c = m.withHalted c := rfl

theorem setVariable_withHalted (name : String) (v : Value) :
    (m.withHalted b).setVariable name v = (m.setVariable name v).withHalted b := by
  rw [setVariable, setVariable, changeCurrent, changeCurrent]
  cases hframes : m.frames <;> simp [withHalted, hframes]

theorem setFunction_withHalted (name : String) (f : Closure) :
    (m.withHalted b).setFunction name f = (m.setFunction name f).withHalted b := by
  rw [setFunction, setFunction, changeCurrent, changeCurrent]
  cases hframes : m.frames <;> simp [withHalted, hframes]

theorem assign_withHalted (name : String) (v : Value) :
    (m.withHalted b).assign name v = (m.assign name v).withHalted b := by
  have howner : (m.withHalted b).owner? name = m.owner? name := rfl
  rw [assign, assign, howner]
  cases m.owner? name with
  | none => exact setVariable_withHalted b m name v
  | some s => by_cases h : m.global.id = s.id <;> simp [changeScope, withHalted, h]

end WithHalted

end Machine

/-- Whether an outcome is a halt. -/
def haltedBy {α : Type} : Except Stop α → Bool
  | .ok _ => false
  | .error s => s == .halted

section Outcomes

variable {α β : Type} {outcome : Except Stop α}

@[simp] theorem haltedBy_ok (a : α) : haltedBy (.ok a) = false := rfl

@[simp] theorem haltedBy_failed (f : Fault) :
    haltedBy (.error (.failed f) : Except Stop α) = false := rfl

theorem haltedBy_eq_true_iff : haltedBy outcome = true ↔ outcome = .error .halted := by
  cases outcome <;> simp [haltedBy]

@[simp] theorem haltedBy_map (f : α → β) : haltedBy (outcome.map f) = haltedBy outcome := by
  cases outcome <;> rfl

end Outcomes

/-! ## Actions -/

/-- From a machine with another flag, the outcome is the same and so is the machine, up to the flag.
That is set if it was set before or the action was halted. -/
def Action.Recorded {α : Type} (act : Action α) : Prop :=
  ∀ (m : Machine) b, (m.withHalted b).perform act =
    ((m.perform act).1, (m.perform act).2.withHalted (b || haltedBy (m.perform act).1))

namespace Action

variable {α β : Type}

theorem recorded_pure (a : α) : (pure a : Action α).Recorded := by
  intro m b
  simp only [haltedBy, Machine.perform, pure, EStateM.pure, Bool.or_false]

theorem recorded_throw {s : Stop} (hs : s ≠ .halted) : (throw s : Action α).Recorded := by
  intro m b
  cases s with
  | halted => exact absurd rfl hs
  | _ =>
    show (_, _) = (_, m.withHalted (b || false))
    rw [Bool.or_false]
    rfl

theorem recorded_modify {f : Machine → Machine}
    (hf : ∀ m b, f (Machine.withHalted b m) = (f m).withHalted b) :
    (modify f : Action Unit).Recorded := by
  intro m b
  show (_, f (m.withHalted b)) = (_, (f m).withHalted (b || false))
  rw [hf, Bool.or_false]
  rfl

theorem recorded_halt : (halt : Action α).Recorded := by
  intro m b
  show (_, _) = (_, m.halt.withHalted (b || true))
  rw [Bool.or_true]
  rfl

theorem recorded_bind {act : Action α} {f : α → Action β} (hact : act.Recorded)
    (hf : ∀ a, (f a).Recorded) : (act >>= f).Recorded := by
  intro m b
  rw [Machine.perform_bind, Machine.perform_bind, hact m b]
  cases hrun : m.perform act with
  | mk outcome m' =>
    cases outcome with
    | error s => rfl
    | ok a =>
      simp only [haltedBy_ok, Bool.or_false]
      exact hf a m' b

theorem recorded_unimplemented (kind : String) (location : Location) :
    (unimplemented kind location).Recorded := by
  intro m b
  have hconfig : (m.withHalted b).config = m.config := rfl
  rw [Machine.perform_unimplemented, Machine.perform_unimplemented, hconfig]
  cases m.config.policy <;> simp

end Action

/-! ## Evaluation -/

section Nodes

variable {α : Type} {eval : Expr → Action Value} {exec : Stmt → Action Completion}
  (heval : ∀ e, (eval e).Recorded) (hexec : ∀ s, (exec s).Recorded)

include heval hexec in
theorem Request.recorded_run (r : Request) : (r.run eval exec).Recorded := by
  cases r with
  | evaluate e => exact heval e
  | execute s => exact hexec s
  | lookup name =>
    intro m b
    show (_, _) = (_, m.withHalted (b || false))
    rw [Bool.or_false]
    rfl
  | unimplemented kind location => exact Action.recorded_unimplemented kind location
  | assign name v => exact Action.recorded_modify fun m b => m.assign_withHalted b name v
  | bind name v => exact Action.recorded_modify fun m b => m.setVariable_withHalted b name v
  | declare name params body =>
    exact Action.recorded_modify fun m b => m.setFunction_withHalted b name _
  | ret v => exact Action.recorded_pure ()
  | halt => exact Action.recorded_halt
  | fail f => exact Action.recorded_throw nofun
  | exhaust => exact Action.recorded_throw nofun

include heval hexec in
theorem Plan.recorded_run (p : Plan α) : (p.run eval exec).Recorded := by
  induction p with
  | done a => exact Action.recorded_pure a
  | ask r next ih => exact Action.recorded_bind (r.recorded_run heval hexec) ih

include heval hexec in
theorem Planned.recorded {P : Request → Prop} {mark : α → Ending} {F : Scheme α}
    (p : Planned P mark F) : (F eval exec).Recorded := by
  rw [← p.run_plan]
  exact p.plan.recorded_run heval hexec

include heval hexec in
theorem recorded_call (f : Closure) (args : List Value) (location : Location) :
    (call eval exec f args location).Recorded := by
  intro m b
  rw [Machine.perform_call, Machine.perform_call]
  have hconfig : (m.withHalted b).config = m.config := rfl
  have hdepth : (m.withHalted b).callDepth = m.callDepth := rfl
  rw [hconfig, hdepth]
  split
  · simp
  · have hbody := (f.planned args).plan.recorded_run heval hexec (m.enterCall (some f.home)) b
    have henter : (m.withHalted b).enterCall (some f.home) =
        (m.enterCall (some f.home)).withHalted b := rfl
    rw [henter, hbody]
    simp only [haltedBy_map]
    rfl

include heval hexec in
theorem recorded_evaluateNode (e : Expr) : (evaluateNode eval exec e).Recorded := by
  cases e.course with
  | plan p => exact p.recorded heval hexec
  | call callee arguments location h p =>
    subst h
    intro m b
    simp only [Machine.perform, evaluateNode_call]
    have hfound : ∀ name, (m.withHalted b).lookupFunction name = m.lookupFunction name :=
      fun _ => rfl
    cases callee.identifier? with
    | none => simp
    | some id =>
      simp only [hfound]
      cases m.lookupFunction id.name with
      | none => simp
      | some f =>
        have hargs := p.recorded heval hexec
        exact Action.recorded_bind hargs (fun args => recorded_call heval hexec f args location) m b

end Nodes

theorem recorded_levels (levels : Nat) :
    (∀ e, (evaluate levels e).Recorded) ∧ ∀ s, (execute levels s).Recorded := by
  induction levels with
  | zero => exact ⟨fun e => Action.recorded_throw nofun, fun s => Action.recorded_throw nofun⟩
  | succ levels ih =>
    exact ⟨fun e => recorded_evaluateNode ih.1 ih.2 e,
      fun s => (s.planned levels).recorded ih.1 ih.2⟩

theorem recorded_executeBody (levels : Nat) (body : List Stmt) :
    (executeBody levels body).Recorded :=
  (bodyPlanned body).recorded (recorded_levels levels).1 (recorded_levels levels).2

theorem recorded_callClosure (levels : Nat) (f : Closure) (args : List Value)
    (location : Location) : (callClosure levels f args location).Recorded :=
  recorded_call (recorded_levels levels).1 (recorded_levels levels).2 f args location

/-! ## Runs -/

/-- The flag of a machine has no influence on an action but for the flag afterwards, which is set if
it was set before or the action was halted. -/
structure HaltRecorded {α : Type} (act : Action α) (m : Machine) : Prop where
  outcome : ∀ b, ((m.withHalted b).perform act).1 = (m.perform act).1
  machine : ∀ b, ((m.withHalted b).perform act).2.withHalted m.halted =
    (m.perform act).2.withHalted m.halted
  halted : (m.perform act).2.halted = true ↔
    m.halted = true ∨ (m.perform act).1 = .error .halted

theorem Action.Recorded.haltRecorded {α : Type} {act : Action α} (h : act.Recorded) (m : Machine) :
    HaltRecorded act m where
  outcome b := by rw [h m b]
  machine b := by rw [h m b, Machine.withHalted_withHalted]
  halted := by
    have hflag := congrArg (fun run => run.2.halted) (h m m.halted)
    rw [Machine.withHalted_self] at hflag
    rw [← haltedBy_eq_true_iff, ← Bool.or_eq_true]
    exact Bool.eq_iff_iff.mp hflag

/-- With any number of levels, and whatever is evaluated, executed or called, the flag makes no
difference to the outcome and to the rest of the machine, and afterwards it tells whether there was
a halt then or before.  A program forgets about earlier halts, so that the flag tells whether the
program was halted. -/
theorem halt_flag_records (levels : Nat) (m : Machine) :
    (∀ e, HaltRecorded (evaluate levels e) m) ∧
      (∀ s, HaltRecorded (execute levels s) m) ∧
      (∀ body, HaltRecorded (executeBody levels body) m) ∧
      (∀ f args location, HaltRecorded (callClosure levels f args location) m) ∧
      ∀ p, ((m.run levels p).2.halted = true ↔ (m.run levels p).1 = .error .halted) ∧
        ∀ b, (m.withHalted b).run levels p = m.run levels p := by
  refine ⟨fun e => ((recorded_levels levels).1 e).haltRecorded m,
    fun s => ((recorded_levels levels).2 s).haltRecorded m,
    fun body => (recorded_executeBody levels body).haltRecorded m,
    fun f args location => (recorded_callClosure levels f args location).haltRecorded m,
    fun p => ⟨?_, fun b => rfl⟩⟩
  have h := ((recorded_executeBody levels p.body).haltRecorded (m.withHalted false)).halted
  exact h.trans (or_iff_right nofun)

end Treewalk
