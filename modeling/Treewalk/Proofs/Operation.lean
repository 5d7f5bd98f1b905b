import Treewalk.Proofs.Coupling
import Treewalk.Proofs.Finality
import Treewalk.Proofs.Levels

/-!
# Operations

A host can ask a machine to evaluate an expression, to execute statements, to call a function or to
run a program.  What is said of all of these is said of an `Operation`, whose type tells the results
that it may have.

## Main definitions

* `Operation`, `Operation.perform` — what a machine can be asked to do, and what it does then.
* `Operation.traced`, `Operation.final` — its traces.
* `EndsWith`, `SameRuns` — how a run ends, and two runs that end alike.
-/

namespace Treewalk

/-- What a machine can be asked to do, by the type of the results. -/
inductive Operation : Type → Type where
  | evaluate (e : Expr) : Operation Value
  | execute (s : Stmt) : Operation Completion
  /-- Execute statements in the current scope. -/
  | executeBody (body : List Stmt) : Operation Completion
  | call (f : Closure) (args : List Value) (location : Location) : Operation Value
  /-- Run a program as a new pass. -/
  | run (p : Program) : Operation Completion

namespace Operation

variable {α : Type} {levels more : Nat}

/-- What a machine does when it is asked. -/
def perform (levels : Nat) (m : Machine) : Operation α → Except Stop α × Machine
  | .evaluate e => m.perform (Treewalk.evaluate levels e)
  | .execute s => m.perform (Treewalk.execute levels s)
  | .executeBody body => m.perform (Treewalk.executeBody levels body)
  | .call f args location => m.perform (callClosure levels f args location)
  | .run p => m.run levels p

/-- An operation as an action. -/
def act (levels : Nat) : Operation α → Action α
  | .evaluate e => Treewalk.evaluate levels e
  | .execute s => Treewalk.execute levels s
  | .executeBody body => Treewalk.executeBody levels body
  | .call f args location => callClosure levels f args location
  | .run p => do
    modify fun m => { m with halted := false }
    Treewalk.executeBody levels p.body

theorem perform_eq (op : Operation α) (levels : Nat) (m : Machine) :
    op.perform levels m = m.perform (op.act levels) := by
  cases op <;> rfl

/-! ## Traces -/

/-- The trace of an operation. -/
def traced (levels : Nat) : Operation α → Traced α
  | .evaluate e => evaluateTraced levels e
  | .execute s => executeTraced levels s
  | .executeBody body => executeBodyTraced levels body
  | .call f args location => callClosureTraced levels f args location
  | .run p => runTraced levels p

/-- The ending that a result stands for.  Only statements return. -/
def mark : Operation α → α → Ending
  | .evaluate _ | .call .. => silent
  | .execute _ | .executeBody _ | .run _ => Completion.ending

theorem mark_ne_stopped (op : Operation α) (a : α) (s : Stop) : op.mark a ≠ .stopped s := by
  cases op with
  | evaluate | call => exact silent_ne_stopped a s
  | execute | executeBody | run => exact Completion.ending_ne_stopped a s

theorem tells (op : Operation α) (levels : Nat) (m : Machine) :
    (op.traced levels m).Tells op.mark m (op.perform levels m) := by
  cases op with
  | evaluate e => exact tells_evaluate levels e m
  | execute s => exact tells_execute levels s m
  | executeBody body => exact tells_executeBody levels body m
  | call f args location => exact tells_callClosure levels f args location m
  | run p => exact tells_run levels p m

theorem final (op : Operation α) (levels : Nat) (m : Machine) :
    Final op.mark m (op.perform levels m) (op.traced levels m) :=
  (op.tells levels m).final op.mark_ne_stopped

/-! ## More levels -/

theorem below_act (op : Operation α) (h : levels ≤ more) :
    (op.act levels).Below (op.act more) := by
  cases op with
  | evaluate e => exact below_evaluate h e
  | execute s => exact below_execute h s
  | executeBody body => exact below_executeBody h body
  | call f args location => exact below_callClosure h f args location
  | run p => exact .bind (.refl _) fun _ => below_executeBody h p.body

theorem perform_of_le (op : Operation α) {m : Machine} (h : levels ≤ more)
    (hend : (op.perform levels m).1 ≠ .error .exhausted) :
    op.perform more m = op.perform levels m := by
  rw [perform_eq] at hend ⊢
  rw [perform_eq]
  exact (op.below_act h).perform_eq hend

theorem finishes (op : Operation α) {m : Machine}
    (hend : (op.perform levels m).1 ≠ .error .exhausted) :
    Finishes fun levels => op.perform levels m :=
  ⟨op.perform levels m, hend, levels, fun _ hmore => op.perform_of_le hmore hend⟩

/-- An operation comes to an end if there are levels that are not used up. -/
theorem finishes_iff (op : Operation α) (m : Machine) :
    (Finishes fun levels => op.perform levels m) ↔
      ∃ levels, (op.perform levels m).1 ≠ .error .exhausted := by
  constructor
  · rintro ⟨result, hend, levels, hlevels⟩
    refine ⟨levels, ?_⟩
    rw [show op.perform levels m = result from hlevels levels (Nat.le_refl _)]
    exact hend
  · exact fun ⟨levels, hend⟩ => op.finishes hend

end Operation

/-! ## Two runs -/

/-- An operation keeps a coupling at an index where names may be bound, if a new pass does and every
function may be called. -/
theorem Coupling.keeps_act {ι α : Type} (C : Coupling ι) {k : ι} (hk : C.binds k)
    (hresume : ∀ m n, C.rel k m n → C.rel k { m with halted := false } { n with halted := false })
    (hmatched : ∀ f, C.matched k f f) (op : Operation α) (levels : Nat) :
    C.Keeps k (op.act levels) := by
  cases op with
  | evaluate e => exact C.keeps_evaluate levels e
  | execute s => exact C.keeps_execute hk levels s
  | executeBody body => exact C.keeps_executeBody hk levels body
  | call f args location =>
    intro m n h
    obtain ⟨k', hk', henter, hleave⟩ := C.enter h (hmatched f)
    exact C.ends_callClosure hk' (C.limit h) ⟨rfl, rfl⟩ h henter hleave levels args location
  | run p =>
    exact C.keeps_bind (C.keeps_modify hresume) fun _ => C.keeps_executeBody hk levels p.body

section Runs

variable {α : Type}

/-- A run comes to an end, which is a stop of a certain kind. -/
def EndsWith (P : Stop → Prop) (run : Nat → Except Stop α × Machine) : Prop :=
  ∃ s m, P s ∧ s ≠ .exhausted ∧ ∃ levels, ∀ more, levels ≤ more → run more = (.error s, m)

/-- A run with a result does not stop. -/
theorem Operation.not_endsWith {P : Stop → Prop} {op : Operation α} {levels : Nat} {m : Machine}
    {a : α} (h : (op.perform levels m).1 = .ok a) :
    ¬ EndsWith P fun levels => op.perform levels m := by
  rintro ⟨s, n, -, -, levels', hlevels⟩
  have hend : (op.perform levels m).1 ≠ .error .exhausted := by rw [h]; exact nofun
  have hsame := op.perform_of_le (Nat.le_max_left levels levels') hend
  have hstop := hlevels (max levels levels') (Nat.le_max_right _ _)
  rw [← hsame, show op.perform _ m = _ from hstop] at h
  cases h

/-- With any number of levels two runs have the same outcome and lead to the same machine, up to a
change.  So one of them comes to an end if and only if the other one does. -/
structure SameRuns (change : Machine → Machine) (run run' : Nat → Except Stop α × Machine) :
    Prop where
  outcome : ∀ levels, (run' levels).1 = (run levels).1
  machine : ∀ levels, (run' levels).2 = change (run levels).2
  finishes : Finishes run' ↔ Finishes run

theorem SameRuns.of_forall {change : Machine → Machine} {run run' : Nat → Except Stop α × Machine}
    (h : ∀ levels, (run' levels).1 = (run levels).1 ∧ (run' levels).2 = change (run levels).2)
    (hrun : ∀ levels, (run levels).1 ≠ .error .exhausted → Finishes run) :
    SameRuns change run run' where
  outcome levels := (h levels).1
  machine levels := (h levels).2
  finishes := by
    constructor
    · rintro ⟨result, hend, levels, hlevels⟩
      refine hrun levels ?_
      rw [← (h levels).1, hlevels levels (Nat.le_refl _)]
      exact hend
    · rintro ⟨result, hend, levels, hlevels⟩
      refine ⟨(result.1, change result.2), hend, levels, fun more hmore => ?_⟩
      rw [← hlevels more hmore]
      exact Prod.ext (h more).1 (h more).2

end Runs

end Treewalk
