import Treewalk.Proofs.Course

/-!
# More levels

Evaluation that has come to its end stays the same if it may go down further.  So a run that ends
with some number of levels has one outcome, whatever the number is, and a run that ends with none
goes on forever.

## Main definitions

* `Action.Below` — the second action is the first one with more levels.
* `below_evaluate`, `below_execute`, `below_callClosure` — what more levels do.
* `Finishes` — a run that comes to an end.
-/

namespace Treewalk

/-- The second action is the same as the first one wherever that does not give up for lack of
levels. -/
def Action.Below {α : Type} (act act' : Action α) : Prop :=
  ∀ m, (∃ m', act m = .error .exhausted m') ∨ act m = act' m

namespace Action.Below

variable {α β : Type} {act act' act'' : Action α}

theorem refl (act : Action α) : act.Below act := fun _ => .inr rfl

theorem trans (h : act.Below act') (h' : act'.Below act'') : act.Below act'' := by
  intro m
  rcases h m with hm | hm
  · exact .inl hm
  · rcases h' m with hm' | hm'
    · exact .inl (hm ▸ hm')
    · exact .inr (hm.trans hm')

theorem throw_exhausted (act : Action α) : Below (throw .exhausted) act :=
  fun m => .inl ⟨m, rfl⟩

theorem bind {f f' : α → Action β} (h : act.Below act') (hf : ∀ a, (f a).Below (f' a)) :
    (act >>= f).Below (act' >>= f') := by
  intro m
  simp only [Bind.bind, EStateM.bind]
  rcases h m with ⟨m', hm⟩ | hm
  · exact .inl ⟨m', by rw [hm]⟩
  · rw [← hm]
    cases act m with
    | ok a m' => exact hf a m'
    | error s m' => exact .inr rfl

theorem inCall (h : act.Below act') (parent : Option Nat) :
    (Action.inCall parent act).Below (Action.inCall parent act') := by
  intro m
  simp only [Action.inCall]
  rcases h (m.enterCall parent) with ⟨m', hm⟩ | hm
  · exact .inl ⟨m'.leaveCall, by rw [hm]⟩
  · exact .inr (by rw [hm])

/-- A run that did not use its levels up stays the same with more of them. -/
theorem perform_eq {m : Machine} (h : act.Below act')
    (hend : (m.perform act).1 ≠ .error .exhausted) : m.perform act' = m.perform act := by
  rcases h m with ⟨m', hm⟩ | hm
  · exact absurd (by simp only [Machine.perform, hm]) hend
  · simp only [Machine.perform, hm]

end Action.Below

section Nodes

variable {α : Type} {eval eval' : Expr → Action Value} {exec exec' : Stmt → Action Completion}
  (heval : ∀ e, (eval e).Below (eval' e)) (hexec : ∀ s, (exec s).Below (exec' s))

include heval hexec in
/-- A plan may go down further wherever it asks for a part. -/
theorem Plan.below_run (p : Plan α) : (p.run eval exec).Below (p.run eval' exec') := by
  induction p with
  | done a => exact .refl _
  | ask r next ih =>
    refine .bind ?_ ih
    cases r with
    | evaluate e => exact heval e
    | execute s => exact hexec s
    | _ => exact .refl _

include heval hexec in
theorem below_planned {P : Request → Prop} {mark : α → Ending} {F : Scheme α}
    (p : Planned P mark F) : (F eval exec).Below (F eval' exec') := by
  rw [← p.run_plan, ← p.run_plan]
  exact p.plan.below_run heval hexec

include heval hexec in
theorem below_call (f : Closure) (args : List Value) (location : Location) :
    (call eval exec f args location).Below (call eval' exec' f args location) := by
  intro m
  rw [call_eq, call_eq]
  split
  · exact .inr rfl
  · have hbody := (f.planned args).plan.below_run heval hexec
    exact (hbody.bind fun _ => .refl _).inCall _ m

include heval hexec in
theorem below_evaluateNode (e : Expr) :
    (evaluateNode eval exec e).Below (evaluateNode eval' exec' e) := by
  cases e.course with
  | plan p => exact below_planned heval hexec p
  | call callee arguments location h p =>
    subst h
    intro m
    rw [evaluateNode_call, evaluateNode_call]
    cases callee.identifier? with
    | none => exact .inr rfl
    | some id =>
      dsimp only
      cases m.lookupFunction id.name with
      | none => exact .inr rfl
      | some f =>
        have hargs := below_planned heval hexec p
        exact hargs.bind (fun args => below_call heval hexec f args location) m

end Nodes

/-- A loop may go down further in its test and in its body, and may take more rounds. -/
theorem below_loop {test test' : Action Value} {body body' : Action Completion}
    (htest : test.Below test') (hbody : body.Below body') {rounds more : Nat} (h : rounds ≤ more)
    (last : Value) : (loop test body last rounds).Below (loop test' body' last more) := by
  induction rounds generalizing last more with
  | zero => exact .throw_exhausted _
  | succ rounds ih =>
    obtain ⟨more, rfl⟩ : ∃ rest, more = rest + 1 := ⟨more - 1, by omega⟩
    refine htest.bind fun v => ?_
    split
    · refine hbody.bind fun c => ?_
      cases c with
      | normal v => exact ih (Nat.le_of_succ_le_succ h) v
      | returned v => exact .refl _
    · exact .refl _

/-- More rounds make a difference to a loop only. -/
theorem below_rounds (eval : Expr → Action Value) (exec : Stmt → Action Completion)
    {rounds more : Nat} (h : rounds ≤ more) (s : Stmt) :
    (executeNode eval exec rounds s).Below (executeNode eval exec more s) := by
  cases s with
  | whileLoop test body location => exact below_loop (.refl _) (.refl _) h _
  | _ => exact .refl _

theorem below_succ (levels : Nat) :
    (∀ e, (evaluate levels e).Below (evaluate (levels + 1) e)) ∧
      ∀ s, (execute levels s).Below (execute (levels + 1) s) := by
  induction levels with
  | zero => exact ⟨fun e => .throw_exhausted _, fun s => .throw_exhausted _⟩
  | succ levels ih =>
    refine ⟨fun e => below_evaluateNode ih.1 ih.2 e, fun s => ?_⟩
    exact (below_planned ih.1 ih.2 (s.planned levels)).trans (below_rounds _ _ (Nat.le_succ levels) s)

variable {levels more : Nat}

theorem below_levels (h : levels ≤ more) :
    (∀ e, (evaluate levels e).Below (evaluate more e)) ∧
      ∀ s, (execute levels s).Below (execute more s) := by
  induction h with
  | refl => exact ⟨fun e => .refl _, fun s => .refl _⟩
  | step _ ih =>
    exact ⟨fun e => (ih.1 e).trans ((below_succ _).1 e),
      fun s => (ih.2 s).trans ((below_succ _).2 s)⟩

theorem below_evaluate (h : levels ≤ more) (e : Expr) :
    (evaluate levels e).Below (evaluate more e) :=
  (below_levels h).1 e

theorem below_execute (h : levels ≤ more) (s : Stmt) :
    (execute levels s).Below (execute more s) :=
  (below_levels h).2 s

theorem below_executeBody (h : levels ≤ more) (body : List Stmt) :
    (executeBody levels body).Below (executeBody more body) :=
  below_planned (below_levels h).1 (below_levels h).2 (bodyPlanned body)

theorem below_callClosure (h : levels ≤ more) (f : Closure) (args : List Value)
    (location : Location) :
    (callClosure levels f args location).Below (callClosure more f args location) :=
  below_call (below_levels h).1 (below_levels h).2 f args location

/-- A run comes to an end: from some number of levels on it has one result, which is not that the
levels were used up. -/
def Finishes {α : Type} (run : Nat → Except Stop α × Machine) : Prop :=
  ∃ result, result.1 ≠ .error .exhausted ∧ ∃ levels, ∀ more, levels ≤ more → run more = result

/-- A run that ends with one number of levels comes to an end. -/
theorem finishes_of_ne {α : Type} {act : Nat → Action α} {m : Machine}
    (hact : ∀ more, levels ≤ more → (act levels).Below (act more))
    (h : (m.perform (act levels)).1 ≠ .error .exhausted) :
    Finishes fun levels => m.perform (act levels) :=
  ⟨m.perform (act levels), h, levels, fun more hmore => (hact more hmore).perform_eq h⟩

end Treewalk
