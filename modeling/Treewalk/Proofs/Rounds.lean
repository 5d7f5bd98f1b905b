import Mathlib.Logic.ExistsUnique
import Treewalk.Proofs.Requests
import Treewalk.Proofs.Sequencing

/-!
# Rounds of a loop

A round of a loop evaluates the test and, if that holds, executes the body.  The rounds in which the
body comes to its normal end lead from one machine to the next; the round after them ends the loop,
because the test does not hold, because there is a return, or because something is stopped.  A loop
comes to an end if there are such rounds, and with what the last of them comes to.

The number of rounds is all that the levels of a loop stand for.  So the rounds are told without
levels, and a run of a loop requests nothing but its test and its body in turn.

To write out the first round makes no difference but for the value: a loop that ends right after its
first round has the value of the body, and none if that loop is a statement of its own.

## Main definitions

* `Rounds`, `LastRound` — the rounds that go on, and the one that ends the loop.
* `loopPlan`, `roundRequests` — the requests of a loop.
* `Completion.unvalued`, `unrolled` — a completion without its value, and a loop with its first
  round written out.
-/

namespace Treewalk

/-! ## Rounds -/

/-- So many rounds lead from one value and machine to another: in each of them the test holds and
the body comes to its normal end.  The value is the one of the body in the round before. -/
inductive Rounds (test : Expr) (body : Stmt) :
    Nat → Value → Machine → Value → Machine → Prop where
  | none (last : Value) (m : Machine) : Rounds test body 0 last m last m
  | next {n : Nat} {last v w last' : Value} {m m₁ m₂ m' : Machine} :
    test.EndsIn m (.ok v, m₁) → v.isTruthy = true → body.EndsIn m₁ (.ok (.normal w), m₂) →
    Rounds test body n w m₂ last' m' → Rounds test body (n + 1) last m last' m'

/-- The round that ends a loop, with its requests and the result of the loop.  `last` is the value
of the body in the round before. -/
inductive LastRound (test : Expr) (body : Stmt) (last : Value) (m : Machine) :
    List Request → Except Stop Completion × Machine → Prop where
  /-- The test does not hold. -/
  | untrue {v : Value} {m' : Machine} : test.EndsIn m (.ok v, m') → v.isTruthy = false →
    LastRound test body last m [.evaluate test] (.ok (.normal last), m')
  /-- The test is stopped. -/
  | testStops {s : Stop} {m' : Machine} : test.EndsIn m (.error s, m') →
    LastRound test body last m [.evaluate test] (.error s, m')
  | returns {v w : Value} {m₁ m' : Machine} : test.EndsIn m (.ok v, m₁) → v.isTruthy = true →
    body.EndsIn m₁ (.ok (.returned w), m') →
    LastRound test body last m [.evaluate test, .execute body] (.ok (.returned w), m')
  /-- The body is stopped. -/
  | bodyStops {v : Value} {s : Stop} {m₁ m' : Machine} : test.EndsIn m (.ok v, m₁) →
    v.isTruthy = true → body.EndsIn m₁ (.error s, m') →
    LastRound test body last m [.evaluate test, .execute body] (.error s, m')

section Rounds

variable {test : Expr} {body : Stmt} {m m' : Machine} {last last' : Value}
  {requests : List Request} {result : Except Stop Completion × Machine}

/-- The body of the last round does not come to its normal end. -/
theorem LastRound.not_next {v w : Value} {m₁ m₂ : Machine}
    (h : LastRound test body last m requests result) (htest : test.EndsIn m (.ok v, m₁))
    (hv : v.isTruthy = true) (hbody : body.EndsIn m₁ (.ok (.normal w), m₂)) : False := by
  cases h with
  | untrue htest' hv' =>
    cases htest.unique htest'
    rw [hv] at hv'
    cases hv'
  | testStops htest' => cases htest.unique htest'
  | returns htest' _ hbody' =>
    cases htest.unique htest'
    cases hbody.unique hbody'
  | bodyStops htest' _ hbody' =>
    cases htest.unique htest'
    cases hbody.unique hbody'

/-- A loop ends after one number of rounds: by induction on the rounds of one run, along those of
the other. -/
theorem Rounds.unique {n n' : Nat} {last₁ last₂ : Value} {m₁ m₂ : Machine}
    {requests' : List Request} {result' : Except Stop Completion × Machine}
    (h : Rounds test body n last m last₁ m₁) (hlast : LastRound test body last₁ m₁ requests result)
    (h' : Rounds test body n' last m last₂ m₂)
    (hlast' : LastRound test body last₂ m₂ requests' result') : n = n' := by
  induction h generalizing n' with
  | none =>
    cases h' with
    | none => rfl
    | next htest hv hbody _ => exact (hlast.not_next htest hv hbody).elim
  | next htest hv hbody _ ih =>
    cases h' with
    | none => exact (hlast'.not_next htest hv hbody).elim
    | next htest' _ hbody' hrounds' =>
      cases htest.unique htest'
      cases hbody.unique hbody'
      exact congrArg (· + 1) (ih hlast hrounds')

end Rounds

/-! ## The requests of a loop -/

/-- The requests of a loop that gives up after a number of rounds. -/
def loopPlan (test : Expr) (body : Stmt) : Nat → Value → Plan Completion
  | 0, _ => .ask .exhaust nofun
  | rounds + 1, last => .ask (.evaluate test) fun v =>
    if v.isTruthy then .ask (.execute body) fun
      | .normal w => loopPlan test body rounds w
      | .returned w => .done (.returned w)
    else .done (.normal last)

/-- The requests of rounds that go on. -/
def roundRequests (test : Expr) (body : Stmt) (n : Nat) : List Request :=
  (List.replicate n [.evaluate test, .execute body]).flatten

section Requests

variable {test : Expr} {body : Stmt} {m : Machine} {last : Value} {requests : List Request}
  {result : Except Stop Completion × Machine}

/-- The plan of a loop does not depend on what is known of its requests. -/
theorem plan_loop {P : Request → Prop} (htest : P (.evaluate test)) (hbody : P (.execute body))
    (hend : P .exhaust) (rounds : Nat) (last : Value) :
    (Planned.loop test body htest hbody hend rounds last).plan = loopPlan test body rounds last := by
  induction rounds generalizing last with
  | zero => exact congrArg (Plan.ask _) (funext fun answer => Empty.elim answer)
  | succ rounds ih =>
    refine congrArg (Plan.ask _) (funext fun v => ?_)
    dsimp only [Plan.bind]
    by_cases hv : v.isTruthy = true
    · rw [dif_pos hv, if_pos hv]
      refine congrArg (Plan.ask _) (funext fun c => ?_)
      cases c with
      | normal w => exact ih w
      | returned w => rfl
    · rw [dif_neg hv, if_neg hv]
      rfl

/-- A round that ends the loop needs one round of the plan. -/
theorem LastRound.makes {tail : List Request} (h : LastRound test body last m tail result)
    (rounds : Nat) : (loopPlan test body (rounds + 1) last).Makes m tail result := by
  rw [loopPlan]
  cases h with
  | untrue htest hv =>
    refine .ask htest ?_
    rw [if_neg (by rw [hv]; exact Bool.false_ne_true)]
    exact .done _ _
  | testStops htest => exact .stop htest
  | returns htest hv hbody =>
    refine .ask htest ?_
    rw [if_pos hv]
    exact .ask hbody (.done _ _)
  | bodyStops htest hv hbody =>
    refine .ask htest ?_
    rw [if_pos hv]
    exact .stop hbody

/-- Rounds that go on and one that ends the loop need as many rounds of the plan. -/
theorem Rounds.makes {n : Nat} {last' : Value} {m' : Machine} {tail : List Request}
    (h : Rounds test body n last m last' m') (hlast : LastRound test body last' m' tail result) :
    (loopPlan test body (n + 1) last).Makes m (roundRequests test body n ++ tail) result := by
  induction h with
  | none => exact hlast.makes 0
  | next htest hv hbody _ ih =>
    refine .ask htest ?_
    rw [if_pos hv]
    exact .ask hbody (ih hlast)

/-- A run of the plan is made of rounds: by induction on the rounds that the plan has. -/
theorem exists_rounds_of_makes {rounds : Nat}
    (h : (loopPlan test body rounds last).Makes m requests result) :
    ∃ n last' m' tail, Rounds test body n last m last' m' ∧
      LastRound test body last' m' tail result ∧ requests = roundRequests test body n ++ tail := by
  induction rounds generalizing last m requests with
  | zero =>
    cases h with
    | ask hanswer _ => exact (Request.not_endsIn_exhaust hanswer).elim
    | stop hstop => exact (Request.not_endsIn_exhaust hstop).elim
  | succ rounds ih =>
    rw [loopPlan] at h
    cases h with
    | stop hstop => exact ⟨0, last, m, _, .none last m, .testStops hstop, rfl⟩
    | @ask _ _ _ _ v _ _ htest hrest =>
      dsimp only at hrest
      by_cases hv : v.isTruthy = true
      · rw [if_pos hv] at hrest
        cases hrest with
        | stop hstop => exact ⟨0, last, m, _, .none last m, .bodyStops htest hv hstop, rfl⟩
        | @ask _ _ _ _ c _ _ hbody hrest =>
          cases c with
          | returned w =>
            cases hrest
            exact ⟨0, last, m, _, .none last m, .returns htest hv hbody, rfl⟩
          | normal w =>
            obtain ⟨n, last', m', tail, hrounds, hlast, rfl⟩ := ih hrest
            exact ⟨n + 1, last', m', tail, .next htest hv hbody hrounds, hlast, rfl⟩
      · rw [if_neg hv] at hrest
        cases hrest
        rw [Bool.not_eq_true] at hv
        exact ⟨0, last, m, _, .none last m, .untrue htest hv, rfl⟩

/-- A loop requests its test and its body in turn. -/
theorem makes_whileLoop_iff {location : Location} :
    (Stmt.whileLoop test body location).Makes m requests result ↔
      ∃ n last' m' tail, Rounds test body n .absent m last' m' ∧
        LastRound test body last' m' tail result ∧
        requests = roundRequests test body n ++ tail := by
  constructor
  · rintro ⟨rounds, hmakes⟩
    rw [Stmt.planned, plan_loop] at hmakes
    exact exists_rounds_of_makes hmakes
  · rintro ⟨n, last', m', tail, hrounds, hlast, rfl⟩
    refine ⟨n + 1, ?_⟩
    rw [Stmt.planned, plan_loop]
    exact hrounds.makes hlast

end Requests

/-! ## The first round -/

/-- A completion without its value, if that is the one of the last statement. -/
def Completion.unvalued : Completion → Completion
  | .normal _ => .normal .absent
  | .returned v => .returned v

/-- A loop with its first round written out. -/
def unrolled (test : Expr) (body : Stmt) (location blockLocation ifLocation : Location) : Stmt :=
  .ifElse test (.block [body, .whileLoop test body location] blockLocation) none ifLocation

namespace Action

/-- An action that ends without the value of the last statement. -/
def unvalued (act : Action Completion) : Action Completion := do
  return (← act).unvalued

/-- One round, and what comes after it if the test holds. -/
def round (test : Action Value) (body rest : Action Completion) : Action Completion := do
  if (← test).isTruthy then body.andThen fun _ => rest else return .normal .absent

section Below

variable {test test' : Action Value} {body body' rest rest' act act' : Action Completion}

theorem Below.unvalued (h : act.Below act') : act.unvalued.Below act'.unvalued :=
  h.bind fun _ => .refl _

theorem Below.round (htest : test.Below test') (hbody : body.Below body')
    (hrest : rest.Below rest') : (round test body rest).Below (round test' body' rest') := by
  refine htest.bind fun v => ?_
  split
  · exact hbody.andThen fun _ => hrest
  · exact .refl _

end Below

theorem Steady.unvalued {act : Nat → Action Completion} (h : Steady act) :
    Steady fun levels => (act levels).unvalued :=
  fun levels more hmore => (h levels more hmore).unvalued

/-- To go on with nothing but the value. -/
theorem andThen_normal (act : Action Completion) :
    (act.andThen fun v => return .normal v) = act := by
  have hpure : act.andThen (fun v => return .normal v) = act >>= pure := by
    refine congrArg (act >>= ·) (funext fun c => ?_)
    cases c <;> rfl
  rw [hpure, bind_pure]

end Action

section Unrolled

variable (test : Action Value) (body : Action Completion)

theorem loop_succ (last : Value) (rounds : Nat) :
    loop test body last (rounds + 1) = test >>= fun v =>
      if v.isTruthy then body.andThen fun w => loop test body w rounds
      else return .normal last := rfl

/-- The value of the round before only matters if there is no other round. -/
theorem unvalued_loop (last last' : Value) (rounds : Nat) :
    (loop test body last rounds).unvalued = (loop test body last' rounds).unvalued := by
  cases rounds with
  | zero => rfl
  | succ rounds =>
    simp only [loop_succ, Action.unvalued, bind_assoc]
    refine congrArg (test >>= ·) (funext fun v => ?_)
    split <;> rfl

theorem unvalued_loop_succ (last : Value) (rounds : Nat) :
    (loop test body last (rounds + 1)).unvalued =
      (Action.round test body (loop test body .absent rounds)).unvalued := by
  simp only [loop_succ, Action.round, Action.unvalued, bind_assoc]
  refine congrArg (test >>= ·) (funext fun v => ?_)
  split
  · simp only [Action.andThen, bind_assoc]
    refine congrArg (body >>= ·) (funext fun c => ?_)
    cases c with
    | normal w => exact unvalued_loop test body w .absent rounds
    | returned w => rfl
  · rfl

end Unrolled

section Statements

variable (test : Expr) (body : Stmt) (location : Location)

theorem execute_whileLoop (levels : Nat) :
    execute (levels + 1) (.whileLoop test body location) =
      loop (evaluate levels test) (execute levels body) .absent levels := rfl

/-- The loop behind the first round goes down two levels further than the test. -/
theorem execute_unrolled (levels : Nat) (blockLocation ifLocation : Location) :
    execute (levels + 3) (unrolled test body location blockLocation ifLocation) =
      Action.round (evaluate (levels + 2) test) (execute (levels + 1) body)
        (execute (levels + 1) (.whileLoop test body location)) := by
  have hblock : executeBody (levels + 1) [body, .whileLoop test body location] =
      (execute (levels + 1) body).andThen fun _ =>
        execute (levels + 1) (.whileLoop test body location) := by
    rw [executeBody, executeBlock, executeAll_cons]
    exact congrArg (Action.andThen _) (funext fun _ => Action.andThen_normal _)
  rw [Action.round, ← hblock]
  rfl

/-- With its first round written out, a loop does the same but for the value. -/
theorem sameEnds_unrolled (blockLocation ifLocation : Location) (m : Machine) :
    SameEnds (fun levels => m.perform (execute levels (.whileLoop test body location)).unvalued)
      fun levels => m.perform
        (execute levels (unrolled test body location blockLocation ifLocation)).unvalued := by
  refine Action.sameEnds_of_reaches (steady_execute _).unvalued (steady_execute _).unvalued ?_ ?_ m
  · intro levels
    refine ⟨levels + 4, ?_⟩
    have hmore := below_execute (Nat.le_add_right levels 2) (.whileLoop test body location)
    refine hmore.unvalued.trans ?_
    simp only [execute_whileLoop, unvalued_loop_succ, execute_unrolled]
    exact Action.Below.unvalued <| .round (below_evaluate (by omega) test)
      (below_execute (by omega) body) (below_loop (.refl _) (.refl _) (Nat.le_succ _) _)
  · intro levels
    refine ⟨levels + 4, ?_⟩
    have hmore := below_execute (Nat.le_add_right levels 3)
      (unrolled test body location blockLocation ifLocation)
    refine hmore.unvalued.trans ?_
    simp only [execute_whileLoop, unvalued_loop_succ, execute_unrolled]
    have hloop := below_loop (below_evaluate (Nat.le_add_right levels 3) test)
      (below_execute (Nat.le_add_right levels 3) body) (Nat.le_add_right levels 2) .absent
    exact Action.Below.unvalued <| .round (below_evaluate (by omega) test)
      (below_execute (by omega) body) hloop

end Statements

/-- From any machine, a loop comes to an end with a result exactly if there is a number of rounds
that go on and then one that ends the loop with this result; the number is the only one.  All that
a run of the loop requests is the test and the body in each of those rounds, and in the last round
the test, and the body if the test holds.  With its first round written out as a conditional
statement, the loop does the same, but for the value at its normal end. -/
theorem loop_in_rounds (test : Expr) (body : Stmt) (location : Location) (m : Machine) :
    (∀ result, (Stmt.whileLoop test body location).EndsIn m result ↔
        ∃! n, ∃ last m' tail, Rounds test body n .absent m last m' ∧
          LastRound test body last m' tail result) ∧
      (∀ requests result, (Stmt.whileLoop test body location).Makes m requests result ↔
        ∃ n last m' tail, Rounds test body n .absent m last m' ∧
          LastRound test body last m' tail result ∧
          requests = roundRequests test body n ++ tail) ∧
      ∀ blockLocation ifLocation,
        SameEnds (fun levels => m.perform (execute levels (.whileLoop test body location)).unvalued)
          fun levels => m.perform
            (execute levels (unrolled test body location blockLocation ifLocation)).unvalued := by
  refine ⟨?_, ?_, ?_⟩
  · intro result
    simp only [Stmt.endsIn_iff, makes_whileLoop_iff]
    constructor
    · rintro ⟨requests, n, last, m', tail, hrounds, hlast, -⟩
      refine ⟨n, ⟨last, m', tail, hrounds, hlast⟩, ?_⟩
      rintro n' ⟨last', m'', tail', hrounds', hlast'⟩
      exact hrounds'.unique hlast' hrounds hlast
    · rintro ⟨n, ⟨last, m', tail, hrounds, hlast⟩, -⟩
      exact ⟨_, n, last, m', tail, hrounds, hlast, rfl⟩
  · intro requests result
    exact makes_whileLoop_iff
  · intro blockLocation ifLocation
    exact sameEnds_unrolled test body location blockLocation ifLocation m

end Treewalk
