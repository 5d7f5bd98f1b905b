import Treewalk.Proofs.Equivalence

/-!
# The requests of a run

A plan holds all requests that may come up at a node.  One run of it makes some of them, one after
the other, each in the machine that the one before has led to.  Which ones these are, and what the
run comes to, is told here without levels: a request of a run has come to an end, with whatever
levels that takes.

So it can be said of a node what is evaluated for it, how often and in which order.

## Main definitions

* `Request.EndsIn` — a request comes to an end with an answer, or stops.
* `Plan.Makes` — the requests that a run of a plan makes, and its result.
* `Expr.Makes`, `Stmt.Makes` — the same for nodes.
* `Expr.endsIn_iff`, `Stmt.endsIn_iff` — a node comes to an end as its plan does.
-/

namespace Treewalk

variable {α β : Type} {m : Machine} {requests : List Request}

/-! ## Plans -/

/-- From a machine, a request comes to an end with an answer, or stops. -/
def Request.EndsIn (r : Request) (m : Machine) (result : Except Stop r.Answer × Machine) : Prop :=
  Yields (fun levels => m.perform (r.run (Treewalk.evaluate levels) (Treewalk.execute levels)))
    result

theorem Plan.steady_run (p : Plan α) :
    Action.Steady fun levels => p.run (evaluate levels) (execute levels) :=
  fun _ _ h => p.below_run (below_levels h).1 (below_levels h).2

theorem steady_request (r : Request) :
    Action.Steady fun levels => r.run (evaluate levels) (execute levels) := by
  have h := (Plan.one r).steady_run
  simpa only [Plan.one, Plan.run, bind_pure] using h

/-- No number of levels is enough to give up for lack of levels. -/
theorem Request.not_endsIn_exhaust {result : Except Stop Empty × Machine} :
    ¬ Request.exhaust.EndsIn m result := by
  rintro ⟨hend, levels, hlevels⟩
  rw [← hlevels levels (Nat.le_refl _)] at hend
  exact hend rfl

/-- What has no rule comes to its end under the permissive policy only. -/
theorem Request.endsIn_unimplemented_iff {kind : String} {location : Location} {v : Value}
    {m' : Machine} :
    (Request.unimplemented kind location).EndsIn m (.ok v, m') ↔
      m.config.policy = .permissive ∧ v = .absent ∧ m' = m := by
  simp only [EndsIn, run, Machine.perform_unimplemented]
  cases m.config.policy with
  | permissive => simp [yields_const_iff]
  | strict => simp [yields_const_iff]

/-- From a machine, a run of a plan makes these requests and comes to an end with a result. -/
inductive Plan.Makes : Plan α → Machine → List Request → Except Stop α × Machine → Prop where
  | done (a : α) (m : Machine) : Makes (.done a) m [] (.ok a, m)
  | ask {r : Request} {next : r.Answer → Plan α} {m m' : Machine} {a : r.Answer}
    {requests : List Request} {result : Except Stop α × Machine} :
    r.EndsIn m (.ok a, m') → Makes (next a) m' requests result →
    Makes (.ask r next) m (r :: requests) result
  | stop {r : Request} {next : r.Answer → Plan α} {m m' : Machine} {s : Stop} :
    r.EndsIn m (.error s, m') → Makes (.ask r next) m [r] (.error s, m')

namespace Plan

/-- A run of a plan comes to an end if all of its requests do. -/
theorem yields_run_iff {p : Plan α} {result : Except Stop α × Machine} :
    Yields (fun levels => m.perform (p.run (evaluate levels) (execute levels))) result ↔
      ∃ requests, p.Makes m requests result := by
  induction p generalizing m with
  | done a =>
    simp only [run, yields_pure_iff]
    constructor
    · rintro rfl
      exact ⟨[], .done a m⟩
    · rintro ⟨requests, hmakes⟩
      cases hmakes
      rfl
  | ask r next ih =>
    simp only [run]
    refine (yields_bind_iff (steady_request r)).trans ?_
    constructor
    · rintro (⟨s, m', hstop, rfl⟩ | ⟨a, m', hanswer, hnext⟩)
      · exact ⟨[r], .stop hstop⟩
      · obtain ⟨requests, hmakes⟩ := (ih a).mp hnext
        exact ⟨r :: requests, .ask hanswer hmakes⟩
    · rintro ⟨requests, hmakes⟩
      cases hmakes with
      | ask hanswer hnext => exact .inr ⟨_, _, hanswer, (ih _).mpr ⟨_, hnext⟩⟩
      | stop hstop => exact .inl ⟨_, _, hstop, rfl⟩

/-- The second of two plans is run from where the first one ended, unless that stopped. -/
theorem makes_bind_iff {p : Plan α} {f : α → Plan β} {result : Except Stop β × Machine} :
    (p.bind f).Makes m requests result ↔
      (∃ s m', p.Makes m requests (.error s, m') ∧ result = (.error s, m')) ∨
      ∃ a m' before after, p.Makes m before (.ok a, m') ∧ (f a).Makes m' after result ∧
        requests = before ++ after := by
  induction p generalizing m requests with
  | done a =>
    constructor
    · intro h
      exact .inr ⟨a, m, [], requests, .done a m, h, rfl⟩
    · rintro (⟨s, m', hmakes, -⟩ | ⟨a, m', before, after, hmakes, hnext, rfl⟩)
      · cases hmakes
      · cases hmakes
        exact hnext
  | ask r next ih =>
    constructor
    · intro h
      cases h with
      | stop hstop => exact .inl ⟨_, _, .stop hstop, rfl⟩
      | ask hanswer hnext =>
        rcases (ih _).mp hnext with ⟨s, m', hmakes, rfl⟩ | ⟨a, m', before, after, hmakes, hrest, rfl⟩
        · exact .inl ⟨s, m', .ask hanswer hmakes, rfl⟩
        · exact .inr ⟨a, m', r :: before, after, .ask hanswer hmakes, hrest, rfl⟩
    · rintro (⟨s, m', hmakes, rfl⟩ | ⟨a, m', before, after, hmakes, hrest, rfl⟩)
      · cases hmakes with
        | stop hstop => exact .stop hstop
        | ask hanswer hnext => exact .ask hanswer ((ih _).mpr (.inl ⟨s, m', hnext, rfl⟩))
      · cases hmakes with
        | ask hanswer hnext =>
          exact .ask hanswer ((ih _).mpr (.inr ⟨a, m', _, after, hnext, hrest, rfl⟩))

theorem makes_one_iff {r : Request} {result : Except Stop r.Answer × Machine} :
    (one r).Makes m requests result ↔ requests = [r] ∧ r.EndsIn m result := by
  constructor
  · intro h
    cases h with
    | ask hanswer hnext =>
      cases hnext
      exact ⟨rfl, hanswer⟩
    | stop hstop => exact ⟨rfl, hstop⟩
  · rintro ⟨rfl, hends⟩
    obtain ⟨outcome, m'⟩ := result
    cases outcome with
    | ok a => exact .ask hends (.done a m')
    | error s => exact .stop hends

theorem makes_evaluate_iff {e : Expr} {result : Except Stop Value × Machine} :
    (one (.evaluate e)).Makes m requests result ↔
      requests = [.evaluate e] ∧ e.EndsIn m result :=
  makes_one_iff

/-- Two plans in a row come to a value if both do. -/
theorem makes_bind_ok_iff {p : Plan α} {f : α → Plan β} {b : β} {m' : Machine} :
    (p.bind f).Makes m requests (.ok b, m') ↔
      ∃ a m₁ before after, p.Makes m before (.ok a, m₁) ∧ (f a).Makes m₁ after (.ok b, m') ∧
        requests = before ++ after := by
  rw [makes_bind_iff]
  constructor
  · rintro (⟨s, m₁, -, heq⟩ | h)
    · cases heq
    · exact h
  · exact .inr

/-- Two plans in a row stop if one of them does. -/
theorem makes_bind_error_iff {p : Plan α} {f : α → Plan β} {s : Stop} {m' : Machine} :
    (p.bind f).Makes m requests (.error s, m') ↔
      p.Makes m requests (.error s, m') ∨
      ∃ a m₁ before after, p.Makes m before (.ok a, m₁) ∧ (f a).Makes m₁ after (.error s, m') ∧
        requests = before ++ after := by
  rw [makes_bind_iff]
  refine or_congr_left ?_
  constructor
  · rintro ⟨s', m₁, hmakes, heq⟩
    cases heq
    exact hmakes
  · intro hmakes
    exact ⟨s, m', hmakes, rfl⟩

end Plan

/-! ## Nodes -/

/-- From a machine, an expression makes these requests and comes to an end with a result.  It is no
call, which has no plan. -/
def Expr.Makes (e : Expr) (m : Machine) (requests : List Request)
    (result : Except Stop Value × Machine) : Prop :=
  ∃ p, e.course = .plan p ∧ p.plan.Makes m requests result

/-- From a machine, a statement makes these requests and comes to an end with a result.  A loop may
take any number of rounds for that. -/
def Stmt.Makes (s : Stmt) (m : Machine) (requests : List Request)
    (result : Except Stop Completion × Machine) : Prop :=
  ∃ rounds, (s.planned rounds).plan.Makes m requests result

theorem Expr.endsIn_iff {e : Expr} (h : ∃ p, e.course = .plan p)
    {result : Except Stop Value × Machine} :
    e.EndsIn m result ↔ ∃ requests, e.Makes m requests result := by
  obtain ⟨p, hp⟩ := h
  have hrun : Yields (fun levels => m.perform (evaluate (levels + 1) e)) result ↔
      ∃ requests, p.plan.Makes m requests result := by
    simp only [evaluate, ← p.run_plan]
    exact Plan.yields_run_iff
  rw [EndsIn, ← yields_succ_iff, hrun]
  constructor
  · rintro ⟨requests, hmakes⟩
    exact ⟨requests, p, hp, hmakes⟩
  · rintro ⟨requests, p', hp', hmakes⟩
    rw [hp] at hp'
    cases hp'
    exact ⟨requests, hmakes⟩

/-- The rounds that a loop takes are among those that its levels allow for. -/
theorem Stmt.endsIn_iff {s : Stmt} {result : Except Stop Completion × Machine} :
    s.EndsIn m result ↔ ∃ requests, s.Makes m requests result := by
  rw [EndsIn, ← yields_succ_iff]
  constructor
  · rintro ⟨hend, levels, hlevels⟩
    have hrun : m.perform ((s.planned levels).plan.run (evaluate levels) (execute levels)) =
        result := by
      rw [(s.planned levels).run_plan]
      exact hlevels levels (Nat.le_refl _)
    have hyields := yields_of_perform_eq (s.planned levels).plan.steady_run hrun hend
    obtain ⟨requests, hmakes⟩ := Plan.yields_run_iff.mp hyields
    exact ⟨requests, levels, hmakes⟩
  · rintro ⟨requests, rounds, hmakes⟩
    obtain ⟨hend, levels, hlevels⟩ := Plan.yields_run_iff.mpr ⟨requests, hmakes⟩
    refine ⟨hend, max levels rounds, fun more hmore => ?_⟩
    have hrun : m.perform ((s.planned rounds).plan.run (evaluate more) (execute more)) = result :=
      hlevels more (by omega)
    rw [(s.planned rounds).run_plan] at hrun
    have hrounds := below_rounds (evaluate more) (execute more) (by omega : rounds ≤ more) s
    rw [← hrun] at hend ⊢
    exact hrounds.perform_eq hend

end Treewalk
