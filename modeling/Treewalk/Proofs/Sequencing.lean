import Treewalk.Proofs.Equivalence
import Treewalk.Proofs.HaltFlag

/-!
# Statements in sequence

To execute the parts of a list of statements one after the other is to execute the list, as long as
no part returns or is stopped.  The value is that of the last part that is not empty.

A block has no scope of its own, so that braces around a part of a list make no difference, but for
one case: an empty block at the end replaces the value of what comes before it.  A new pass over the
rest of a program makes no difference either, since the halt that it forgets about has not happened.

## Main definitions

* `Action.andThen` — to go on after statements that did not return.
* `Machine.goOn` — the same for a run, with an empty rest that leaves the value as it is.
-/

namespace Treewalk

/-! ## Going on -/

/-- Go on after statements that did not return. -/
def Action.andThen (act : Action Completion) (next : Value → Action Completion) :
    Action Completion := do
  match ← act with
  | .normal v => next v
  | .returned v => return .returned v

namespace Action

variable {act act' : Action Completion} {next next' : Value → Action Completion}

theorem andThen_assoc (act : Action Completion) (next last : Value → Action Completion) :
    (act.andThen next).andThen last = act.andThen fun v => (next v).andThen last := by
  simp only [andThen, bind_assoc]
  congr 1
  funext c
  cases c <;> rfl

theorem Below.andThen (h : act.Below act') (hnext : ∀ v, (next v).Below (next' v)) :
    (act.andThen next).Below (act'.andThen next') := by
  refine h.bind ?_
  intro c
  cases c with
  | normal v => exact hnext v
  | returned v => exact .refl _

end Action

section Lists

variable (exec : Stmt → Action Completion)

theorem executeAll_cons (last : Value) (s : Stmt) (ss : List Stmt) :
    executeAll exec last (s :: ss) = (exec s).andThen fun v => executeAll exec v ss := rfl

/-- The second part of a list goes on from the value of the first part. -/
theorem executeAll_append (last : Value) (xs ys : List Stmt) :
    executeAll exec last (xs ++ ys) =
      (executeAll exec last xs).andThen fun v => executeAll exec v ys := by
  induction xs generalizing last with
  | nil => rfl
  | cons s xs ih =>
    simp only [List.cons_append, executeAll_cons, Action.andThen_assoc, ih]

/-- The value before a list is lost, unless the list is empty. -/
theorem executeAll_of_ne_nil {ys : List Stmt} (h : ys ≠ []) (last : Value) :
    executeAll exec last ys = executeBlock exec ys := by
  cases ys with
  | nil => exact absurd rfl h
  | cons s ys => rfl

/-- A part of a list may begin without a value, unless the value would be that of the list. -/
theorem executeBlock_nested {xs ys zs : List Stmt} (h : ys ≠ [] ∨ zs ≠ [] ∨ xs = []) :
    executeBlock exec (xs ++ ys ++ zs) =
      (executeBlock exec xs).andThen fun _ =>
        (executeBlock exec ys).andThen fun v => executeAll exec v zs := by
  rw [executeBlock, executeAll_append, executeAll_append, Action.andThen_assoc]
  by_cases hys : ys = []
  · subst hys
    rcases h with h | h | h
    · exact absurd rfl h
    · simp only [executeAll_of_ne_nil exec h]
      rfl
    · subst h
      rfl
  · simp only [executeAll_of_ne_nil exec hys]
    rfl

end Lists

/-! ## Blocks -/

section Blocks

variable {levels more : Nat}

theorem below_executeAll (h : levels ≤ more) (last : Value) (body : List Stmt) :
    (executeAll (execute levels) last body).Below (executeAll (execute more) last body) :=
  below_planned (below_levels h).1 (below_levels h).2
    (Planned.executeAll (P := fun _ => True) body (fun _ _ => trivial) last)

/-- A block takes one level. -/
theorem execute_block (levels : Nat) (body : List Stmt) (location : Location) :
    execute (levels + 1) (.block body location) = executeBody levels body := rfl

theorem below_block (levels : Nat) (body : List Stmt) (location : Location) :
    (execute levels (.block body location)).Below (executeBody levels body) := by
  cases levels with
  | zero => exact .throw_exhausted _
  | succ levels =>
    rw [execute_block]
    exact below_executeBody (Nat.le_succ levels) body

/-- Braces around a part of a list make no difference. -/
theorem sameEnds_nested {xs ys zs : List Stmt} (h : ys ≠ [] ∨ zs ≠ [] ∨ xs = [])
    (location : Location) (m : Machine) :
    SameEnds (fun levels => m.perform (executeBody levels (xs ++ .block ys location :: zs)))
      fun levels => m.perform (executeBody levels (xs ++ ys ++ zs)) := by
  have hflat : ∀ levels, executeBody levels (xs ++ ys ++ zs) =
      (executeBody levels xs).andThen fun _ =>
        (executeBody levels ys).andThen fun v => executeAll (execute levels) v zs := by
    intro levels
    exact executeBlock_nested (execute levels) h
  have hnested : ∀ levels, executeBody levels (xs ++ .block ys location :: zs) =
      (executeBody levels xs).andThen fun _ =>
        (execute levels (.block ys location)).andThen fun v => executeAll (execute levels) v zs := by
    intro levels
    simp only [executeBody, executeBlock, executeAll_append, executeAll_cons]
  refine Action.sameEnds_of_reaches (steady_executeBody _) (steady_executeBody _) ?_ ?_ m
  · intro levels
    refine ⟨levels, ?_⟩
    simp only [hnested, hflat]
    exact .andThen (.refl _) fun _ => .andThen (below_block levels ys location) fun _ => .refl _
  · -- The block is left with as many levels as the list around it had.
    intro levels
    have hmore : levels ≤ levels + 1 := Nat.le_succ levels
    refine ⟨levels + 1, ?_⟩
    simp only [hnested, hflat, execute_block]
    exact .andThen (below_executeBody hmore xs) fun _ =>
      .andThen (.refl _) fun v => below_executeAll hmore v zs

end Blocks

/-! ## Runs -/

/-- Go on with other statements after a run that did not return and was not stopped.  If there are
none the value stays. -/
def Machine.goOn (levels : Nat) (ys : List Stmt) :
    Except Stop Completion × Machine → Except Stop Completion × Machine
  | (.ok (.normal v), m) =>
    if ys = [] then (.ok (.normal v), m) else m.perform (executeBody levels ys)
  | ended => ended

theorem Machine.perform_andThen (act : Action Completion) (next : Value → Action Completion)
    (m : Machine) :
    m.perform (act.andThen next) =
      match m.perform act with
      | (.ok (.normal v), m') => m'.perform (next v)
      | ended => ended := by
  rw [Action.andThen, Machine.perform_bind]
  cases m.perform act with
  | mk outcome m' =>
    cases outcome with
    | error s => rfl
    | ok c => cases c <;> rfl

theorem perform_append (levels : Nat) (xs ys : List Stmt) (m : Machine) :
    m.perform (executeBody levels (xs ++ ys)) =
      Machine.goOn levels ys (m.perform (executeBody levels xs)) := by
  have happend : executeBody levels (xs ++ ys) =
      (executeBody levels xs).andThen fun v => executeAll (execute levels) v ys :=
    executeAll_append (execute levels) .absent xs ys
  rw [happend, Machine.perform_andThen]
  cases m.perform (executeBody levels xs) with
  | mk outcome m' =>
    cases outcome with
    | error s => rfl
    | ok c =>
      cases c with
      | returned v => rfl
      | normal v =>
        by_cases hys : ys = []
        · subst hys
          simp only [Machine.goOn, if_true]
          rfl
        · simp only [Machine.goOn, if_neg hys, executeAll_of_ne_nil _ hys]
          rfl

/-- A pass that was not halted leaves no halt for the next one to forget. -/
theorem not_halted_of_run {levels : Nat} {p : Program} {c : Completion} {m m' : Machine}
    (h : m.run levels p = (.ok c, m')) : m'.halted = false := by
  have hflag := ((recorded_executeBody levels p.body).haltRecorded (m.withHalted false)).halted
  have hrun : (m.withHalted false).perform (executeBody levels p.body) = (.ok c, m') := h
  rw [hrun] at hflag
  simpa [Machine.withHalted] using hflag

/-- Two passes over the parts of a program are one pass over the program. -/
theorem run_append {levels : Nat} {xs ys : List Stmt} {v : Value} {m m' : Machine} (hys : ys ≠ [])
    (h : m.run levels ⟨xs⟩ = (.ok (.normal v), m')) :
    m'.run levels ⟨ys⟩ = m.run levels ⟨xs ++ ys⟩ := by
  have hflag := not_halted_of_run h
  have hsame : { m' with halted := false } = m' := by rw [← hflag]
  rw [Machine.run] at h
  rw [Machine.run, Machine.run, hsame, perform_append, h, Machine.goOn, if_neg hys]

/-- For any three lists of statements.  To execute the first two of them together is to execute the
first one and, if that does not return and is not stopped, to go on with the second one.  Braces
around the second one, between the two others, make no difference unless they stand at the end with
nothing inside.  A second pass that begins where a pass over the first one came to its normal end
does what a pass over both would have done. -/
theorem statements_in_sequence (xs ys zs : List Stmt) :
    (∀ levels (m : Machine), m.perform (executeBody levels (xs ++ ys)) =
        Machine.goOn levels ys (m.perform (executeBody levels xs))) ∧
      (ys ≠ [] ∨ zs ≠ [] ∨ xs = [] → ∀ location (m : Machine),
        SameEnds (fun levels => m.perform (executeBody levels (xs ++ .block ys location :: zs)))
          fun levels => m.perform (executeBody levels (xs ++ ys ++ zs))) ∧
      (ys ≠ [] → ∀ levels (m m' : Machine) v, m.run levels ⟨xs⟩ = (.ok (.normal v), m') →
        m'.run levels ⟨ys⟩ = m.run levels ⟨xs ++ ys⟩) := by
  refine ⟨?_, ?_, ?_⟩
  · intro levels m
    exact perform_append levels xs ys m
  · intro h location m
    exact sameEnds_nested h location m
  · intro hys levels m m' v h
    exact run_append hys h

/-- A declaration of a variable. -/
def declaresX : List Stmt :=
  [.declaration .letKind [⟨{ name := "x" }, some (.literal { value := .bool true })⟩] {}]

/-- A statement with the value of the variable. -/
def readsX : List Stmt := [.expression (.identifier { name := "x" }) {}]

/-- The variable is read in a block, and in a pass of its own. -/
theorem declared_then_read :
    let m := Machine.new {}
    let m' := m.setVariable "x" (.bool true)
    readsX ≠ [] ∧ m.run 2 ⟨declaresX⟩ = (.ok (.normal .absent), m') ∧
      m'.run 2 ⟨readsX⟩ = (.ok (.normal (.bool true)), m') ∧
      m'.run 2 ⟨readsX⟩ = m.run 2 ⟨declaresX ++ readsX⟩ ∧
      SameEnds (fun levels => m.perform (executeBody levels (declaresX ++ [.block readsX {}])))
        fun levels => m.perform (executeBody levels (declaresX ++ readsX ++ [])) := by
  intro m m'
  have hne : readsX ≠ [] := List.cons_ne_nil _ _
  have hfirst : m.run 2 ⟨declaresX⟩ = (.ok (.normal .absent), m') := rfl
  obtain ⟨-, hblock, hpasses⟩ := statements_in_sequence declaresX readsX []
  exact ⟨hne, hfirst, rfl, hpasses hne 2 m m' .absent hfirst, hblock (.inl hne) {} m⟩

end Treewalk
