import Treewalk.Proofs.Levels

/-!
# Runs that come to the same ends

A run comes to an end with a result if some number of levels is enough for it.  Two runs come to the
same ends if they have the same results: both have the same outcome and lead to the same machine, or
neither of them comes to an end.  They need not go down by the same number of levels.

So two ways to write something are compared by what they do, and not by how deep their trees are.

## Main definitions

* `Yields` — a run comes to an end with a result.
* `SameEnds` — two runs have the same results.
* `Action.Steady`, `Action.Reaches` — more levels change nothing, and are found on the other side.
* `yields_bind_iff` — the results of two actions in a row, without levels.
* `Expr.EndsIn`, `Stmt.EndsIn` — an expression or a statement comes to an end with a result.
-/

namespace Treewalk

variable {α β : Type}

/-- A run comes to an end with a result: from some number of levels on it is this one, which is not
that the levels were used up. -/
def Yields (run : Nat → Except Stop α × Machine) (result : Except Stop α × Machine) : Prop :=
  result.1 ≠ .error .exhausted ∧ ∃ levels, ∀ more, levels ≤ more → run more = result

/-- Two runs come to the same ends. -/
def SameEnds (run run' : Nat → Except Stop α × Machine) : Prop :=
  ∀ result, Yields run result ↔ Yields run' result

namespace Action

variable {act act' : Nat → Action α}

/-- More levels only make a difference where they were used up. -/
def Steady (act : Nat → Action α) : Prop :=
  ∀ levels more, levels ≤ more → (act levels).Below (act more)

/-- What the first action does with any number of levels, the second one does with some number. -/
def Reaches (act act' : Nat → Action α) : Prop :=
  ∀ levels, ∃ levels', (act levels).Below (act' levels')

theorem Reaches.yields (h : Reaches act act') (hsteady : Steady act') {m : Machine}
    {result : Except Stop α × Machine} (hyields : Yields (fun levels => m.perform (act levels)) result) :
    Yields (fun levels => m.perform (act' levels)) result := by
  obtain ⟨hend, levels, hlevels⟩ := hyields
  have hrun : m.perform (act levels) = result := hlevels levels (Nat.le_refl _)
  obtain ⟨levels', hbelow⟩ := h levels
  refine ⟨hend, levels', ?_⟩
  intro more hmore
  have hmost : (act levels).Below (act' more) := hbelow.trans (hsteady levels' more hmore)
  rw [← hrun] at hend ⊢
  exact hmost.perform_eq hend

/-- Two actions that reach one another come to the same ends, whatever machine they begin with. -/
theorem sameEnds_of_reaches (hact : Steady act) (hact' : Steady act') (h : Reaches act act')
    (h' : Reaches act' act) (m : Machine) :
    SameEnds (fun levels => m.perform (act levels)) fun levels => m.perform (act' levels) := by
  intro result
  constructor
  · intro hyields
    exact h.yields hact' hyields
  · intro hyields
    exact h'.yields hact hyields

end Action

/-! ## Results of actions -/

section Yields

variable {act : Nat → Action α} {next : Nat → α → Action β} {m m' : Machine}
  {result : Except Stop α × Machine} {result' : Except Stop β × Machine}

/-- A run that ends with one number of levels has come to its end. -/
theorem yields_of_perform_eq (hsteady : Action.Steady act) {levels : Nat}
    (h : m.perform (act levels) = result) (hend : result.1 ≠ .error .exhausted) :
    Yields (fun levels => m.perform (act levels)) result := by
  subst h
  exact ⟨hend, levels, fun more hmore => (hsteady levels more hmore).perform_eq hend⟩

/-- A run has one result. -/
theorem Yields.unique {run : Nat → Except Stop α × Machine} {result result' : Except Stop α × Machine}
    (h : Yields run result) (h' : Yields run result') : result = result' := by
  obtain ⟨-, levels, hlevels⟩ := h
  obtain ⟨-, levels', hlevels'⟩ := h'
  rw [← hlevels (max levels levels') (Nat.le_max_left _ _),
    hlevels' (max levels levels') (Nat.le_max_right _ _)]

/-- A run that needs no levels. -/
theorem yields_const_iff {ending : Except Stop α × Machine} (h : ending.1 ≠ .error .exhausted) :
    Yields (fun _ => ending) result ↔ result = ending := by
  constructor
  · rintro ⟨-, levels, hlevels⟩
    exact (hlevels levels (Nat.le_refl _)).symm
  · rintro rfl
    exact ⟨h, 0, fun _ _ => rfl⟩

theorem yields_pure_iff (a : α) :
    Yields (fun _ => m.perform (pure a)) result ↔ result = (.ok a, m) :=
  yields_const_iff nofun

/-- It makes no difference if one level is taken at the start. -/
theorem yields_succ_iff {run : Nat → Except Stop α × Machine} :
    Yields (fun levels => run (levels + 1)) result ↔ Yields run result := by
  constructor
  · rintro ⟨hend, levels, hlevels⟩
    refine ⟨hend, levels + 1, fun more hmore => ?_⟩
    obtain ⟨rest, rfl⟩ : ∃ rest, more = rest + 1 := ⟨more - 1, by omega⟩
    exact hlevels rest (Nat.le_of_succ_le_succ hmore)
  · rintro ⟨hend, levels, hlevels⟩
    exact ⟨hend, levels, fun more hmore => hlevels (more + 1) (Nat.le_succ_of_le hmore)⟩

/-- A run that is the same from some number of levels on has the same results. -/
theorem Yields.of_eq {run run' : Nat → Except Stop α × Machine} {least : Nat}
    (h : ∀ levels, run (levels + least) = run' (levels + least)) (hyields : Yields run result) :
    Yields run' result := by
  obtain ⟨hend, levels, hlevels⟩ := hyields
  refine ⟨hend, levels + least, fun more hmore => ?_⟩
  obtain ⟨rest, rfl⟩ : ∃ rest, more = rest + least := ⟨more - least, by omega⟩
  rw [← h rest]
  exact hlevels (rest + least) (by omega)

theorem sameEnds_of_eq {run run' : Nat → Except Stop α × Machine} (least : Nat)
    (h : ∀ levels, run (levels + least) = run' (levels + least)) : SameEnds run run' :=
  fun _ => ⟨.of_eq h, .of_eq fun levels => (h levels).symm⟩

/-- What stops the first of two actions stops both. -/
theorem Yields.bind_error {s : Stop}
    (h : Yields (fun levels => m.perform (act levels)) (.error s, m')) :
    Yields (fun levels => m.perform (act levels >>= next levels)) (.error s, m') := by
  obtain ⟨hend, levels, hlevels⟩ := h
  refine ⟨fun heq => hend (by cases heq; rfl), levels, fun more hmore => ?_⟩
  have hact : m.perform (act more) = (.error s, m') := hlevels more hmore
  simp only [Machine.perform_bind, hact]

/-- The second of two actions goes on from where the first one ended. -/
theorem Yields.bind_ok {a : α} (h : Yields (fun levels => m.perform (act levels)) (.ok a, m'))
    (hnext : Yields (fun levels => m'.perform (next levels a)) result') :
    Yields (fun levels => m.perform (act levels >>= next levels)) result' := by
  obtain ⟨-, levels, hlevels⟩ := h
  obtain ⟨hend, rest, hrest⟩ := hnext
  refine ⟨hend, max levels rest, fun more hmore => ?_⟩
  have hact : m.perform (act more) = (.ok a, m') := hlevels more (by omega)
  simp only [Machine.perform_bind, hact]
  exact hrest more (by omega)

/-- A run of two actions stops in the first one, or goes on with the second one from where the first
one ended. -/
theorem yields_bind_iff (hsteady : Action.Steady act) :
    Yields (fun levels => m.perform (act levels >>= next levels)) result' ↔
      (∃ s m', Yields (fun levels => m.perform (act levels)) (.error s, m') ∧
        result' = (.error s, m')) ∨
      ∃ a m', Yields (fun levels => m.perform (act levels)) (.ok a, m') ∧
        Yields (fun levels => m'.perform (next levels a)) result' := by
  constructor
  · rintro ⟨hend, levels, hlevels⟩
    simp only [Machine.perform_bind] at hlevels
    cases hrun : m.perform (act levels) with
    | mk outcome m' =>
      have hlast := hlevels levels (Nat.le_refl _)
      rw [hrun] at hlast
      cases outcome with
      | error s =>
        subst hlast
        refine .inl ⟨s, m', yields_of_perform_eq hsteady hrun fun heq => hend ?_, rfl⟩
        cases heq
        rfl
      | ok a =>
        have hact := yields_of_perform_eq hsteady hrun nofun
        refine .inr ⟨a, m', hact, hend, levels, fun more hmore => ?_⟩
        have hmost := (hsteady levels more hmore).perform_eq (m := m) (by rw [hrun]; nofun)
        have hlast := hlevels more hmore
        rwa [hmost, hrun] at hlast
  · rintro (⟨s, m', hact, rfl⟩ | ⟨a, m', hact, hnext⟩)
    · exact hact.bind_error
    · exact hact.bind_ok hnext

end Yields

/-! ## Evaluation -/

theorem steady_evaluate (e : Expr) : Action.Steady fun levels => evaluate levels e :=
  fun _ _ h => below_evaluate h e

theorem steady_execute (s : Stmt) : Action.Steady fun levels => execute levels s :=
  fun _ _ h => below_execute h s

theorem steady_executeBody (body : List Stmt) :
    Action.Steady fun levels => executeBody levels body :=
  fun _ _ h => below_executeBody h body

/-- From a machine, an expression comes to an end with a result. -/
def Expr.EndsIn (e : Expr) (m : Machine) (result : Except Stop Value × Machine) : Prop :=
  Yields (fun levels => m.perform (evaluate levels e)) result

/-- From a machine, a statement comes to an end with a result. -/
def Stmt.EndsIn (s : Stmt) (m : Machine) (result : Except Stop Completion × Machine) : Prop :=
  Yields (fun levels => m.perform (execute levels s)) result

end Treewalk
