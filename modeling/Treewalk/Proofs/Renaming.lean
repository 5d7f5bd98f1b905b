import Treewalk.Proofs.Relabeling

/-!
# Names of variables have no meaning

A machine compares the names of variables and does nothing else with them.  So other names can be
put in their place, as long as different variables stay different: in a tree, in the functions that
are already there and in the bindings of all scopes.  Keys, the names of functions and callees keep
their text, even where a variable has the same name.

## Main definitions

* `Relabeling.ofRename` — the relabeling that gives other names to variables.
* `same_after_rename` — what the names of variables are worth.
-/

namespace Treewalk

namespace Relabeling

/-- Give other names to variables.  All other labels stay as they are. -/
def ofRename (f : String → String) (hf : Function.Injective f) : Relabeling where
  location := id
  raw := id
  kind := id
  shorthand := id
  rename := f
  injective := hf

variable {f : String → String} (hf : Function.Injective f) {α : Type}

/-- No fault tells the name of a variable. -/
theorem stop_ofRename (s : Stop) : (ofRename f hf).stop s = s := by
  cases s with
  | halted | exhausted => rfl
  | failed fault => cases fault <;> rfl

theorem mapError_ofRename (outcome : Except Stop α) :
    outcome.mapError (ofRename f hf).stop = outcome := by
  cases outcome with
  | ok a => rfl
  | error s => exact congrArg Except.error (stop_ofRename hf s)

end Relabeling

/-- Under other names for its variables, a machine does with the renamed tree what it does with the
tree.  It comes to an end whenever it came to an end, with the same outcome, and has the renamed
variables and functions then. -/
theorem same_after_rename {f : String → String} (hf : Function.Injective f) {α : Type}
    (op : Operation α) (m : Machine) :
    let R := Relabeling.ofRename f hf
    SameRuns R.machine (fun levels => op.perform levels m)
      fun levels => (R.operation op).perform levels (R.machine m) := by
  intro R
  have hrun : ∀ levels, (R.operation op).perform levels (R.machine m) =
      ((op.perform levels m).1, R.machine (op.perform levels m).2) := by
    intro levels
    rw [R.perform_eq, Relabeling.mapError_ofRename]
  exact .of_forall (fun levels => Prod.ext_iff.mp (hrun levels)) fun _ hend => op.finishes hend

/-- A machine where one name is a variable and a function, which gives an object with an entry of
that name.  The name of the variable is left open. -/
def machineWithNamesake (name : String) : Machine :=
  let entry : Property :=
    ⟨.init, .identifier { name := "x" }, .identifier { name }, false, true, false⟩
  ((Machine.new {}).setVariable name (.text "a")).setFunction "x"
    { name := "x", params := [], body := [.ret (some (.object [entry] {})) {}], home := 0 }

/-- The assignment `x = x().x`, where the name of the variable is left open. -/
def assignNamesake (name : String) : Operation Value :=
  let callee : Expr := .identifier { name := "x" }
  .evaluate (.assignment (.identifier { name })
    (.member (.call callee [] {}) callee false false {}) {})

/-- Only the variable is renamed, and the assignment has the same value. -/
theorem namesake_renamed :
    ∃ hf : Function.Injective fun name : String => "my" ++ name,
      let R := Relabeling.ofRename _ hf
      let op := assignNamesake "x"
      let m := machineWithNamesake "x"
      (R.operation op = assignNamesake "myx" ∧ R.machine m = machineWithNamesake "myx") ∧
        SameRuns R.machine (fun levels => op.perform levels m)
          (fun levels => (R.operation op).perform levels (R.machine m)) ∧
        (op.perform 6 m).1 = .ok (.text "a") :=
  have hf : Function.Injective fun name : String => "my" ++ name :=
    fun _ _ h => (String.append_right_inj "my").mp h
  ⟨hf, ⟨rfl, rfl⟩, same_after_rename hf _ _, rfl⟩

end Treewalk
