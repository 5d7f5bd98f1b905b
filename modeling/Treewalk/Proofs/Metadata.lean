import Treewalk.Proofs.Relabeling

/-!
# Metadata has no meaning

Locations, the spelling of literals, the keyword of a declaration and the mark of a shorthand entry
are kept in trees, and evaluation never looks at them but to say where a fault is.  They are erased
here, from trees and from the functions of a machine.  Two operations that are the same after that,
on two machines that are the same after that, behave alike: the decoder may fill these fields in
where a text leaves them out.

## Main definitions

* `erasure` — the relabeling that puts one label in place of all others.
* `SameErased` — runs that cannot be told apart after it.
* `same_without_metadata` — what metadata is worth.
-/

namespace Treewalk

/-- Put one label in place of all others.  Names stay as they are. -/
def erasure : Relabeling where
  location _ := {}
  raw _ := ""
  kind _ := .varKind
  shorthand _ := false
  rename := id
  injective := Function.injective_id

/-- An outcome without the location of its fault. -/
def erasedOutcome {α : Type} (outcome : Except Stop α) : Except Stop α :=
  outcome.mapError erasure.stop

theorem erasedOutcome_eq_exhausted_iff {α : Type} {outcome : Except Stop α} :
    erasedOutcome outcome = .error .exhausted ↔ outcome = .error .exhausted := by
  cases outcome with
  | ok a => exact Iff.rfl
  | error s => cases s <;> simp [erasedOutcome, Except.mapError, Relabeling.stop]

/-- With any number of levels two runs have the same outcome up to the location of a fault, and the
same machine at the end up to metadata.  One of them comes to an end if and only if the other one
does. -/
structure SameErased {α : Type} (run run' : Nat → Except Stop α × Machine) : Prop where
  outcome : ∀ levels, erasedOutcome (run levels).1 = erasedOutcome (run' levels).1
  machine : ∀ levels, erasure.machine (run levels).2 = erasure.machine (run' levels).2
  finishes : Finishes run ↔ Finishes run'

/-- Two operations that are the same without metadata, on two machines that are the same without
metadata, do the same. -/
theorem same_without_metadata {α : Type} {op op' : Operation α} {m m' : Machine}
    (hop : erasure.operation op = erasure.operation op')
    (hm : erasure.machine m = erasure.machine m') :
    SameErased (fun levels => op.perform levels m) fun levels => op'.perform levels m' := by
  have hrun : ∀ levels,
      (erasedOutcome (op.perform levels m).1, erasure.machine (op.perform levels m).2) =
        (erasedOutcome (op'.perform levels m').1, erasure.machine (op'.perform levels m').2) := by
    intro levels
    calc
      _ = (erasure.operation op).perform levels (erasure.machine m) :=
        (erasure.perform_eq op levels m).symm
      _ = (erasure.operation op').perform levels (erasure.machine m') := by rw [hop, hm]
      _ = _ := erasure.perform_eq op' levels m'
  have houtcome : ∀ levels,
      erasedOutcome (op.perform levels m).1 = erasedOutcome (op'.perform levels m').1 :=
    fun levels => congrArg Prod.fst (hrun levels)
  refine ⟨houtcome, fun levels => congrArg Prod.snd (hrun levels), ?_⟩
  rw [Operation.finishes_iff, Operation.finishes_iff]
  refine exists_congr fun levels => not_congr ?_
  rw [← erasedOutcome_eq_exhausted_iff, houtcome, erasedOutcome_eq_exhausted_iff]

/-- A machine with a function that declares a variable and calls a function that there is none of.
The keyword, the spelling of the literal, the mark of the entry and the lines are left open. -/
def labeledMachine (kind : DeclarationKind) (raw : String) (shorthand : Bool) (line : UInt64) :
    Machine :=
  let value : Expr := .literal { value := .text "a", raw }
  let entry : Property := ⟨.init, .identifier { name := "x" }, value, false, shorthand, false⟩
  (Machine.new {}).setFunction "f"
    { name := "f"
      params := []
      body := [.declaration kind [⟨{ name := "x" }, some (.object [entry] {})⟩] { line },
        .expression (.call (.identifier { name := "g" }) [] { line }) { line }]
      home := 0 }

/-- The call of the function, on some line. -/
def callOnLine (line : UInt64) : Operation Value :=
  .evaluate (.call (.identifier { name := "f" }) [] { line })

/-- Only the line of the fault tells the two calls apart. -/
theorem labeledMachine_same :
    let m := labeledMachine .letKind "'a'" true 2
    let m' := labeledMachine .constKind "\"a\"" false 8
    (erasure.operation (callOnLine 1) = erasure.operation (callOnLine 7) ∧
        erasure.machine m = erasure.machine m') ∧
      SameErased (fun levels => (callOnLine 1).perform levels m)
        (fun levels => (callOnLine 7).perform levels m') ∧
      ((callOnLine 1).perform 5 m).1 = .error (.failed (.undefinedFunction "g" { line := 2 })) ∧
      ((callOnLine 7).perform 5 m').1 = .error (.failed (.undefinedFunction "g" { line := 8 })) :=
  ⟨⟨rfl, rfl⟩, same_without_metadata rfl rfl, rfl, rfl⟩

end Treewalk
