/-!
# Finite maps in order of insertion

A list of named entries.  Inserting under a name that is there already replaces the entry in its
place, and any other insertion appends one.

## Main definitions

* `Entries` — named entries in order.
* `Entries.get?`, `Entries.insert`, `Entries.keys`, `Entries.has`.
-/

namespace Treewalk

/-- Named entries in order of insertion. -/
abbrev Entries (α : Type) := List (String × α)

namespace Entries

variable {α : Type}

/-- The entry under a name. -/
def get? (name : String) : Entries α → Option α
  | [] => none
  | (k, x) :: es => if k = name then some x else get? name es

/-- Replace the entry under a name, or append one. -/
def insert (name : String) (x : α) : Entries α → Entries α
  | [] => [(name, x)]
  | (k, y) :: es => if k = name then (k, x) :: es else (k, y) :: insert name x es

/-- The names in order. -/
def keys (es : Entries α) : List String := es.map Prod.fst

/-- Whether there is an entry under a name. -/
def has (name : String) (es : Entries α) : Bool := (get? name es).isSome

/-- Insert one entry after the other, starting from none. -/
def ofPairs (pairs : List (String × α)) : Entries α :=
  pairs.foldl (fun es (k, x) => insert k x es) []

theorem get?_insert_self (name : String) (x : α) (es : Entries α) :
    get? name (insert name x es) = some x := by
  induction es with
  | nil => simp [insert, get?]
  | cons e es ih =>
    obtain ⟨k, y⟩ := e
    by_cases h : k = name <;> simp [insert, get?, h, ih]

theorem get?_insert_of_ne {name other : String} (h : other ≠ name) (x : α) (es : Entries α) :
    get? other (insert name x es) = get? other es := by
  induction es with
  | nil => simp [insert, get?, Ne.symm h]
  | cons e es ih =>
    obtain ⟨k, y⟩ := e
    by_cases hk : k = name
    · subst hk
      simp [insert, get?, Ne.symm h]
    · by_cases ho : k = other
      · subst ho
        simp [insert, get?, hk]
      · simp [insert, get?, hk, ho, ih]

theorem get?_insert (name other : String) (x : α) (es : Entries α) :
    get? other (insert name x es) = if other = name then some x else get? other es := by
  by_cases h : other = name
  · rw [if_pos h, h, get?_insert_self]
  · rw [if_neg h, get?_insert_of_ne h]

/-- What holds of all entries and of a new one holds with the new one among them. -/
theorem forall_insert {P : String → α → Prop} {es : Entries α} {name : String} {x : α}
    (hx : P name x) (h : ∀ other y, get? other es = some y → P other y) :
    ∀ other y, get? other (insert name x es) = some y → P other y := by
  intro other y hy
  rw [get?_insert] at hy
  split at hy
  · next heq =>
    rw [← Option.some.inj hy, heq]
    exact hx
  · exact h other y hy

end Entries

end Treewalk
