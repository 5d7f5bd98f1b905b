import Mathlib.Logic.Relation
import Treewalk.Value.Basic

/-!
# Texts of nested arrays

The text of an array is made of the texts of its items with commas between them.  An array among
the items has such a text too, so that its commas cannot be told from those of the array around it:
it may as well make way for its items.  Only an array without items may not, which has a place
between commas as any other item has.

So nothing but the innermost items matters, and their order.  All of an array can be opened up,
until there are only such items in it.

## Main definitions

* `Value.itemText` — the text of an item.
* `Value.Spliced` — an array in an array makes way for its items, at any depth.
* `Value.leaves` — the innermost items.
-/

namespace Treewalk

/-! ## Texts with a separator -/

section Separated

variable {separator : String} {inner : List String}

/-- Texts that are separated already can be separated further. -/
theorem intercalate_cons_intercalate (h : inner ≠ []) (after : List String) :
    separator.intercalate (separator.intercalate inner :: after) =
      separator.intercalate (inner ++ after) := by
  cases after with
  | nil => rw [String.intercalate_singleton, List.append_nil]
  | cons t after =>
    have hafter : t :: after ≠ [] := List.cons_ne_nil t after
    rw [String.intercalate_cons_of_ne_nil hafter, String.intercalate_append_of_ne_nil h hafter]

theorem intercalate_append_intercalate (before : List String) (h : inner ≠ [])
    (after : List String) :
    separator.intercalate (before ++ separator.intercalate inner :: after) =
      separator.intercalate (before ++ inner ++ after) := by
  induction before with
  | nil => exact intercalate_cons_intercalate h after
  | cons t before ih =>
    have hleft : before ++ separator.intercalate inner :: after ≠ [] := by simp
    have hright : before ++ inner ++ after ≠ [] := by simp [h]
    rw [List.cons_append, List.cons_append, List.cons_append,
      String.intercalate_cons_of_ne_nil hleft, String.intercalate_cons_of_ne_nil hright, ih]

/-- An empty text among others adds a separator. -/
theorem length_intercalate_append_empty (separator : String) {before after : List String}
    (h : before ++ after ≠ []) :
    (separator.intercalate (before ++ "" :: after)).length =
      (separator.intercalate (before ++ after)).length + separator.length := by
  induction before with
  | nil =>
    have hafter : after ≠ [] := h
    rw [List.nil_append, List.nil_append, String.intercalate_cons_of_ne_nil hafter]
    simp only [String.length_append, String.length_empty]
    omega
  | cons t before ih =>
    rw [List.cons_append, List.cons_append, String.intercalate_cons_of_ne_nil (by simp)]
    by_cases hrest : before ++ after = []
    · obtain ⟨rfl, rfl⟩ := List.append_eq_nil_iff.mp hrest
      simp
    · rw [String.intercalate_cons_of_ne_nil hrest]
      simp only [String.length_append, ih hrest]
      omega

end Separated

namespace Value

/-! ## Items -/

/-- The text of an item of an array: none for an absent item and null. -/
def itemText (v : Value) : String := if v.isNullish then "" else v.display

theorem itemText_array (items : List Value) : (array items).itemText = (array items).display := rfl

theorem itemText_empty : (array []).itemText = "" := rfl

theorem displayItems_eq_map (items : List Value) : displayItems items = items.map itemText := by
  induction items with
  | nil => rw [displayItems, List.map_nil]
  | cons v items ih => rw [displayItems, ih, List.map_cons, itemText]

theorem display_array (items : List Value) :
    (array items).display = ",".intercalate (items.map itemText) := by
  rw [display, displayItems_eq_map]

/-- The text of an array depends on the texts of its items only. -/
theorem display_array_congr {items items' : List Value}
    (h : items.map itemText = items'.map itemText) :
    (array items).display = (array items').display := by
  rw [display_array, display_array, h]

/-! ## Items of items -/

theorem display_splice (before : List Value) {inner : List Value} (h : inner ≠ [])
    (after : List Value) :
    (array (before ++ inner ++ after)).display =
      (array (before ++ array inner :: after)).display := by
  have hinner : inner.map itemText ≠ [] := mt List.map_eq_nil_iff.mp h
  simp only [display_array, List.map_append, List.map_cons, itemText_array]
  exact (intercalate_append_intercalate _ hinner _).symm

/-- An empty array that is not alone is missed: there is a comma less without it. -/
theorem display_drop_empty_iff (before after : List Value) :
    (array (before ++ after)).display = (array (before ++ array [] :: after)).display ↔
      before = [] ∧ after = [] := by
  rw [← List.append_eq_nil_iff, display_array, display_array, List.map_append, List.map_append,
    List.map_cons, itemText_empty]
  constructor
  · intro htexts
    by_cases hitems : before.map itemText ++ after.map itemText = []
    · simpa using hitems
    · -- Texts of different lengths are told apart, whatever commas there are in those of the items.
      have hlength := length_intercalate_append_empty "," hitems
      have hcomma : ",".length = 1 := rfl
      rw [← htexts] at hlength
      omega
  · intro hitems
    obtain ⟨rfl, rfl⟩ := List.append_eq_nil_iff.mp hitems
    rfl

/-- An array among the items can make way for its items, unless it has none and there are others
beside it. -/
theorem display_splice_iff (before inner after : List Value) :
    (array (before ++ inner ++ after)).display =
        (array (before ++ array inner :: after)).display ↔
      inner ≠ [] ∨ before = [] ∧ after = [] := by
  by_cases h : inner = []
  · subst h
    rw [List.append_nil, display_drop_empty_iff]
    simp
  · exact iff_of_true (display_splice before h after) (.inl h)

/-- In an array, at any depth, an array that has items makes way for its items. -/
inductive Spliced : Value → Value → Prop where
  | here (before : List Value) {inner : List Value} (after : List Value) : inner ≠ [] →
    Spliced (array (before ++ array inner :: after)) (array (before ++ inner ++ after))
  | inside (before : List Value) {v v' : Value} (after : List Value) : Spliced v v' →
    Spliced (array (before ++ v :: after)) (array (before ++ v' :: after))

/-- What is opened up is an array, so that its text is the one that it has as an item. -/
theorem Spliced.itemText_eq {v v' : Value} (h : Spliced v v') :
    v.itemText = v.display ∧ v'.itemText = v'.display := by
  cases h <;> exact ⟨rfl, rfl⟩

/-- Opening up an array inside does not change the text: by induction on its depth. -/
theorem Spliced.display_eq {v v' : Value} (h : Spliced v v') : v'.display = v.display := by
  induction h with
  | here before after hinner => exact display_splice before hinner after
  | inside before after hv ih =>
    refine display_array_congr ?_
    simp only [List.map_append, List.map_cons, hv.itemText_eq.1, hv.itemText_eq.2, ih]

theorem display_eq_of_spliced {v v' : Value} (h : Relation.ReflTransGen Spliced v v') :
    v'.display = v.display := by
  induction h with
  | refl => rfl
  | tail _ hlast ih => exact hlast.display_eq.trans ih

/-! ## Innermost items -/

mutual

/-- The innermost items of a value, in order.  An array without items is one of them. -/
def leaves : Value → List Value
  | .array items => if items.isEmpty then [.array []] else leavesOfItems items
  | v => [v]

/-- The innermost items of a list of items. -/
def leavesOfItems : List Value → List Value
  | [] => []
  | v :: vs => v.leaves ++ leavesOfItems vs

end

theorem leaves_empty : (array []).leaves = [array []] := rfl

theorem leaves_array {items : List Value} (h : items ≠ []) :
    (array items).leaves = leavesOfItems items := by
  rw [leaves, if_neg (by simpa using h)]

mutual

-- The items before and after are carried along, because what is opened up inside stays among them.
/-- An item makes way for the innermost items in it. -/
theorem spliced_leaves (before : List Value) (v : Value) (after : List Value) :
    Relation.ReflTransGen Spliced (array (before ++ v :: after))
      (array (before ++ v.leaves ++ after)) := by
  cases v with
  | array items =>
    by_cases h : items = []
    · subst h
      rw [leaves_empty, List.append_assoc, List.singleton_append]
    · rw [leaves_array h]
      exact .head (.here before after h) (spliced_leavesOfItems before items after)
  | _ => simp [leaves, Relation.ReflTransGen.refl]

theorem spliced_leavesOfItems (before items after : List Value) :
    Relation.ReflTransGen Spliced (array (before ++ items ++ after))
      (array (before ++ leavesOfItems items ++ after)) := by
  cases items with
  | nil => exact .refl
  | cons v vs =>
    have hfirst := spliced_leaves before v (vs ++ after)
    have hrest := spliced_leavesOfItems (before ++ v.leaves) vs after
    simp only [leavesOfItems, List.append_assoc, List.cons_append] at hfirst hrest ⊢
    exact hfirst.trans hrest

end

mutual

/-- No innermost item is an array with items. -/
theorem eq_nil_of_mem_leaves (v : Value) {items : List Value} (h : array items ∈ v.leaves) :
    items = [] := by
  cases v with
  | array inner =>
    by_cases hinner : inner = []
    · subst hinner
      rw [leaves_empty, List.mem_singleton] at h
      exact array.inj h
    · rw [leaves_array hinner] at h
      exact eq_nil_of_mem_leavesOfItems inner h
  | _ => simp [leaves] at h

theorem eq_nil_of_mem_leavesOfItems (vs : List Value) {items : List Value}
    (h : array items ∈ leavesOfItems vs) : items = [] := by
  cases vs with
  | nil => cases h
  | cons v vs =>
    rw [leavesOfItems, List.mem_append] at h
    rcases h with h | h
    · exact eq_nil_of_mem_leaves v h
    · exact eq_nil_of_mem_leavesOfItems vs h

end

/-- The text of an array, told without the arrays in it. -/
theorem display_array_leaves (items : List Value) :
    (array items).display = ",".intercalate ((array items).leaves.map itemText) := by
  by_cases h : items = []
  · subst h
    rfl
  · have hopened := spliced_leavesOfItems [] items []
    rw [List.nil_append, List.nil_append, List.append_nil, List.append_nil] at hopened
    rw [← display_eq_of_spliced hopened, display_array, leaves_array h]

end Value

end Treewalk
