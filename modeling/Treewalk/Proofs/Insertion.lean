import Mathlib.Data.List.Induction
import Treewalk.Value.Entries

/-!
# Insertions one after the other

What is left of a sequence of insertions: each name has the place of its first insertion and the
entry of its last one.

## Main results

* `Entries.keys_ofPairs` — the names, in the order of their first insertions.
* `Entries.get?_ofPairs` — the entries, of the last insertions.
-/

namespace Treewalk.Entries

variable {α : Type}

theorem ofPairs_concat (pairs : List (String × α)) (name : String) (x : α) :
    ofPairs (pairs ++ [(name, x)]) = insert name x (ofPairs pairs) := by
  rw [ofPairs, List.foldl_append]
  rfl

theorem get?_eq_none_iff {name : String} {es : Entries α} :
    get? name es = none ↔ name ∉ keys es := by
  induction es with
  | nil => exact iff_of_true rfl nofun
  | cons e es ih =>
    obtain ⟨k, x⟩ := e
    by_cases h : k = name
    · simp [get?, keys, h]
    · rw [get?, if_neg h, ih]
      simp [keys, Ne.symm h]

theorem keys_insert (name : String) (x : α) (es : Entries α) :
    keys (insert name x es) = if name ∈ keys es then keys es else keys es ++ [name] := by
  induction es with
  | nil => rfl
  | cons e es ih =>
    obtain ⟨k, y⟩ := e
    by_cases h : k = name
    · subst h
      simp [insert, keys]
    · have hmem : name ∈ keys ((k, y) :: es) ↔ name ∈ keys es := by simp [keys, Ne.symm h]
      rw [insert, if_neg h, keys, List.map_cons, ← keys, ih, if_congr hmem rfl rfl]
      split <;> rfl

theorem nodup_keys_insert {name : String} {es : Entries α} (h : (keys es).Nodup) (x : α) :
    (keys (insert name x es)).Nodup := by
  rw [keys_insert]
  split
  · exact h
  · next hnew =>
    refine List.nodup_append.mpr ⟨h, List.pairwise_singleton _ name, fun k hk l hl => ?_⟩
    rintro rfl
    exact hnew (List.mem_singleton.mp hl ▸ hk)

/-- The names are pairwise distinct, because each insertion keeps them so. -/
theorem nodup_keys_ofPairs (pairs : List (String × α)) : (keys (ofPairs pairs)).Nodup := by
  induction pairs using List.reverseRecOn with
  | nil => exact List.nodup_nil
  | append_singleton pairs p ih =>
    rw [ofPairs_concat]
    exact nodup_keys_insert ih p.2

/-- The names are the inserted ones without repetition, in the order of their first insertions. -/
theorem keys_ofPairs (pairs : List (String × α)) :
    keys (ofPairs pairs) = (pairs.map Prod.fst).eraseDups := by
  induction pairs using List.reverseRecOn with
  | nil => rfl
  | append_singleton pairs p ih =>
    obtain ⟨name, x⟩ := p
    rw [ofPairs_concat, keys_insert, ih, List.map_append, List.eraseDups_append]
    by_cases h : name ∈ pairs.map Prod.fst
    · simp [h, List.removeAll]
    · simp [h, List.removeAll, List.eraseDups_cons]

/-- The entry under a name is the one that was inserted last, if any was. -/
theorem get?_ofPairs (name : String) (pairs : List (String × α)) :
    get? name (ofPairs pairs) = pairs.reverse.lookup name := by
  induction pairs using List.reverseRecOn with
  | nil => rfl
  | append_singleton pairs p ih =>
    obtain ⟨k, x⟩ := p
    rw [ofPairs_concat, get?_insert, ih, List.reverse_append, List.reverse_singleton,
      List.singleton_append, List.lookup_cons]
    by_cases h : name = k
    · simp [h]
    · rw [if_neg h, beq_false_of_ne h]

end Treewalk.Entries
