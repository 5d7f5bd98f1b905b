import Mathlib.Data.List.TakeWhile
import Treewalk.Command.Options

/-!
# The shapes of an argument

An argument is two dashes, a name, a name with a value, a letter, or plain.  What is taken of it
depends on its shape and, if it is plain, on what the argument before it has left.

## Main definitions

* `isPlain` — arguments that are no names.
* `word_cases` — the shapes of an argument.
-/

namespace Treewalk

/-- Whether an argument is no name: it does not begin with a dash, or it is the dash alone. -/
def isPlain (arg : String) : Bool :=
  match arg.toList with
  | '-' :: _ :: _ => false
  | _ => true

variable {s : ArgumentState} {name x : String}

theorem ofName?_spec {a : LongArgument} (h : LongArgument.ofName? name = some a) :
    name ≠ "" ∧ '=' ∉ name.toList ∧ a ≠ .valued .program := by
  unfold LongArgument.ofName? at h
  split at h <;> cases h <;> exact ⟨by decide, by decide, nofun⟩

theorem splitValue_name (h : '=' ∉ name.toList) :
    ArgumentState.splitValue name.toList = (name, none) := by
  have hall : ∀ c ∈ name.toList, (c != '=') = true := fun c hc =>
    bne_iff_ne.mpr fun heq => h (heq ▸ hc)
  have hdrop : name.toList.dropWhile (· != '=') = [] := List.dropWhile_eq_nil_iff.mpr hall
  rw [ArgumentState.splitValue, hdrop]
  simp

theorem splitValue_joined (h : '=' ∉ name.toList) (x : String) :
    ArgumentState.splitValue (name.toList ++ '=' :: x.toList) = (name, some x) := by
  have hall : ∀ c ∈ name.toList, (c != '=') = true := fun c hc =>
    bne_iff_ne.mpr fun heq => h (heq ▸ hc)
  have hdrop : (name.toList ++ '=' :: x.toList).dropWhile (· != '=') = '=' :: x.toList := by
    rw [List.dropWhile_append_of_pos hall]
    rfl
  have htake : (name.toList ++ '=' :: x.toList).takeWhile (· != '=') = name.toList := by
    rw [List.takeWhile_append_of_pos hall]
    simp
  rw [ArgumentState.splitValue, hdrop, htake]
  simp

theorem take_long {arg : String} {cs : List Char} (hs : s.trailing = false) (hcs : cs ≠ [])
    (harg : arg.toList = '-' :: '-' :: cs) :
    s.take arg = s.takeLong (ArgumentState.splitValue cs).1 (ArgumentState.splitValue cs).2 := by
  obtain ⟨c, cs, rfl⟩ := List.exists_cons_of_ne_nil hcs
  rw [ArgumentState.take, hs, harg]
  rfl

theorem take_name (hs : s.trailing = false) (hne : name ≠ "") (heq : '=' ∉ name.toList) :
    s.take ("--" ++ name) = s.takeLong name none := by
  have hcs : name.toList ≠ [] := fun h => hne (String.toList_eq_nil_iff.mp h)
  rw [take_long hs hcs (String.toList_append ..), splitValue_name heq]

theorem take_joined (hs : s.trailing = false) (heq : '=' ∉ name.toList) (x : String) :
    s.take ("--" ++ name ++ "=" ++ x) = s.takeLong name (some x) := by
  have harg : ("--" ++ name ++ "=" ++ x).toList =
      '-' :: '-' :: (name.toList ++ '=' :: x.toList) := by
    simp [String.toList_append]
  rw [take_long hs (by simp) harg, splitValue_joined heq]

theorem take_separator (hs : s.trailing = false) :
    s.take "--" = .ok { s with trailing := true } := by
  rw [ArgumentState.take, hs]
  rfl

theorem take_plain (hs : s.trailing = false) (hx : isPlain x = true) :
    s.take x =
      match s.pending with
      | some (v, none) => .ok { s with pending := some (v, some x) }
      | _ => s.takePositional x := by
  rw [ArgumentState.take, hs, if_neg Bool.false_ne_true]
  unfold isPlain at hx
  split at hx
  · cases hx
  · next hshape =>
    split
    · next hsep => exact absurd hsep (hshape '-' [])
    · next cs _ hlong => exact absurd hlong (hshape '-' cs)
    · next c cs _ _ hshort => exact absurd hshort (hshape c cs)
    · rfl

theorem take_short {arg : String} {c : Char} {cs : List Char} (hs : s.trailing = false)
    (hc : c ≠ '-') (harg : arg.toList = '-' :: c :: cs) : s.take arg = s.takeShort c := by
  rw [ArgumentState.take, hs, if_neg Bool.false_ne_true, harg]
  split
  · next h => exact absurd (List.cons.inj (List.cons.inj h).2).1 hc
  · next h => exact absurd (List.cons.inj (List.cons.inj h).2).1 hc
  · next h => rw [(List.cons.inj (List.cons.inj h).2).1]
  · next h => exact absurd rfl (h c cs)

/-- An argument is two dashes, a name, a name with a value, a letter, or plain. -/
theorem word_cases (arg : String) :
    arg = "--" ∨
      (∃ name, name ≠ "" ∧ '=' ∉ name.toList ∧ arg = "--" ++ name) ∨
      (∃ name x, '=' ∉ name.toList ∧ arg = "--" ++ name ++ "=" ++ x) ∨
      (∃ c cs, c ≠ '-' ∧ arg.toList = '-' :: c :: cs) ∨
      isPlain arg = true := by
  have hplain : isPlain arg = true ∨ ∃ c cs, arg.toList = '-' :: c :: cs := by
    unfold isPlain
    split
    · next c cs h => exact .inr ⟨c, cs, h⟩
    · exact .inl rfl
  obtain hplain | ⟨c, cs, harg⟩ := hplain
  · exact .inr (.inr (.inr (.inr hplain)))
  by_cases hc : c = '-'
  · subst hc
    by_cases heq : '=' ∈ cs
    · obtain ⟨name, x, rfl, hname⟩ := List.eq_append_cons_of_mem heq
      refine .inr (.inr (.inl ⟨.ofList name, .ofList x, by simpa using hname, ?_⟩))
      exact String.toList_inj.mp (by rw [harg]; simp [String.toList_append])
    · by_cases hcs : cs = []
      · exact .inl (String.toList_inj.mp (by rw [harg, hcs]; rfl))
      · refine .inr (.inl ⟨.ofList cs, by simpa using hcs, by simpa using heq, ?_⟩)
        exact String.toList_inj.mp (by rw [harg]; simp [String.toList_append])
  · exact .inr (.inr (.inr (.inl ⟨c, cs, hc, harg⟩)))

end Treewalk
