import Mathlib.Data.Finset.Card
import Mathlib.Data.Option.Basic
import Mathlib.Order.Defs.Unbundled
import Treewalk.Proofs.Insertion
import Treewalk.Value.Basic

/-!
# Values that are the same

Two values are the same if they have the same shape and the numbers in them are equal.  What is no
number is not equal to itself, and so the same is true of whatever contains it; all other values
are compared by an equivalence relation, in which the two zeros are one number.

The names in an object are pairwise distinct, whatever was inserted.  So an object is told by the
order of its names and by what is found under each of them, and two objects are the same exactly if
they agree in both.

## Main definitions

* `Value.nanFree` — a value without any part that is no number.
* `Value.equivalence_same` — to be the same is an equivalence of such values.
* `Value.sameEntries_iff` — entries are compared by their names and by what is found under them.
-/

namespace Treewalk

/-! ## Equality of numbers -/

namespace Number

open Float.Model Float.Model.UnpackedFloat

/-- Two unpacked numbers are equal.  The two zeros are. -/
inductive Equal : UnpackedFloat → UnpackedFloat → Prop where
  | infinity (s : Sign) : Equal (.infinity s) (.infinity s)
  | zero (s s' : Sign) : Equal (.zero s) (.zero s')
  | finite (s : Sign) (m : Nat) (e : Int) (h h' : 0 < m) : Equal (.finite s m e h) (.finite s m e h')

theorem Equal.symm {u v : UnpackedFloat} (h : Equal u v) : Equal v u := by
  cases h with
  | infinity s => exact .infinity s
  | zero s s' => exact .zero s' s
  | finite s m e hm hm' => exact .finite s m e hm' hm

theorem Equal.trans {u v w : UnpackedFloat} (h : Equal u v) (h' : Equal v w) : Equal u w := by
  cases h with
  | infinity s => exact h'
  | zero s s' =>
    cases h' with
    | zero _ s'' => exact .zero s s''
  | finite s m e hm hm' => exact h'

theorem equal_self_iff {u : UnpackedFloat} : Equal u u ↔ u.isNaN = false := by
  cases u with
  | notANumber => exact iff_of_false nofun nofun
  | infinity s => exact iff_of_true (.infinity s) rfl
  | zero s => exact iff_of_true (.zero s s) rfl
  | finite s m e hm => exact iff_of_true (.finite s m e hm hm) rfl

theorem compare_finite_iff {s : Sign} {m m' : Nat} {e e' : Int} {h : 0 < m} {h' : 0 < m'} :
    (finite s m e h).compare (finite s m' e' h') = some .eq ↔ e = e' ∧ m = m' := by
  have hparts : (compare e e').then (compare m m') = .eq ↔ e = e' ∧ m = m' := by
    rw [Ordering.then_eq_eq, compare_eq_iff_eq, compare_eq_iff_eq]
  cases s with
  | positive => exact Option.some_inj.trans hparts
  | negative => exact Option.some_inj.trans (Ordering.swap_eq_eq.trans hparts)

theorem compare_eq_iff {u v : UnpackedFloat} : u.compare v = some .eq ↔ Equal u v := by
  constructor
  · intro h
    cases u with
    | notANumber => cases v <;> cases h
    | infinity s =>
      cases v with
      | infinity s' =>
        cases s <;> cases s' <;> first | exact .infinity _ | cases h
      | _ => cases s <;> cases h
    | zero s =>
      cases v with
      | zero s' => exact .zero s s'
      | infinity s' => cases s' <;> cases h
      | finite s' _ _ _ => cases s' <;> cases h
      | notANumber => cases h
    | finite s m e hm =>
      cases v with
      | finite s' m' e' hm' =>
        obtain rfl : s = s' := by cases s <;> cases s' <;> first | rfl | cases h
        obtain ⟨rfl, rfl⟩ := compare_finite_iff.mp h
        exact .finite s m e hm hm'
      | infinity s' => cases s <;> cases s' <;> cases h
      | zero s' => cases s <;> cases h
      | notANumber => cases s <;> cases h
  · intro h
    cases h with
    | infinity s => cases s <;> rfl
    | zero s s' => rfl
    | finite s m e hm hm' => exact compare_finite_iff.mpr ⟨rfl, rfl⟩

theorem beq_iff {x y : Float} : (x == y) = true ↔ Equal x.toModel.unpack y.toModel.unpack := by
  rw [← compare_eq_iff]
  exact @beq_iff_eq (Option Ordering) _ _ _ _

theorem beq_self_iff {x : Float} : (x == x) = true ↔ x.isNaN = false :=
  beq_iff.trans equal_self_iff

theorem beq_comm (x y : Float) : (x == y) = (y == x) := by
  rw [Bool.eq_iff_iff, beq_iff, beq_iff]
  exact ⟨Equal.symm, Equal.symm⟩

theorem beq_trans {x y z : Float} (h : (x == y) = true) (h' : (y == z) = true) :
    (x == z) = true :=
  beq_iff.mpr ((beq_iff.mp h).trans (beq_iff.mp h'))

end Number

/-! ## Values without what is no number -/

namespace Value

mutual

/-- Whether no part of a value is a number that is none. -/
def nanFree : Value → Bool
  | .absent | .null | .bool _ | .text _ => true
  | .number x => !x.isNaN
  | .array items => nanFreeItems items
  | .object entries => nanFreeEntries entries

/-- Whether no item contains a number that is none. -/
def nanFreeItems : List Value → Bool
  | [] => true
  | v :: vs => v.nanFree && nanFreeItems vs

/-- Whether no entry contains a number that is none. -/
def nanFreeEntries : List (String × Value) → Bool
  | [] => true
  | (_, v) :: es => v.nanFree && nanFreeEntries es

end

mutual

/-- A value is the same as itself exactly if all of its numbers are numbers. -/
theorem same_self (v : Value) : v.same v = v.nanFree := by
  cases v with
  | absent | null => rfl
  | bool b => exact beq_self_eq_true b
  | text s => exact beq_self_eq_true s
  | number x =>
    rw [same, nanFree, Bool.eq_iff_iff, Number.beq_self_iff, Bool.not_eq_true']
  | array items => exact sameItems_self items
  | object entries => exact sameEntries_self entries

theorem sameItems_self (vs : List Value) : sameItems vs vs = nanFreeItems vs := by
  cases vs with
  | nil => rfl
  | cons v vs => rw [sameItems, nanFreeItems, v.same_self, sameItems_self vs]

theorem sameEntries_self (es : List (String × Value)) : sameEntries es es = nanFreeEntries es := by
  cases es with
  | nil => rfl
  | cons e es =>
    obtain ⟨k, v⟩ := e
    rw [sameEntries, nanFreeEntries, beq_self_eq_true, v.same_self, sameEntries_self es,
      Bool.true_and]

end

mutual

theorem same_comm (v w : Value) : v.same w = w.same v := by
  cases v <;> cases w <;> try rfl
  case bool.bool a b => exact Bool.beq_comm
  case text.text s t => exact BEq.comm
  case number.number x y => exact Number.beq_comm x y
  case array.array vs ws => exact sameItems_comm vs ws
  case object.object es fs => exact sameEntries_comm es fs

theorem sameItems_comm (vs ws : List Value) : sameItems vs ws = sameItems ws vs := by
  cases vs <;> cases ws <;> try rfl
  case cons.cons v vs w ws => rw [sameItems, sameItems, same_comm v w, sameItems_comm vs ws]

theorem sameEntries_comm (es fs : List (String × Value)) :
    sameEntries es fs = sameEntries fs es := by
  cases es <;> cases fs <;> try rfl
  case cons.cons e es f fs =>
    obtain ⟨k, v⟩ := e
    obtain ⟨l, w⟩ := f
    rw [sameEntries, sameEntries, same_comm v w, sameEntries_comm es fs, BEq.comm (a := k)]

end

mutual

theorem same_trans {u v w : Value} (h : u.same v = true) (h' : v.same w = true) :
    u.same w = true := by
  cases u <;> cases v <;> first | exact (Bool.false_ne_true h).elim | skip
  case absent.absent | null.null => exact h'
  case bool.bool a b =>
    obtain rfl : a = b := beq_iff_eq.mp h
    exact h'
  case text.text s t =>
    obtain rfl : s = t := beq_iff_eq.mp h
    exact h'
  case number.number x y =>
    cases w with
    | number z => exact Number.beq_trans h h'
    | _ => exact (Bool.false_ne_true h').elim
  case array.array us vs =>
    cases w with
    | array ws => exact sameItems_trans h h'
    | _ => exact (Bool.false_ne_true h').elim
  case object.object es fs =>
    cases w with
    | object gs => exact sameEntries_trans h h'
    | _ => exact (Bool.false_ne_true h').elim
termination_by structural u

theorem sameItems_trans {us vs ws : List Value} (h : sameItems us vs = true)
    (h' : sameItems vs ws = true) : sameItems us ws = true := by
  cases us <;> cases vs <;> first | exact (Bool.false_ne_true h).elim | skip
  case nil.nil => exact h'
  case cons.cons u us v vs =>
    cases ws with
    | nil => exact (Bool.false_ne_true h').elim
    | cons w ws =>
      rw [sameItems, Bool.and_eq_true] at h h' ⊢
      exact ⟨same_trans h.1 h'.1, sameItems_trans h.2 h'.2⟩
termination_by structural us

theorem sameEntries_trans {es fs gs : List (String × Value)} (h : sameEntries es fs = true)
    (h' : sameEntries fs gs = true) : sameEntries es gs = true := by
  cases es <;> cases fs <;> first | exact (Bool.false_ne_true h).elim | skip
  case nil.nil => exact h'
  case cons.cons e es f fs =>
    cases gs with
    | nil => exact (Bool.false_ne_true h').elim
    | cons g gs =>
      obtain ⟨k, u⟩ := e
      obtain ⟨l, v⟩ := f
      obtain ⟨n, w⟩ := g
      rw [sameEntries, Bool.and_eq_true, Bool.and_eq_true, beq_iff_eq] at h h' ⊢
      exact ⟨⟨h.1.1.trans h'.1.1, same_trans h.1.2 h'.1.2⟩, sameEntries_trans h.2 h'.2⟩
termination_by structural es

end

/-- To be the same is an equivalence of the values without what is no number. -/
theorem equivalence_same :
    Equivalence fun v w : { v : Value // v.nanFree = true } => v.1.same w.1 = true where
  refl v := (same_self v.1).trans v.2
  symm {v w} h := (same_comm w.1 v.1).trans h
  trans h h' := same_trans h h'

/-! ## Objects -/

/-- Both or neither of two values are there, and they are the same if they are. -/
abbrev BothSame : Option Value → Option Value → Prop :=
  Option.Rel fun v w => v.same w = true

open Entries

/-- Entries are the same if they have the same names in the same order and the same is found under
each name.  With a name twice in the list only the first of its entries is found. -/
theorem sameEntries_iff {es fs : Entries Value} (hes : (keys es).Nodup) (hfs : (keys fs).Nodup) :
    sameEntries es fs = true ↔
      keys es = keys fs ∧ ∀ name, BothSame (get? name es) (get? name fs) := by
  induction es generalizing fs with
  | nil =>
    cases fs with
    | nil => exact iff_of_true rfl ⟨rfl, fun name => .none⟩
    | cons f fs => exact iff_of_false nofun fun h => nomatch h.1
  | cons e es ih =>
    obtain ⟨k, v⟩ := e
    cases fs with
    | nil => exact iff_of_false nofun fun h => nomatch h.1
    | cons f fs =>
      obtain ⟨l, w⟩ := f
      obtain ⟨hk, hes⟩ := List.nodup_cons.mp hes
      obtain ⟨hl, hfs⟩ := List.nodup_cons.mp hfs
      rw [sameEntries, Bool.and_eq_true, Bool.and_eq_true, beq_iff_eq, ih hes hfs]
      constructor
      · rintro ⟨⟨rfl, hv⟩, hkeys, hrest⟩
        refine ⟨congrArg (k :: ·) hkeys, fun name => ?_⟩
        rw [get?, get?]
        split
        · exact .some hv
        · exact hrest name
      · rintro ⟨hkeys, hall⟩
        obtain ⟨rfl, htail⟩ : k = l ∧ keys es = keys fs := List.cons.inj hkeys
        have hfirst := hall k
        rw [get?, get?, if_pos rfl, if_pos rfl] at hfirst
        obtain ⟨hv⟩ := hfirst
        refine ⟨⟨rfl, hv⟩, htail, fun name => ?_⟩
        by_cases h : k = name
        · subst h
          rw [get?_eq_none_iff.mpr hk, get?_eq_none_iff.mpr hl]
          exact .none
        · have hname := hall name
          rwa [get?, get?, if_neg h, if_neg h] at hname

/-- Entries that are found under the same names, none of them with a part that is no number, are
the same if they are equal. -/
theorem bothSame_self {o : Option Value} (h : ∀ v, o = some v → v.nanFree = true) :
    BothSame o o := by
  cases o with
  | none => exact .none
  | some v => exact .some ((same_self v).trans (h v rfl))

end Value

/-! ## Objects after insertions -/

open Entries in
/-- Insertions into the empty object leave a finite map in the order of the first insertions.  The
names are pairwise distinct, they are the inserted ones in the order in which each came first, the
value under a name is the one that was inserted last, and there are as many entries as distinct
names.  Two objects are the same exactly if their names came first in the same order and the last
values under each of them are the same.  To be the same is an equivalence of the values without
what is no number, and so it is enough for such values that they are equal. -/
theorem object_of_insertions (pairs others : List (String × Value)) :
    (keys (ofPairs pairs)).Nodup ∧
    keys (ofPairs pairs) = (pairs.map Prod.fst).eraseDups ∧
    (∀ name, get? name (ofPairs pairs) = pairs.reverse.lookup name) ∧
    (ofPairs pairs).length = (pairs.map Prod.fst).toFinset.card ∧
    ((Value.object (ofPairs pairs)).same (.object (ofPairs others)) = true ↔
      (pairs.map Prod.fst).eraseDups = (others.map Prod.fst).eraseDups ∧
        ∀ name, Value.BothSame (pairs.reverse.lookup name) (others.reverse.lookup name)) ∧
    Equivalence (fun v w : { v : Value // v.nanFree = true } => v.1.same w.1 = true) ∧
    ((∀ p ∈ pairs, p.2.nanFree = true) →
      (pairs.map Prod.fst).eraseDups = (others.map Prod.fst).eraseDups →
      (∀ name, pairs.reverse.lookup name = others.reverse.lookup name) →
        (Value.object (ofPairs pairs)).same (.object (ofPairs others)) = true) := by
  have hsame : (Value.object (ofPairs pairs)).same (.object (ofPairs others)) = true ↔
      (pairs.map Prod.fst).eraseDups = (others.map Prod.fst).eraseDups ∧
        ∀ name, Value.BothSame (pairs.reverse.lookup name) (others.reverse.lookup name) := by
    rw [Value.same, Value.sameEntries_iff (nodup_keys_ofPairs pairs) (nodup_keys_ofPairs others),
      keys_ofPairs, keys_ofPairs]
    simp only [get?_ofPairs]
  refine ⟨nodup_keys_ofPairs pairs, keys_ofPairs pairs, fun name => get?_ofPairs name pairs, ?_,
    hsame, Value.equivalence_same, ?_⟩
  · calc (ofPairs pairs).length = (keys (ofPairs pairs)).length := by rw [keys, List.length_map]
      _ = (keys (ofPairs pairs)).toFinset.card :=
        (List.toFinset_card_of_nodup (nodup_keys_ofPairs pairs)).symm
      _ = (pairs.map Prod.fst).toFinset.card := by
        rw [keys_ofPairs]
        congr 1
        ext name
        simp only [List.mem_toFinset, List.mem_eraseDups]
  · intro hnan horder hlast
    refine hsame.mpr ⟨horder, fun name => ?_⟩
    rw [← hlast name]
    refine Value.bothSame_self fun v hv => ?_
    obtain ⟨before, after, hsplit, -⟩ := List.lookup_eq_some_iff.mp hv
    refine hnan (name, v) (List.mem_reverse.mp ?_)
    rw [hsplit]
    exact List.mem_append_cons_self

/-- Three insertions, the last of which replaces what the first one has inserted. -/
def replaced : List (String × Value) :=
  [("b", .number 1), ("a", .number 2), ("b", .number 3)]

/-- Two insertions of what is left in the end. -/
def leftInTheEnd : List (String × Value) :=
  [("b", .number 3), ("a", .number 2)]

theorem replaced_same_leftInTheEnd :
    (Value.object (Entries.ofPairs replaced)).same (.object (Entries.ofPairs leftInTheEnd)) =
      true := by
  obtain ⟨-, -, -, -, -, -, hsame⟩ := object_of_insertions replaced leftInTheEnd
  refine hsame (by decide +kernel) (by decide) fun name => ?_
  have hforth : replaced.reverse = [("b", .number 3), ("a", .number 2), ("b", .number 1)] := rfl
  have hback : leftInTheEnd.reverse = [("a", .number 2), ("b", .number 3)] := rfl
  rw [hforth, hback]
  by_cases h : name = "b"
  · subst h
    rw [List.lookup_cons_self, List.lookup_cons, beq_false_of_ne (by decide),
      List.lookup_cons_self]
  · simp only [List.lookup_cons, beq_false_of_ne h, List.lookup_nil]

end Treewalk
