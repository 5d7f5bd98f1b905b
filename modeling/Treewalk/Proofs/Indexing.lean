import Treewalk.Proofs.Exactness
import Treewalk.Proofs.Numerals
import Treewalk.Value.Member

/-!
# Elements of arrays and strings

An array has its items for elements, and a string its characters.  A key denotes a position if it is
a number equal to that, or a text of digits with that value.  The two ways to find the position are
cut off at different ends: a number beyond all indices is taken for the largest index, and a text
with such a value is refused.  No array or string is long enough for that to matter.

## Main definitions

* `Value.elements?` — the elements of an array or a string.
* `Value.Denotes` — a key denotes a position.
-/

namespace Treewalk

namespace Value

/-- The items of an array, and the characters of a string as texts of their own. -/
def elements? : Value → Option (List Value)
  | .array items => some items
  | .text s => some (s.toList.map fun c => .text (String.singleton c))
  | _ => none

/-- A key denotes a position: it is a number that is equal to it, or a text of digits, at least one,
that has it for its decimal value. -/
def Denotes : Value → Nat → Prop
  | .number x, i => Number.Is x i
  | .text s, i => s.toList ≠ [] ∧ (∀ c ∈ s.toList, '0' ≤ c ∧ c ≤ '9') ∧
    Nat.ofDigits 10 (s.toList.reverse.map fun c => c.toNat - '0'.toNat) = i
  | _, _ => False

/-- What makes up a text of digits, and its value. -/
theorem denotes_text_iff (s : String) (i : Nat) :
    (Value.text s).Denotes i ↔
      (!s.toList.isEmpty && s.toList.all Number.isDigit) = true ∧
        Digits.value (s.toList.map Number.digitValue) = i := by
  have hdigits : s.toList.all Number.isDigit = true ↔ ∀ c ∈ s.toList, '0' ≤ c ∧ c ≤ '9' := by
    simp [Number.isDigit]
  have hempty : (!s.toList.isEmpty) = true ↔ s.toList ≠ [] := by simp
  rw [Denotes, Bool.and_eq_true, hdigits, hempty, Digits.value_eq_ofDigits, ← List.map_reverse,
    and_assoc]
  rfl

/-- A text has a position if its value fits in an index. -/
theorem index?_text_eq_some_iff (s : String) (i : Nat) :
    (Value.text s).index? = some i ↔ (Value.text s).Denotes i ∧ i ≤ maxIndex := by
  rw [denotes_text_iff, index?]
  dsimp only
  split_ifs with hdigits hsmall
  · rw [Option.some_inj]
    constructor
    · rintro rfl
      exact ⟨⟨hdigits, rfl⟩, hsmall⟩
    · exact fun h => h.1.2
  · refine iff_of_false nofun ?_
    rintro ⟨⟨-, rfl⟩, hle⟩
    exact hsmall hle
  · exact iff_of_false nofun fun h => hdigits h.1.1

/-- A number has the position that it is equal to, or the largest one. -/
theorem index?_number_eq_some_iff (x : Float) (i : Nat) :
    (Value.number x).index? = some i ↔ ∃ n, (Value.number x).Denotes n ∧ min maxIndex n = i := by
  simp only [index?, Option.map_eq_some_iff, Number.index?_eq_some_iff, Denotes]

/-- Below the largest index, a key has the position that it denotes. -/
theorem index?_eq_some_iff {key : Value} {i : Nat} (hi : i < maxIndex) :
    key.index? = some i ↔ key.Denotes i := by
  cases key with
  | number x =>
    rw [index?_number_eq_some_iff]
    constructor
    · rintro ⟨n, hn, hmin⟩
      obtain rfl : n = i := by omega
      exact hn
    · intro h
      exact ⟨i, h, by omega⟩
  | text s => rw [index?_text_eq_some_iff, and_iff_left hi.le]
  | _ => simp [index?, Denotes]

/-- A key denotes one position. -/
theorem Denotes.unique {key : Value} {i j : Nat} (hi : key.Denotes i) (hj : key.Denotes j) :
    i = j := by
  cases key with
  | number x =>
    have hindex := (Number.index?_eq_some_iff x i).mpr hi
    rw [(Number.index?_eq_some_iff x j).mpr hj] at hindex
    exact (Option.some.inj hindex).symm
  | text s => exact hi.2.2.symm.trans hj.2.2
  | _ => exact hi.elim

theorem not_denotes_length (i : Nat) : ¬ (Value.text "length").Denotes i := by
  rintro ⟨-, hdigits, -⟩
  exact absurd (hdigits 'l' (by simp)) (by decide)

theorem isLengthKey_iff (key : Value) : key.isLengthKey = true ↔ key = .text "length" := by
  cases key <;> simp [isLengthKey]

/-- A member is an element, or the number of elements. -/
theorem member_eq_element {v : Value} {elements : List Value} (h : v.elements? = some elements)
    (key : Value) : v.member key = element elements.length (fun i => elements[i]?) key := by
  cases v with
  | array items =>
    cases h
    rfl
  | text s =>
    cases h
    simp only [member, List.length_map, String.length_toList, List.getElem?_map]
  | _ => cases h

/-! ## Members -/

section Members

variable {v key : Value} {elements : List Value}

theorem index?_of_lt_length (hlength : elements.length < 2 ^ 53) {i : Nat}
    (hi : i < elements.length) : key.index? = some i ↔ key.Denotes i := by
  refine index?_eq_some_iff ?_
  rw [maxIndex, UInt64.size]
  omega

theorem member_of_denotes (h : v.elements? = some elements) (hlength : elements.length < 2 ^ 53)
    {i : Nat} (hi : i < elements.length) (hdenotes : key.Denotes i) :
    v.member key = elements[i] := by
  have hkey : ¬ key.isLengthKey = true := by
    rw [isLengthKey_iff]
    rintro rfl
    exact not_denotes_length i hdenotes
  have hindex : key.index? = some i := (index?_of_lt_length hlength hi).mpr hdenotes
  rw [member_eq_element h, element, if_neg hkey, hindex, Option.bind_some,
    List.getElem?_eq_getElem hi, Option.getD_some]

/-- The number of elements is converted exactly. -/
theorem member_length (h : v.elements? = some elements) (hlength : elements.length < 2 ^ 53) :
    ∃ x, v.member (.text "length") = .number x ∧ Number.Is x elements.length := by
  have hword : (UInt64.ofNat elements.length).toNat = elements.length := by
    rw [UInt64.toNat_ofNat']
    omega
  have his := Number.toFloat_is (w := UInt64.ofNat elements.length) (by omega)
  rw [hword] at his
  refine ⟨_, ?_, his⟩
  rw [member_eq_element h, element, if_pos ((isLengthKey_iff _).mpr rfl)]

/-- What is beyond the elements is not there, at the largest index neither. -/
theorem member_of_not_denotes (h : v.elements? = some elements) (hlength : elements.length < 2 ^ 53)
    (hkey : key ≠ .text "length") (hnone : ∀ i < elements.length, ¬ key.Denotes i) :
    v.member key = .absent := by
  have hitem : (key.index?.bind fun i => elements[i]?) = none := by
    rw [Option.bind_eq_none_iff]
    intro i hindex
    rw [List.getElem?_eq_none_iff]
    by_contra hi
    rw [Nat.not_le] at hi
    exact hnone i hi ((index?_of_lt_length hlength hi).mp hindex)
  rw [member_eq_element h, element, if_neg (mt (isLengthKey_iff key).mp hkey), hitem,
    Option.getD_none]

end Members

/-- For an array or a string of less than `2 ^ 53` elements, a key that denotes the position of an
element yields this element, the text `length` yields the number of elements, and any other key
yields the absent value.  A key denotes one position at most, and `length` none. -/
theorem member_by_position (v : Value) (elements : List Value) (h : v.elements? = some elements)
    (hlength : elements.length < 2 ^ 53) (key : Value) :
    (∀ i, (hi : i < elements.length) → key.Denotes i → v.member key = elements[i]) ∧
      (key = .text "length" → ∃ x, v.member key = .number x ∧ Number.Is x elements.length) ∧
      (key ≠ .text "length" → (∀ i < elements.length, ¬ key.Denotes i) →
        v.member key = .absent) ∧
      (∀ i j, key.Denotes i → key.Denotes j → i = j) ∧
      ∀ i, key.Denotes i → key ≠ .text "length" := by
  refine ⟨?_, ?_, ?_, ?_, ?_⟩
  · intro i hi hdenotes
    exact member_of_denotes h hlength hi hdenotes
  · rintro rfl
    exact member_length h hlength
  · intro hkey hnone
    exact member_of_not_denotes h hlength hkey hnone
  · intro i j hi hj
    exact hi.unique hj
  · rintro i hdenotes rfl
    exact not_denotes_length i hdenotes

/-- A position may be written with leading zeros, and a character is found by its position, not by
that of its bytes. -/
theorem member_of_accented :
    let v : Value := .text "é1"
    v.elements? = some [.text "é", .text "1"] ∧ (Value.text "001").Denotes 1 ∧
      v.member (.text "001") = .text "1" := by
  intro v
  have helements : v.elements? = some [.text "é", .text "1"] := rfl
  have hdenotes : (Value.text "001").Denotes 1 := (denotes_text_iff _ _).mpr (by decide)
  have hmember := (member_by_position v _ helements (by simp) (.text "001")).1 1 (by simp) hdenotes
  exact ⟨helements, hdenotes, hmember⟩

end Value

end Treewalk
