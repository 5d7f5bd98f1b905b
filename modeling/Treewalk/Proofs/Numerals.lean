import Mathlib.Data.Nat.Digits.Defs
import Treewalk.Json.Scan
import Treewalk.Number.Styles

/-!
# Numerals of documents are scanned as they are written

The scanner takes the longest numeral at the head of a text.  A written numeral comes back as it was
if what follows it does not go on with a digit, a point or an exponent, and nothing does that may
stand after a number in a document.

The digits before the point are the one thing that a printer can get wrong: they must not be missing
and must not begin with a superfluous zero.  A numeral that breaks this rule is not scanned at all.
Natural numbers always keep it.

## Main definitions

* `Digits.Decimal`, `Digits.isWhole` — lists of digits.
* `Numeral.Decimal`, `Numeral.Stops` — numerals in digits, and texts that end a numeral.
* `Json.scanNumeral?_chars` — written numerals are scanned.
-/

namespace Treewalk

open Json

/-! ## Lists of digits -/

namespace Digits

/-- All digits are decimal digits. -/
def Decimal (ds : List Nat) : Prop := ∀ d ∈ ds, d < 10

/-- Whether digits can stand before the point: a zero, or digits that do not begin with one. -/
def isWhole : List Nat → Bool
  | [] => false
  | 0 :: _ :: _ => false
  | _ => true

theorem ofNat_of_lt {n : Nat} (h : n < 10) : ofNat n = [n] := by
  have hdigit : ∀ n < 10, n.digitChar.toNat - '0'.toNat = n := by decide
  rw [ofNat, Nat.toDigits_of_lt_base h, List.map_singleton, hdigit n h]

theorem ofNat_of_le {n : Nat} (h : 10 ≤ n) : ofNat n = ofNat (n / 10) ++ [n % 10] := by
  have hdigit : ∀ n < 10, n.digitChar.toNat - '0'.toNat = n := by decide
  rw [ofNat, Nat.toDigits_of_base_le (by decide) h, List.map_append, List.map_singleton,
    hdigit (n % 10) (Nat.mod_lt n (by decide)), ofNat]

theorem decimal_ofNat (n : Nat) : Decimal (ofNat n) := by
  induction n using Nat.strongRecOn with
  | _ n ih =>
    intro d hd
    by_cases h : n < 10
    · rw [ofNat_of_lt h, List.mem_singleton] at hd
      omega
    · rw [ofNat_of_le (by omega), List.mem_append, List.mem_singleton] at hd
      rcases hd with hd | hd
      · exact ih (n / 10) (by omega) d hd
      · omega

theorem le_foldl (a : Nat) (ds : List Nat) : a ≤ ds.foldl (fun n d => 10 * n + d) a := by
  induction ds generalizing a with
  | nil => exact Nat.le_refl a
  | cons d ds ih =>
    have htail := ih (10 * a + d)
    rw [List.foldl_cons]
    omega

theorem value_eq_ofDigits (digits : List Nat) :
    value digits = Nat.ofDigits 10 digits.reverse := by
  rw [Nat.ofDigits_eq_foldr, List.foldr_reverse]
  refine congrArg (fun f => digits.foldl f 0) (funext fun n => funext fun d => ?_)
  exact Nat.add_comm _ _

theorem value_append (as bs : List Nat) :
    value (as ++ bs) = value as * 10 ^ bs.length + value bs := by
  rw [value_eq_ofDigits, value_eq_ofDigits, value_eq_ofDigits, List.reverse_append,
    Nat.ofDigits_append, List.length_reverse, Nat.add_comm, Nat.mul_comm]

theorem value_ofNat (n : Nat) : value (ofNat n) = n := by
  induction n using Nat.strongRecOn with
  | _ n ih =>
    by_cases h : n < 10
    · rw [ofNat_of_lt h]
      simp [value]
    · have hlast : value [n % 10] = n % 10 := by simp [value]
      rw [ofNat_of_le (by omega), value_append, ih (n / 10) (by omega), hlast,
        List.length_singleton]
      omega

/-- Only zero begins with a zero. -/
theorem ofNat_eq_cons (n : Nat) : ∃ d ds, ofNat n = d :: ds ∧ (d = 0 → ds = []) := by
  induction n using Nat.strongRecOn with
  | _ n ih =>
    by_cases h : n < 10
    · exact ⟨n, [], ofNat_of_lt h, fun _ => rfl⟩
    · obtain ⟨d, ds, hds, hzero⟩ := ih (n / 10) (by omega)
      refine ⟨d, ds ++ [n % 10], by rw [ofNat_of_le (by omega), hds, List.cons_append], ?_⟩
      rintro rfl
      have hvalue := value_ofNat (n / 10)
      rw [hds, hzero rfl] at hvalue
      simp only [value, List.foldl_cons, List.foldl_nil] at hvalue
      omega

theorem isWhole_ofNat (n : Nat) : isWhole (ofNat n) = true := by
  obtain ⟨d, ds, hds, hzero⟩ := ofNat_eq_cons n
  rw [hds]
  cases d with
  | zero => rw [hzero rfl]; rfl
  | succ d => rfl

/-- The character of a digit is one, and stands for the digit. -/
theorem digit_char {d : Nat} (h : d < 10) :
    Number.isDigit (Char.ofNat ('0'.toNat + d)) = true ∧
      Number.digitValue (Char.ofNat ('0'.toNat + d)) = d := by
  have hall : ∀ d < 10, Number.isDigit (Char.ofNat ('0'.toNat + d)) = true ∧
      Number.digitValue (Char.ofNat ('0'.toNat + d)) = d := by decide
  exact hall d h

theorem isDigit_of_mem_chars {ds : List Nat} (h : Decimal ds) {c : Char} (hc : c ∈ chars ds) :
    Number.isDigit c = true := by
  obtain ⟨d, hd, rfl⟩ := List.mem_map.mp hc
  exact (digit_char (h d hd)).1

theorem map_digitValue_chars {ds : List Nat} (h : Decimal ds) :
    (chars ds).map Number.digitValue = ds := by
  have hid : ∀ d ∈ ds, Number.digitValue (Char.ofNat ('0'.toNat + d)) = id d :=
    fun d hd => (digit_char (h d hd)).2
  rw [chars, List.map_map]
  exact (List.map_congr_left hid).trans (List.map_id ds)

theorem chars_ofNat (n : Nat) : chars (ofNat n) = Nat.toDigits 10 n := by
  have hid : ∀ c ∈ Nat.toDigits 10 n, Char.ofNat ('0'.toNat + (c.toNat - '0'.toNat)) = id c := by
    intro c hc
    have hdigit := Nat.isDigit_of_mem_toDigits (by decide) (by decide) hc
    rw [Char.isDigit_iff_toNat] at hdigit
    have hsum : '0'.toNat + (c.toNat - '0'.toNat) = c.toNat := by omega
    rw [hsum]
    exact Char.ofNat_toNat c
  rw [chars, ofNat, List.map_map]
  exact (List.map_congr_left hid).trans (List.map_id _)

end Digits

/-! ## Scanning -/

namespace Number

/-- Digits are scanned up to the first character that is none. -/
theorem spanDigits_append {cs rest : List Char} (hcs : ∀ c ∈ cs, isDigit c = true)
    (hrest : ∀ c ∈ rest.head?, isDigit c = false) :
    spanDigits (cs ++ rest) = (cs.map digitValue, rest) := by
  have hnone : rest.takeWhile isDigit = [] ∧ rest.dropWhile isDigit = rest := by
    cases rest with
    | nil => exact ⟨rfl, rfl⟩
    | cons c rest =>
      have hc := hrest c rfl
      simp [hc]
  rw [spanDigits, List.takeWhile_append_of_pos hcs, List.dropWhile_append_of_pos hcs, hnone.1,
    hnone.2, List.append_nil]

theorem spanDigits_chars {ds : List Nat} (h : Digits.Decimal ds) {rest : List Char}
    (hrest : ∀ c ∈ rest.head?, isDigit c = false) :
    spanDigits (Digits.chars ds ++ rest) = (ds, rest) := by
  rw [spanDigits_append (fun c hc => Digits.isDigit_of_mem_chars h hc) hrest,
    Digits.map_digitValue_chars h]

end Number

namespace Numeral

/-- All digits of a numeral are decimal digits. -/
structure Decimal (n : Numeral) : Prop where
  whole : Digits.Decimal n.whole
  fraction : Digits.Decimal n.fraction

/-- A text does not go on with a character that numerals are made of. -/
def Stops (rest : List Char) : Prop :=
  ∀ c ∈ rest.head?, Number.isDigit c = false ∧ c ∉ ['-', '.', 'e', 'E']

theorem stops_nil : Stops [] := fun _ hc => by cases hc

theorem decimal_ofNat (n : Nat) : (ofNat n).Decimal :=
  ⟨Digits.decimal_ofNat n, fun _ hd => by cases hd⟩

/-- The point and the digits after it, if there are any. -/
def fractionChars (ds : List Nat) : List Char :=
  if ds.isEmpty then [] else '.' :: Digits.chars ds

/-- The exponent, if there is one. -/
def optionalPowerChars : Option Int → List Char
  | none => []
  | some e => powerChars true e

theorem chars_append (n : Numeral) (rest : List Char) :
    n.chars true ++ rest = (if n.negative then ['-'] else []) ++ (Digits.chars n.whole ++
      (fractionChars n.fraction ++ (optionalPowerChars n.power ++ rest))) := by
  rw [chars, fractionChars]
  simp only [List.append_assoc]
  cases n.power <;> rfl

variable {rest : List Char}

/-- What comes after the fraction is no digit and no point. -/
theorem head_power (h : Stops rest) (power : Option Int) :
    ∀ c ∈ (optionalPowerChars power ++ rest).head?,
      Number.isDigit c = false ∧ c ∉ ['-', '.'] := by
  intro c hc
  cases power with
  | none =>
    obtain ⟨hdigit, hother⟩ := h c hc
    simp only [List.mem_cons, not_or] at hother ⊢
    exact ⟨hdigit, hother.1, hother.2.1, by simp⟩
  | some e =>
    obtain rfl : 'e' = c := Option.some.inj hc
    decide

/-- What comes after the digits before the point is no digit. -/
theorem head_fraction (h : Stops rest) (fraction : List Nat) (power : Option Int) :
    ∀ c ∈ (fractionChars fraction ++ (optionalPowerChars power ++ rest)).head?,
      Number.isDigit c = false ∧ c ≠ '-' := by
  intro c hc
  rw [fractionChars] at hc
  split at hc
  · obtain ⟨hdigit, hother⟩ := head_power h power c hc
    exact ⟨hdigit, fun heq => hother (by simp [heq])⟩
  · obtain rfl : '.' = c := Option.some.inj hc
    decide

end Numeral

namespace Json

open Numeral

variable {rest : List Char}

theorem scanWhole?_chars {ds : List Nat} (h : Digits.Decimal ds)
    (hrest : ∀ c ∈ rest.head?, Number.isDigit c = false) :
    scanWhole? (Digits.chars ds ++ rest) =
      if Digits.isWhole ds then some (ds, rest) else none := by
  simp only [scanWhole?, Number.spanDigits_chars h hrest]
  cases ds with
  | nil => rfl
  | cons d ds =>
    cases d with
    | succ d => rfl
    | zero => cases ds <;> rfl

theorem scanFraction?_chars {ds : List Nat} (h : Digits.Decimal ds)
    (hrest : ∀ c ∈ rest.head?, Number.isDigit c = false ∧ c ∉ ['-', '.']) :
    scanFraction? (fractionChars ds ++ rest) = some (ds, rest) := by
  cases ds with
  | nil =>
    simp only [scanFraction?]
    split
    · next hcs =>
      obtain rfl : rest = _ := hcs
      exact absurd (hrest '.' rfl).2 (by simp)
    · rfl
  | cons d ds =>
    have hspan := Number.spanDigits_chars h fun c hc => (hrest c hc).1
    simp only [fractionChars, List.isEmpty_cons, Bool.false_eq_true, if_false, List.cons_append,
      scanFraction?, hspan]

theorem scanPower?_chars (hrest : Stops rest) (power : Option Int) :
    scanPower? (optionalPowerChars power ++ rest) = some (power, rest) := by
  cases power with
  | none =>
    cases rest with
    | nil => rfl
    | cons c rest =>
      obtain ⟨-, hother⟩ := hrest c rfl
      simp only [List.mem_cons, not_or] at hother
      have hc : ¬ (c = 'e' ∨ c = 'E') := not_or.mpr ⟨hother.2.2.1, hother.2.2.2.1⟩
      simp only [optionalPowerChars, List.nil_append, scanPower?, if_neg hc]
  | some e =>
    have hspan := Number.spanDigits_chars (Digits.decimal_ofNat e.natAbs)
      fun c hc => (hrest c hc).1
    rw [Digits.chars_ofNat] at hspan
    have hempty : (Digits.ofNat e.natAbs).isEmpty = false := by
      obtain ⟨d, ds, hds, -⟩ := Digits.ofNat_eq_cons e.natAbs
      rw [hds, List.isEmpty_cons]
    by_cases he : e < 0
    · have hchars : optionalPowerChars (some e) ++ rest =
          'e' :: '-' :: (Nat.toDigits 10 e.natAbs ++ rest) := by
        simp [optionalPowerChars, powerChars, he]
      have habs : -((e.natAbs : Nat) : Int) = e := by omega
      simp only [hchars, scanPower?, true_or, if_true, Number.takeSign, hspan, hempty,
        Bool.false_eq_true, if_false, Digits.value_ofNat, habs]
    · have hchars : optionalPowerChars (some e) ++ rest =
          'e' :: '+' :: (Nat.toDigits 10 e.natAbs ++ rest) := by
        simp [optionalPowerChars, powerChars, he]
      have habs : ((e.natAbs : Nat) : Int) = e := by omega
      simp only [hchars, scanPower?, true_or, if_true, Number.takeSign, hspan, hempty,
        Bool.false_eq_true, if_false, Digits.value_ofNat, habs]

/-- A numeral after its sign. -/
def scanUnsigned? (negative : Bool) (cs : List Char) : Option (Numeral × List Char) := do
  let (whole, cs) ← scanWhole? cs
  let (fraction, cs) ← scanFraction? cs
  let (power, cs) ← scanPower? cs
  return (⟨negative, whole, fraction, power⟩, cs)

theorem scanNumeral?_minus (cs : List Char) :
    scanNumeral? ('-' :: cs) = scanUnsigned? true cs := rfl

theorem scanNumeral?_unsigned {cs : List Char} (h : ∀ c ∈ cs.head?, c ≠ '-') :
    scanNumeral? cs = scanUnsigned? false cs := by
  unfold scanNumeral?
  split
  next heq =>
    split at heq
    · next cs => exact absurd rfl (h '-' rfl)
    · obtain ⟨rfl, rfl⟩ := Prod.mk.inj heq
      rfl

/-- A written numeral is scanned as it is, unless the digits before its point are ill-formed. -/
theorem scanNumeral?_chars {n : Numeral} (h : n.Decimal) (hrest : Stops rest) :
    scanNumeral? (n.chars true ++ rest) =
      if Digits.isWhole n.whole then some (n, rest) else none := by
  obtain ⟨negative, whole, fraction, power⟩ := n
  have hpoint := head_fraction hrest fraction power
  have hunsigned : scanUnsigned? negative (Digits.chars whole ++ (fractionChars fraction ++
      (optionalPowerChars power ++ rest))) =
      if Digits.isWhole whole then some (⟨negative, whole, fraction, power⟩, rest) else none := by
    rw [scanUnsigned?, scanWhole?_chars h.whole fun c hc => (hpoint c hc).1]
    cases Digits.isWhole whole with
    | false => rfl
    | true =>
      simp [scanFraction?_chars h.fraction (head_power hrest power), scanPower?_chars hrest power]
  rw [chars_append]
  cases negative with
  | true => exact (scanNumeral?_minus _).trans hunsigned
  | false =>
    refine (scanNumeral?_unsigned fun c hc => ?_).trans hunsigned
    cases whole with
    | nil => exact (hpoint c hc).2
    | cons d ds =>
      obtain rfl : Char.ofNat ('0'.toNat + d) = c := Option.some.inj hc
      rintro heq
      have hdigit := (Digits.digit_char (h.whole d (by simp))).1
      rw [heq] at hdigit
      exact absurd hdigit (by decide)

end Json

namespace Numeral

/-! ## The first character -/

/-- A character that a written numeral may begin with, be it proper or not. -/
def Starts (c : Char) : Prop := Number.isDigit c = true ∨ c ∈ ['-', '.', 'e']

instance (c : Char) : Decidable (Starts c) := inferInstanceAs (Decidable (_ ∨ _))

theorem Starts.ne {c e : Char} (h : Starts c) (he : ¬ Starts e) : c ≠ e := by
  rintro rfl
  exact he h

theorem Starts.not_space {c : Char} (h : Starts c) : isSpace c = false := by
  simp [isSpace, h.ne (by decide : ¬ Starts ' '), h.ne (by decide : ¬ Starts '\n'),
    h.ne (by decide : ¬ Starts '\t'), h.ne (by decide : ¬ Starts '\r')]

theorem starts_of_mem_head {n : Numeral} (h : n.Decimal) :
    ∀ c ∈ (n.chars true).head?, Starts c := by
  intro c hc
  rw [← List.append_nil (n.chars true), chars_append] at hc
  obtain ⟨negative, whole, fraction, power⟩ := n
  cases negative with
  | true =>
    obtain rfl : '-' = c := Option.some.inj hc
    decide
  | false =>
    cases whole with
    | cons d ds =>
      obtain rfl : Char.ofNat ('0'.toNat + d) = c := Option.some.inj hc
      exact .inl (Digits.digit_char (h.whole d (by simp))).1
    | nil =>
      cases fraction with
      | cons d ds =>
        obtain rfl : '.' = c := Option.some.inj hc
        decide
      | nil =>
        cases power with
        | none => cases hc
        | some e =>
          obtain rfl : 'e' = c := Option.some.inj hc
          decide

theorem chars_eq_cons {n : Numeral} (h : n.Decimal) (hwhole : Digits.isWhole n.whole = true) :
    ∃ c cs, n.chars true = c :: cs ∧ Starts c := by
  have hne : n.chars true ≠ [] := by
    obtain ⟨negative, whole, fraction, power⟩ := n
    cases whole with
    | nil => cases hwhole
    | cons d ds => simp [chars, Digits.chars]
  obtain ⟨c, cs, hcs⟩ := List.exists_cons_of_ne_nil hne
  exact ⟨c, cs, hcs, starts_of_mem_head h c (by simp [hcs])⟩

end Numeral

theorem Json.scanScalar?_of_starts {cs : List Char} (h : ∀ c ∈ cs.head?, Numeral.Starts c) :
    scanScalar? cs = (scanNumeral? cs).map fun (n, rest) => (.number n, rest) := by
  simp only [scanScalar?]
  split
  · exact absurd (h 'n' rfl) (by decide)
  · exact absurd (h 't' rfl) (by decide)
  · exact absurd (h 'f' rfl) (by decide)
  · exact absurd (h '"' rfl) (by decide)
  · rfl

/-! ## Printed numerals -/

namespace NumberStyle

variable {ds : List Nat}

theorem decimal_significant (h : Digits.Decimal ds) : Digits.Decimal (significant ds) := by
  intro d hd
  have hsub := List.mem_reverse.mp hd
  exact h d (List.mem_reverse.mp ((List.dropWhile_sublist _).subset hsub))

theorem decimal_positionalNumeral (style : NumberStyle) (negative : Bool)
    (h : Digits.Decimal ds) (point : Int) :
    (style.positionalNumeral negative ds point).Decimal := by
  have hzeros : ∀ k, Digits.Decimal (List.replicate k 0) := by
    intro k d hd
    rw [List.eq_of_mem_replicate hd]
    decide
  have happend : ∀ {as bs}, Digits.Decimal as → Digits.Decimal bs → Digits.Decimal (as ++ bs) := by
    intro as bs has hbs d hd
    exact (List.mem_append.mp hd).elim (has d) (hbs d)
  rw [positionalNumeral]
  split
  · exact ⟨hzeros 1, happend (hzeros _) h⟩
  · refine ⟨happend (fun d hd => h d (List.mem_of_mem_take hd)) (hzeros _), ?_⟩
    dsimp only
    split
    · exact hzeros 1
    · exact fun d hd => h d (List.mem_of_mem_drop hd)

theorem decimal_scientificNumeral (negative : Bool) (h : Digits.Decimal ds) (point : Int) :
    (scientificNumeral negative ds point).Decimal :=
  ⟨fun d hd => h d (List.mem_of_mem_take hd), fun d hd => h d (List.mem_of_mem_drop hd)⟩

/-- Whatever the style, numbers are written in decimal digits. -/
theorem decimal_of_numeral? {style : NumberStyle} {x : Float} {n : Numeral}
    (h : style.numeral? x = some n) : n.Decimal := by
  rw [numeral?] at h
  split at h
  · next d _ =>
    rw [← Option.some.inj h]
    rw [finite]
    split
    · exact decimal_positionalNumeral style _ (by decide : ∀ d ∈ [0], d < 10) _
    · have hdigits := decimal_significant (Digits.decimal_ofNat (d.shortest style.tie).coefficient)
      dsimp only
      split
      · exact decimal_positionalNumeral style _ hdigits _
      · exact decimal_scientificNumeral _ hdigits _
  · cases h

end NumberStyle

/-! ## Natural numbers -/

namespace Numeral

/-- Digits are taken up as long as 64 bits hold their value. -/
theorem absorb_of_lt {a : Nat} {ds : List Nat}
    (h : ds.foldl (fun n d => 10 * n + d) a < UInt64.size) :
    absorb a ds = (ds.foldl (fun n d => 10 * n + d) a, 0) := by
  induction ds generalizing a with
  | nil => rfl
  | cons d ds ih =>
    have hhead := Digits.le_foldl (10 * a + d) ds
    rw [List.foldl_cons] at h ⊢
    rw [absorb, if_pos (Nat.lt_of_le_of_lt hhead h)]
    exact ih h

theorem quantity?_ofNat (w : UInt64) : (ofNat w.toNat).quantity? = some (.natural w) := by
  have hvalue := Digits.value_ofNat w.toNat
  rw [Digits.value] at hvalue
  have hlt : (Digits.ofNat w.toNat).foldl (fun n d => 10 * n + d) 0 < UInt64.size := by
    rw [hvalue]
    exact w.toNat_lt_size
  simp [quantity?, integer?, ofNat, absorb_of_lt hlt, hvalue]

end Numeral

end Treewalk
