import Mathlib
import Treewalk.Number.Quantity
import Treewalk.Number.Styles
import Treewalk.Proofs.Numerals
import Treewalk.Proofs.Scaling
import Treewalk.Proofs.Shortest

/-!
# Printed numerals and their values

The numeral of a number in a document is its shortest decimal, laid out with zeros and a point.  The
digits before and after the point make one integer, and the places after the point and the exponent
make one power of ten.  These two integers are all that the reader scales by, so that a number is
read back if scaling them gives its magnitude.  The numeral itself is always right: as a rational
number it is rounded to the number that was printed.

## Main definitions

* `Numeral.coefficient`, `Numeral.exponent`, `Numeral.value` — the rational number of a numeral.
* `Numeral.Scalable` — numerals that are read by scaling, without loss of digits.
* `NumberStyle.nearest_finite` — printed numerals are rounded to the number.
* `NumberStyle.scalable_finite`, `Numeral.Scalable.reads_iff` — how they are read.
-/

namespace Treewalk

open Number

/-! ## Digits -/

namespace Digits

variable {ds : List Nat}

theorem value_zeros (k : Nat) : value (List.replicate k 0) = 0 := by
  rw [value_eq_ofDigits, List.reverse_replicate, Nat.ofDigits_replicate_zero]

theorem value_append_zeros (ds : List Nat) (k : Nat) :
    value (ds ++ List.replicate k 0) = value ds * 10 ^ k := by
  rw [value_append, value_zeros, List.length_replicate, Nat.add_zero]

theorem value_zeros_append (k : Nat) (ds : List Nat) :
    value (List.replicate k 0 ++ ds) = value ds := by
  rw [value_append, value_zeros, Nat.zero_mul, Nat.zero_add]

theorem value_lt (h : Decimal ds) : value ds < 10 ^ ds.length := by
  rw [value_eq_ofDigits, ← List.length_reverse]
  exact Nat.ofDigits_lt_base_pow_length (by decide) fun d hd => h d (List.mem_reverse.mp hd)

theorem length_ofNat_le {n k : Nat} (hk : 0 < k) (h : n < 10 ^ k) : (ofNat n).length ≤ k := by
  rw [ofNat, List.length_map]
  exact (Nat.length_toDigits_le_iff (by decide) hk).mpr h

theorem isWhole_cons {d : Nat} (hd : d ≠ 0) (ds : List Nat) : isWhole (d :: ds) = true := by
  cases d with
  | zero => exact absurd rfl hd
  | succ d => rfl

end Digits

namespace NumberStyle

theorem exists_significant (ds : List Nat) :
    ∃ k, ds = significant ds ++ List.replicate k 0 := by
  refine ⟨(ds.reverse.takeWhile (· == 0)).length, ?_⟩
  have hzeros : ds.reverse.takeWhile (· == 0) =
      List.replicate (ds.reverse.takeWhile (· == 0)).length 0 :=
    List.eq_replicate_iff.mpr ⟨rfl, fun d hd => by simpa using List.mem_takeWhile_imp hd⟩
  have hreverse := congrArg List.reverse
    (List.takeWhile_append_dropWhile (p := (· == 0)) (l := ds.reverse))
  rw [List.reverse_append, List.reverse_reverse, hzeros, List.reverse_replicate] at hreverse
  exact hreverse.symm

/-- The first digit of a positive number is none of the zeros that are left out. -/
theorem significant_ofNat {n : Nat} (hn : 0 < n) :
    ∃ d ds, significant (Digits.ofNat n) = d :: ds ∧ d ≠ 0 := by
  obtain ⟨d, ds, hds, hzero⟩ := Digits.ofNat_eq_cons n
  have hvalue := Digits.value_ofNat n
  obtain ⟨k, hk⟩ := exists_significant (Digits.ofNat n)
  cases hsignificant : significant (Digits.ofNat n) with
  | nil =>
    rw [hsignificant, List.nil_append] at hk
    rw [hk, Digits.value_zeros] at hvalue
    omega
  | cons e es =>
    rw [hsignificant, hds, List.cons_append, List.cons.injEq] at hk
    refine ⟨e, es, rfl, ?_⟩
    rintro rfl
    rw [hds, hzero hk.1, hk.1, Digits.value, List.foldl_cons, List.foldl_nil] at hvalue
    omega

end NumberStyle

/-! ## Numerals that are scaled -/

namespace Numeral

/-- All digits of a numeral as one integer. -/
def coefficient (n : Numeral) : ℕ := Digits.value (n.whole ++ n.fraction)

/-- The power of ten of the last digit of a numeral. -/
def exponent (n : Numeral) : ℤ := n.power.getD 0 - n.fraction.length

/-- The rational number of a numeral without its sign. -/
def value (n : Numeral) : ℚ := n.coefficient * 10 ^ n.exponent

/-- A numeral that is well-formed, that is no integer, and whose digits and exponent are in
range. -/
structure Scalable (n : Numeral) : Prop where
  whole : Digits.isWhole n.whole = true
  real : n.fraction ≠ [] ∨ n.power ≠ none
  coefficient : n.coefficient < UInt64.size
  power : (n.power.getD 0).natAbs < 2 ^ 31
  low : -616 ≤ n.exponent
  high : n.exponent ≤ 308

variable {n : Numeral} {x : Float} {d : Dyadic}

theorem Scalable.magnitude? (h : n.Scalable) :
    n.magnitude? = scale? n.coefficient n.exponent := by
  have hall := h.coefficient
  rw [Numeral.coefficient, Digits.value, List.foldl_append] at hall
  have hwhole := absorb_of_lt (Nat.lt_of_le_of_lt (Digits.le_foldl _ _) hall)
  have hfraction := absorb_of_lt hall
  have hpower : (n.power.getD 0).natAbs < Nat.pow 2 31 := h.power
  rw [Numeral.magnitude?]
  simp only [hwhole, hfraction]
  rw [Numeral.coefficient, Digits.value, List.foldl_append, exponent]
  cases hp : n.power with
  | none => simp
  | some p =>
    rw [hp, Option.getD_some] at hpower
    simp only [Option.getD_some]
    have hexponent : ((0 : ℕ) : ℤ) - ((n.fraction.length - 0 : ℕ) : ℤ) + p =
        p - n.fraction.length := by
      omega
    rw [if_pos hpower, hexponent]

theorem Scalable.quantity? (h : n.Scalable) :
    n.quantity? = (scale? n.coefficient n.exponent).map fun x =>
      .real (if n.negative then -x else x) := by
  have hinteger : n.integer? = none := by
    rw [integer?]
    dsimp only
    rw [if_pos]
    rcases h.real with hfraction | hpower
    · exact .inl hfraction
    · exact .inr (.inl hpower)
  rw [Numeral.quantity?, hinteger, h.magnitude?]

/-- A numeral is read as a number of the same sign if its digits are scaled to the magnitude. -/
theorem Scalable.reads_iff (h : n.Scalable) (hx : Binary64.ofFloat x = .finite d)
    (hsign : n.negative = d.negative) :
    n.quantity?.map Quantity.toFloat = some x ↔ Scaled n.coefficient d.magnitude n.exponent := by
  rw [h.quantity?, Option.map_map, hsign]
  cases hnegative : d.negative with
  | false =>
    rw [← scale?_eq_some_iff h.coefficient h.low h.high hx hnegative]
    show (scale? n.coefficient n.exponent).map id = some x ↔ _
    rw [Option.map_id_fun, id_eq]
  | true =>
    have hneg := ofFloat_neg hx
    rw [hnegative] at hneg
    have hscale := scale?_eq_some_iff h.coefficient h.low h.high hneg rfl
    refine Iff.trans ?_ hscale
    rw [Option.map_eq_some_iff]
    constructor
    · rintro ⟨y, hy, hyx⟩
      have hyx : -y = x := hyx
      obtain ⟨e, he⟩ := exists_of_isFinite (isFinite_of_scale? hy)
      rw [hy, ← hyx, neg_neg_of_ofFloat he]
    · exact fun hy => ⟨-x, hy, neg_neg_of_ofFloat hx⟩

end Numeral

/-! ## Printed numerals -/

namespace NumberStyle

variable {ds : List Nat} {point : ℤ} {negative : Bool} {d : Dyadic}

/-- Without an exponent the digits stay as they are, or they are filled up with zeros and there is
one zero after the point. -/
theorem positionalNumeral_cases (negative : Bool) (ds : List Nat) (point : ℤ) :
    let n := document.positionalNumeral negative ds point
    (n.coefficient = Digits.value ds ∧ n.exponent = point - ds.length) ∨
      ∃ k : ℕ, point = ds.length + k ∧ n.coefficient = Digits.value ds * 10 ^ (k + 1) ∧
        n.exponent = -1 := by
  dsimp only
  rw [positionalNumeral]
  split
  · next hpoint =>
    refine .inl ⟨?_, ?_⟩
    · show Digits.value (List.replicate 1 0 ++ (List.replicate (-point).toNat 0 ++ ds)) = _
      rw [Digits.value_zeros_append, Digits.value_zeros_append]
    · show (0 : ℤ) - (List.replicate (-point).toNat 0 ++ ds).length = _
      rw [List.length_append, List.length_replicate]
      omega
  · next hpoint =>
    obtain ⟨p, rfl⟩ := Int.eq_ofNat_of_zero_le (by omega : 0 ≤ point)
    rw [Int.toNat_natCast]
    by_cases hlength : ds.length ≤ p
    · refine .inr ⟨p - ds.length, by omega, ?_, ?_⟩
      · rw [Numeral.coefficient, List.drop_eq_nil_of_le hlength, List.take_of_length_le hlength]
        show Digits.value (ds ++ List.replicate (p - ds.length) 0 ++ List.replicate 1 0) = _
        rw [Digits.value_append_zeros, Digits.value_append_zeros, mul_assoc, ← pow_add]
      · rw [Numeral.exponent, List.drop_eq_nil_of_le hlength]
        rfl
    · have hdrop : (ds.drop p).isEmpty = false := by
        rw [List.isEmpty_eq_false_iff, Ne, List.drop_eq_nil_iff]
        exact hlength
      have hzeros : p - ds.length = 0 := by omega
      refine .inl ⟨?_, ?_⟩
      · rw [Numeral.coefficient]
        dsimp only
        rw [hdrop, hzeros, List.replicate_zero, List.append_nil]
        exact congrArg Digits.value (List.take_append_drop p ds)
      · rw [Numeral.exponent]
        dsimp only
        rw [hdrop]
        show (0 : ℤ) - (ds.drop p).length = _
        rw [List.length_drop]
        omega

theorem scientificNumeral_eq (negative : Bool) (hds : ds ≠ []) (point : ℤ) :
    (scientificNumeral negative ds point).coefficient = Digits.value ds ∧
      (scientificNumeral negative ds point).exponent = point - ds.length := by
  refine ⟨congrArg Digits.value (List.take_append_drop 1 ds), ?_⟩
  have hlength := List.length_pos_of_ne_nil hds
  show point - 1 - ((ds.drop 1).length : ℤ) = _
  rw [List.length_drop]
  omega

/-- A layout of a decimal: the digits are those of its coefficient, but for zeros at the end. -/
structure Lays (n : Numeral) (s : Decimal) : Prop where
  whole : Digits.isWhole n.whole = true
  real : n.fraction ≠ [] ∨ n.power ≠ none
  power : (n.power.getD 0).natAbs ≤ s.exponent.natAbs + 20
  digits : ∃ c k : ℕ, s.coefficient = c * 10 ^ k ∧
    ((n.coefficient = c ∧ n.exponent = s.exponent + k) ∨
      ∃ j : ℕ, j = s.exponent + k ∧ n.coefficient = c * 10 ^ (j + 1) ∧ n.coefficient < 10 ^ 17 ∧
        n.exponent = -1)

theorem lays_positionalNumeral {s : Decimal} {e : ℕ} {k : ℕ} (he : e ≠ 0)
    (hdecimal : Digits.Decimal (e :: ds)) (hs : s.coefficient = Digits.value (e :: ds) * 10 ^ k)
    (hpoint : point = s.exponent + ((e :: ds).length + k : ℕ)) (hle : point ≤ 16) :
    Lays (document.positionalNumeral negative (e :: ds) point) s := by
  have hpower : (document.positionalNumeral negative (e :: ds) point).power = none := by
    rw [positionalNumeral]
    split <;> rfl
  refine ⟨?_, .inl ?_, ?_, Digits.value (e :: ds), k, hs, ?_⟩
  · rw [positionalNumeral]
    split
    · rfl
    · next hpositive =>
      obtain ⟨p, hp⟩ : ∃ p, point.toNat = p + 1 := ⟨point.toNat - 1, by omega⟩
      rw [hp]
      exact Digits.isWhole_cons he _
  · rw [positionalNumeral]
    split
    · exact List.append_ne_nil_of_right_ne_nil _ (List.cons_ne_nil e ds)
    · dsimp only
      split
      · exact List.cons_ne_nil 0 []
      · next hempty =>
        intro hnil
        rw [hnil] at hempty
        exact hempty rfl
  · rw [hpower]
    exact Nat.zero_le _
  · rcases positionalNumeral_cases negative (e :: ds) point with
      ⟨hc, hexponent⟩ | ⟨j, hj, hc, hexponent⟩
    · exact .inl ⟨hc, by rw [hexponent, hpoint]; omega⟩
    · refine .inr ⟨j, by omega, hc, ?_, hexponent⟩
      rw [hc]
      calc
        _ < 10 ^ (e :: ds).length * 10 ^ (j + 1) :=
          Nat.mul_lt_mul_of_pos_right (Digits.value_lt hdecimal) (Nat.pow_pos (by decide))
        _ = 10 ^ ((e :: ds).length + (j + 1)) := (Nat.pow_add _ _ _).symm
        _ ≤ 10 ^ 17 := Nat.pow_le_pow_right (by decide) (by omega)

theorem lays_scientificNumeral {s : Decimal} {e : ℕ} {k : ℕ} (he : e ≠ 0)
    (hs : s.coefficient = Digits.value (e :: ds) * 10 ^ k)
    (hlength : (e :: ds).length + k ≤ 20)
    (hpoint : point = s.exponent + ((e :: ds).length + k : ℕ)) :
    Lays (scientificNumeral negative (e :: ds) point) s := by
  obtain ⟨hc, hexponent⟩ :=
    scientificNumeral_eq negative (List.cons_ne_nil e ds) point
  refine ⟨Digits.isWhole_cons he _, .inr (Option.some_ne_none _), ?_, _, k, hs, .inl ⟨hc, ?_⟩⟩
  · have hpos : 0 < (e :: ds).length := Nat.succ_pos _
    show (point - 1).natAbs ≤ _
    omega
  · rw [hexponent, hpoint]
    omega

theorem lays_finite (hd : d.Canonical) (he : d.exponent ≤ 971) (hpos : 0 < d.significand) :
    Lays (document.finite d) (d.shortest .even) := by
  have hcoefficient := d.coefficient_pos hpos (d.nearest_shortest .even hd he)
  have hlt := d.shortest_lt .even hd he
  have htie : document.tie = .even := rfl
  rw [finite, if_neg hpos.ne', htie]
  dsimp only
  generalize d.shortest .even = s at hcoefficient hlt ⊢
  obtain ⟨e, es, hsignificant, hnonzero⟩ := significant_ofNat hcoefficient
  obtain ⟨k, hk⟩ := exists_significant (Digits.ofNat s.coefficient)
  have hdecimal := decimal_significant (Digits.decimal_ofNat s.coefficient)
  have hvalue := Digits.value_ofNat s.coefficient
  have hlength : (Digits.ofNat s.coefficient).length ≤ 18 :=
    Digits.length_ofNat_le (by decide) (hlt.trans (by decide))
  rw [hsignificant] at hk hdecimal ⊢
  rw [hk, Digits.value_append_zeros] at hvalue
  rw [hk, List.length_append, List.length_replicate] at hlength ⊢
  split
  · next hpositional =>
    have hle := of_decide_eq_true (Bool.and_eq_true_iff.mp hpositional).2
    exact lays_positionalNumeral hnonzero hdecimal hvalue.symm rfl (by omega)
  · exact lays_scientificNumeral hnonzero hvalue.symm (by omega) rfl

theorem Lays.value_eq {n : Numeral} {s : Decimal} (h : Lays n s) : n.value = s.value := by
  obtain ⟨c, k, hs, ⟨hc, hexponent⟩ | ⟨j, hj, hc, -, hexponent⟩⟩ := h.digits
  · rw [Numeral.value, Decimal.value, hc, hexponent, hs, zpow_add₀ (by norm_num), zpow_natCast]
    push_cast
    ring
  · have hdecimal : s.exponent = j - k := by omega
    have hten : (10 : ℚ) ^ k ≠ 0 := by positivity
    rw [Numeral.value, Decimal.value, hc, hexponent, hs, hdecimal, zpow_sub₀ (by norm_num),
      zpow_natCast, zpow_natCast]
    push_cast
    rw [pow_succ, zpow_neg_one]
    field_simp

theorem finite_of_zero (h : d.significand = 0) :
    document.finite d = ⟨d.negative, [0], [0], none⟩ := by
  rw [finite, if_pos h]
  rfl

theorem scalable_zero (negative : Bool) : (Numeral.mk negative [0] [0] none).Scalable := by
  cases negative <;>
    exact ⟨rfl, .inl (List.cons_ne_nil 0 []), by decide, by decide, by decide, by decide⟩

theorem negative_positionalNumeral (negative : Bool) (ds : List Nat) (point : ℤ) :
    (document.positionalNumeral negative ds point).negative = negative := by
  rw [positionalNumeral]
  split <;> rfl

theorem negative_finite (d : Dyadic) : (document.finite d).negative = d.negative := by
  rw [finite]
  split
  · exact negative_positionalNumeral _ _ _
  · dsimp only
    split
    · exact negative_positionalNumeral _ _ _
    · rfl

/-- A printed numeral is rounded to the number. -/
theorem nearest_finite (hd : d.Canonical) (he : d.exponent ≤ 971) :
    d.Nearest (document.finite d).value := by
  rcases Nat.eq_zero_or_pos d.significand with hzero | hpos
  · have hvalue : (document.finite d).value = d.magnitude := by
      rw [finite_of_zero hzero, magnitude_of_zero hzero, Numeral.value]
      exact zero_mul _
    rw [hvalue]
    exact d.nearest_magnitude
  · rw [(lays_finite hd he hpos).value_eq]
    exact d.nearest_shortest .even hd he

theorem scalable_finite (hd : d.Canonical) (he : d.exponent ≤ 971) :
    (document.finite d).Scalable := by
  rcases Nat.eq_zero_or_pos d.significand with hzero | hpos
  · rw [finite_of_zero hzero]
    exact scalable_zero d.negative
  have hnearest := nearest_finite hd he
  have hlays := lays_finite hd he hpos
  have hlow := d.le_shortest_exponent .even hd he
  have hhigh := d.exponent_le hd he (d.coefficient_pos hpos (d.nearest_shortest .even hd he))
    (d.nearest_shortest .even hd he)
  have hlt := d.shortest_lt .even hd he
  have hsize : UInt64.size = 2 ^ 64 := rfl
  refine ⟨hlays.whole, hlays.real, ?_, ?_, ?_, ?_⟩
  · obtain ⟨c, k, hs, ⟨hc, -⟩ | ⟨j, -, -, hc, -⟩⟩ := hlays.digits
    · have hle : c ≤ c * 10 ^ k := Nat.le_mul_of_pos_right c (Nat.pow_pos (by decide))
      omega
    · omega
  · have hpower := hlays.power
    omega
  · obtain ⟨c, k, -, ⟨-, hexponent⟩ | ⟨j, -, -, -, hexponent⟩⟩ := hlays.digits
    · omega
    · omega
  · exact d.exponent_le hd he (d.coefficient_pos hpos hnearest) hnearest

end NumberStyle

end Treewalk
