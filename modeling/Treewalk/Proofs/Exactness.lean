import Mathlib
import Treewalk.Number.Binary64

/-!
# Natural numbers among binary64 numbers

A binary64 number is an exact rational number, unless it is an infinity or no number.  Among them
are the natural numbers that fit in its significand of fifty-three bits, and conversion gives
exactly these: the significand is moved up until it is full, and nothing has to be rounded.

## Main definitions

* `Dyadic.value`, `Number.Is` — the number that is stood for, and to be equal to a natural number.
* `Number.index?_eq_some_iff` — the natural number that is computed is the one it is equal to.
* `Number.toFloat_is` — a word below `2 ^ 53` is converted to the number that is equal to it.
-/

namespace Treewalk

/-! ## Values -/

namespace Dyadic

/-- The number itself. -/
def value (d : Dyadic) : ℚ :=
  let magnitude : ℚ := d.significand * 2 ^ d.exponent
  if d.negative then -magnitude else magnitude

theorem value_of_nonneg {d : Dyadic} (h : d.negative = false) :
    d.value = d.significand * 2 ^ d.exponent := by
  rw [value, h, if_neg Bool.false_ne_true]

theorem value_neg {d : Dyadic} (h : d.negative = true) (hzero : d.significand ≠ 0) :
    d.value < 0 := by
  rw [value, h, if_pos rfl, neg_lt_zero]
  positivity

/-- The natural number that is computed from the parts is the value. -/
theorem toNat?_eq_some_iff (d : Dyadic) (n : Nat) : d.toNat? = some n ↔ d.value = n := by
  rw [toNat?]
  split_ifs with hzero hneg hexp
  · have hvalue : d.value = 0 := by simp [value, hzero]
    rw [hvalue, Option.some_inj, eq_comm (a := (0 : ℚ)), Nat.cast_eq_zero, eq_comm]
  · have hvalue := value_neg hneg hzero
    refine iff_of_false nofun fun h => ?_
    rw [h] at hvalue
    exact absurd hvalue (not_lt.mpr n.cast_nonneg)
  · rw [Bool.not_eq_true] at hneg
    obtain ⟨e, he⟩ := Int.eq_ofNat_of_zero_le hexp
    rw [value_of_nonneg hneg, he, Option.some_inj]
    simp only [Int.toNat_natCast, zpow_natCast, Nat.pow_eq]
    norm_cast
  · rw [Bool.not_eq_true] at hneg
    obtain ⟨e, he⟩ := Int.eq_ofNat_of_zero_le (by omega : 0 ≤ -d.exponent)
    have hvalue : d.value = n ↔ d.significand = n * 2 ^ e := by
      rw [value_of_nonneg hneg, ← neg_neg d.exponent, he, zpow_neg, zpow_natCast,
        ← div_eq_mul_inv, div_eq_iff (by positivity)]
      norm_cast
    simp only [he, Int.toNat_natCast, Nat.pow_eq, hvalue]
    split_ifs with hunit
    · rw [Option.some_inj,
        Nat.div_eq_iff_eq_mul_left (by positivity) (Nat.dvd_of_mod_eq_zero hunit)]
    · refine iff_of_false nofun fun hsignificand => hunit ?_
      rw [hsignificand, Nat.mul_mod_left]

end Dyadic

namespace Number

/-- A binary64 number is equal to a natural number.  Both zeros are equal to zero. -/
def Is (x : Float) (n : Nat) : Prop := ∃ d, Binary64.ofFloat x = .finite d ∧ d.value = n

theorem index?_eq_some_iff (x : Float) (n : Nat) : index? x = some n ↔ Is x n := by
  rw [index?, Is]
  cases Binary64.ofFloat x with
  | finite d => simp [Dyadic.toNat?_eq_some_iff]
  | nan => simp
  | infinite negative => simp

/-! ## Conversion of words -/

open Float.Model Float.Model.UnpackedFloat

theorem log2_mul_two_pow {n : Nat} (h : n ≠ 0) (k : Nat) : (n * 2 ^ k).log2 = n.log2 + k := by
  rw [Nat.log2_eq_iff (by positivity)]
  constructor
  · rw [Nat.pow_add]
    exact Nat.mul_le_mul_right _ (Nat.log2_self_le h)
  · rw [Nat.add_right_comm, Nat.pow_add]
    exact Nat.mul_lt_mul_of_pos_right Nat.lt_log2_self (by positivity)

/-- A significand that is moved up by as many bits as it is short of. -/
theorem log2_full {n : Nat} (hpos : 0 < n) (hn : n < 2 ^ 53) :
    (n * 2 ^ (52 - n.log2)).log2 = 52 := by
  have hlog : n.log2 < 53 := (Nat.log2_lt hpos.ne').mpr hn
  rw [log2_mul_two_pow hpos.ne']
  omega

theorem bounds_full {n : Nat} (hpos : 0 < n) (hn : n < 2 ^ 53) :
    2 ^ 52 ≤ n * 2 ^ (52 - n.log2) ∧ n * 2 ^ (52 - n.log2) < 2 ^ 53 :=
  (Nat.log2_eq_iff (by positivity)).mp (log2_full hpos hn)

/-- A full significand stays as it is. -/
theorem shiftToTargetExponent_full {m : Nat} (hm : m.log2 = 52) {e : Int} (he : -1074 ≤ e) :
    shiftToTargetExponent Format.binary64 m e .exact = (⟨m, false, false⟩, e) := by
  have htarget : Format.binary64.targetExponent (totalExponent m e) = e := by
    simp only [Format.targetExponent, totalExponent, Format.mantissaBits, Format.minExponent, hm]
    omega
  simp only [shiftToTargetExponent, htarget, shiftToExponent, Int.sub_self]
  simp [ExtendedMantissa.ofMantissaAndAccuracy, HShiftRight.hShiftRight, Nat.repeat]

theorem roundWithAccuracy_full {m : Nat} (hm : m.log2 = 52) {e : Int} (he : -1074 ≤ e)
    (hpos : 0 < m) :
    roundWithAccuracy Format.binary64 .positive m e .exact = .finite .positive m e hpos := by
  simp [roundWithAccuracy, shiftToTargetExponent_full hm he, ExtendedMantissa.roundedMantissa,
    ExtendedMantissa.accuracy, Accuracy.roundToNearestEven, hpos.ne']

/-- Nothing is rounded: the significand is moved up until it is full. -/
theorem ofNat_full {n : Nat} (hpos : 0 < n) (hn : n < 2 ^ 53) :
    UnpackedFloat.ofNat Format.binary64 n =
      .finite .positive (n * 2 ^ (52 - n.log2)) ((n.log2 : Int) - 52)
        (Nat.mul_pos hpos (Nat.two_pow_pos _)) := by
  have hlog : n.log2 < 53 := (Nat.log2_lt hpos.ne').mpr hn
  have htarget : Format.binary64.targetExponent (totalExponent n 0) = (n.log2 : Int) - 52 := by
    simp only [Format.targetExponent, totalExponent, Format.mantissaBits, Format.minExponent]
    omega
  have hshift : (0 - ((n.log2 : Int) - 52)).toNat = 52 - n.log2 := by omega
  have hexponent : (0 : Int) - ((52 - n.log2 : Nat) : Int) = (n.log2 : Int) - 52 := by omega
  have hcompare : compare (n : Int) 0 = .gt := by
    rw [Int.compare_eq_gt]
    omega
  rw [UnpackedFloat.ofNat, UnpackedFloat.ofInt, UnpackedFloat.normalize, hcompare]
  simp only [Int.toNat_natCast, UnpackedFloat.round, htarget, decreaseExponent, hshift, hexponent,
    Nat.shiftLeft_eq]
  exact roundWithAccuracy_full (log2_full hpos hn) (by omega) _

/-- The sign, the exponent and the fraction of a pattern stand side by side. -/
theorem toNat_packComponents (s : Sign) {exponent fraction : Nat} (he : exponent < 2 ^ 11)
    (hf : fraction < 2 ^ 52) {m : Nat} (h : m % 2 ^ 52 = fraction) :
    (packComponents Format.binary64 s (BitVec.ofNat _ exponent) (BitVec.ofNat _ m)).toNat =
      s.toBitVec.toNat * 2 ^ 63 + (exponent * 2 ^ 52 + fraction) := by
  simp only [packComponents, BitVec.toNat_append, BitVec.toNat_ofNat]
  rw [Nat.mod_eq_of_lt he, h, ← Nat.shiftLeft_add_eq_or_of_lt he,
    ← Nat.shiftLeft_add_eq_or_of_lt hf, Nat.shiftLeft_eq, Nat.shiftLeft_eq]
  ring

theorem toBits_toFloat_eq (w : UInt64) :
    w.toFloat.toBits.toNat =
      (UnpackedFloat.pack Format.binary64 (UnpackedFloat.ofNat Format.binary64 w.toNat)).toNat :=
  rfl

/-- The pattern of a converted word. -/
theorem toBits_toFloat {w : UInt64} (hpos : 0 < w.toNat) (hw : w.toNat < 2 ^ 53) :
    w.toFloat.toBits.toNat =
      (w.toNat.log2 + 1023) * 2 ^ 52 + (w.toNat * 2 ^ (52 - w.toNat.log2) - 2 ^ 52) := by
  rw [toBits_toFloat_eq]
  generalize w.toNat = n at hpos hw
  have hlog : n.log2 < 53 := (Nat.log2_lt hpos.ne').mpr hw
  obtain ⟨hlow, hhigh⟩ := bounds_full hpos hw
  have hbiased : ((n.log2 : Int) - 52 + (Format.binary64.exponentBias : Int) + (52 : Nat)).toNat =
      n.log2 + 1023 := by
    simp only [Format.exponentBias]
    omega
  rw [ofNat_full hpos hw]
  simp only [UnpackedFloat.pack, log2_full hpos hw, hbiased]
  rw [if_neg (by simp; omega), if_pos (by rfl)]
  exact (toNat_packComponents .positive (by omega) (by omega) (by omega)).trans (Nat.zero_add _)

/-- A pattern with an exponent of a number that is not subnormal. -/
theorem ofFloat_of_toBits {x : Float} {exponent fraction : Nat}
    (hbits : x.toBits.toNat = exponent * 2 ^ 52 + fraction) (hpos : 0 < exponent)
    (hexponent : exponent < 2047) (hfraction : fraction < 2 ^ 52) :
    Binary64.ofFloat x = .finite ⟨false, fraction + 2 ^ 52, (exponent : Int) - 1075⟩ := by
  have hsign : decide (Binary64.signBit ≤ x.toBits.toNat) = false := by
    rw [decide_eq_false_iff_not, hbits, Binary64.signBit, Nat.pow_eq]
    omega
  have hbiased : x.toBits.toNat / Binary64.hiddenBit % 2048 = exponent := by
    rw [hbits, Binary64.hiddenBit, Nat.pow_eq]
    omega
  have hrest : x.toBits.toNat % Binary64.hiddenBit = fraction := by
    rw [hbits, Binary64.hiddenBit, Nat.pow_eq]
    omega
  simp only [Binary64.ofFloat, hsign, hbiased, hrest]
  rw [if_neg (by omega), if_neg (by omega), Binary64.hiddenBit, Nat.pow_eq]

/-- A word that fits in the significand is converted exactly. -/
theorem toFloat_is {w : UInt64} (hw : w.toNat < 2 ^ 53) : Is w.toFloat w.toNat := by
  by_cases hzero : w.toNat = 0
  · obtain rfl : w = 0 := UInt64.toNat_inj.mp hzero
    exact ⟨⟨false, 0, -1074⟩, rfl, by simp [Dyadic.value]⟩
  · have hpos : 0 < w.toNat := Nat.pos_of_ne_zero hzero
    have hbits := toBits_toFloat hpos hw
    generalize w.toNat = n at *
    have hlog : n.log2 < 53 := (Nat.log2_lt hpos.ne').mpr hw
    obtain ⟨hlow, hhigh⟩ := bounds_full hpos hw
    have hexponent : ((n.log2 + 1023 : Nat) : Int) - 1075 = -((52 - n.log2 : Nat) : Int) := by omega
    refine ⟨_, ofFloat_of_toBits hbits (by omega) (by omega) (by omega), ?_⟩
    rw [Dyadic.value_of_nonneg rfl, Nat.sub_add_cancel hlow, hexponent, zpow_neg, zpow_natCast,
      Nat.cast_mul, Nat.cast_pow]
    exact mul_inv_cancel_right₀ (by positivity) _

end Number

end Treewalk
