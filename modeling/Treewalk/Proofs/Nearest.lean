import Mathlib
import Treewalk.Number.Shortest
import Treewalk.Proofs.Exactness

/-!
# The nearest binary64 number

A rational number is rounded to the dyadic number that is nearest to it among those with a
significand of fifty-three bits, or of fewer at the exponent of the subnormal numbers; of two that
are equally near it is the one with the even significand.  Exponents are not bounded from above
here: what is too large is an infinity only when it is packed.

The rational numbers that round to a dyadic number are those in its rounding interval.  The
intervals of two dyadic numbers meet only in the middle between them, and there one of the two
significands is odd.

## Main definitions

* `Dyadic.Canonical`, `Dyadic.magnitude` — stored significands, and numbers without sign.
* `Dyadic.Nearest` — a rational number lies in the rounding interval.
* `Dyadic.Nearest.unique` — one number is nearest.
-/

namespace Treewalk.Dyadic

/-- The significand has fifty-three bits, or fewer at the exponent of the subnormal numbers. -/
structure Canonical (d : Dyadic) : Prop where
  lt : d.significand < 2 ^ 53
  le : -1074 ≤ d.exponent
  full : 2 ^ 52 ≤ d.significand ∨ d.exponent = -1074

/-- The number without its sign. -/
def magnitude (d : Dyadic) : ℚ := d.significand * 2 ^ d.exponent

/-- A quarter of the last place. -/
def quarter (d : Dyadic) : ℚ := 2 ^ (d.exponent - 2)

/-- A rational number lies in the rounding interval.  The ends of the interval belong to it if the
significand is even. -/
structure Nearest (d : Dyadic) (q : ℚ) : Prop where
  lower : d.lower * d.quarter ≤ q
  upper : q ≤ d.upper * d.quarter
  inside : d.significand % 2 = 1 → d.lower * d.quarter < q ∧ q < d.upper * d.quarter

variable {d d' : Dyadic} {q : ℚ}

theorem quarter_pos (d : Dyadic) : 0 < d.quarter := by
  unfold quarter
  positivity

theorem magnitude_eq (d : Dyadic) : d.magnitude = (4 * d.significand : ℕ) * d.quarter := by
  have hplace : (2 : ℚ) ^ d.exponent = 4 * d.quarter := by
    rw [quarter, zpow_sub₀ two_ne_zero]
    ring
  rw [magnitude, hplace]
  push_cast
  ring

theorem lower_le (d : Dyadic) : d.lower ≤ 4 * d.significand := by
  unfold lower
  split <;> omega

theorem le_lower_add (d : Dyadic) : 4 * d.significand ≤ d.lower + 2 := by
  unfold lower
  split <;> omega

theorem nearest_magnitude (d : Dyadic) : d.Nearest d.magnitude := by
  have hpos := d.quarter_pos
  have hlower : (d.lower : ℚ) ≤ (4 * d.significand : ℕ) := Nat.cast_le.mpr d.lower_le
  have hupper : ((4 * d.significand : ℕ) : ℚ) < d.upper := Nat.cast_lt.mpr (by unfold upper; omega)
  rw [magnitude_eq]
  refine ⟨mul_le_mul_of_nonneg_right hlower hpos.le, (mul_lt_mul_of_pos_right hupper hpos).le,
    fun hodd => ⟨?_, mul_lt_mul_of_pos_right hupper hpos⟩⟩
  have hstrict : d.lower < 4 * d.significand := by
    unfold lower
    split <;> omega
  exact mul_lt_mul_of_pos_right (Nat.cast_lt.mpr hstrict) hpos

/-- The sign does not matter. -/
theorem Nearest.congr (h : d.Nearest q) (hsignificand : d.significand = d'.significand)
    (hexponent : d.exponent = d'.exponent) : d'.Nearest q := by
  have hlower : d.lower = d'.lower := by
    rw [Dyadic.lower, Dyadic.lower, hsignificand, hexponent]
  have hupper : d.upper = d'.upper := by
    rw [Dyadic.upper, Dyadic.upper, hsignificand]
  have hquarter : d.quarter = d'.quarter := by
    rw [quarter, quarter, hexponent]
  obtain ⟨hle, hge, hinside⟩ := h
  rw [hlower, hquarter] at hle
  rw [hupper, hquarter] at hge
  rw [hlower, hupper, hquarter, hsignificand] at hinside
  exact ⟨hle, hge, hinside⟩

/-! ## Two dyadic numbers -/

/-- The larger exponent makes the larger number. -/
theorem Canonical.magnitude_lt (hd : d.Canonical) (hd' : d'.Canonical)
    (h : d.exponent < d'.exponent) : d.magnitude < d'.magnitude := by
  obtain ⟨k, hk⟩ := Int.eq_ofNat_of_zero_le (by omega : 0 ≤ d'.exponent - d.exponent - 1)
  have hfull : 2 ^ 52 ≤ d'.significand := hd'.full.resolve_right (by have := hd.le; omega)
  have hpow : 2 ≤ 2 ^ (k + 1) := Nat.le_self_pow (Nat.succ_ne_zero k) 2
  have hlt : d.significand < d'.significand * 2 ^ (k + 1) :=
    Nat.lt_of_lt_of_le hd.lt (Nat.mul_le_mul hfull hpow)
  have hexponent : d'.exponent = ((k + 1 : ℕ) : ℤ) + d.exponent := by
    push_cast
    omega
  rw [magnitude, magnitude, hexponent, zpow_add₀ two_ne_zero, zpow_natCast, ← mul_assoc]
  refine mul_lt_mul_of_pos_right ?_ (by positivity)
  exact_mod_cast hlt

/-- The smaller of two numbers has the smaller exponent, or the smaller significand. -/
theorem Canonical.lt_cases (hd : d.Canonical) (hd' : d'.Canonical)
    (h : d.magnitude < d'.magnitude) :
    (d.exponent = d'.exponent ∧ d.significand < d'.significand) ∨ d.exponent < d'.exponent := by
  rcases lt_trichotomy d.exponent d'.exponent with hlt | heq | hgt
  · exact .inr hlt
  · refine .inl ⟨heq, ?_⟩
    rw [magnitude, magnitude, heq] at h
    exact Nat.cast_lt.mp (lt_of_mul_lt_mul_right h (by positivity))
  · exact absurd (hd'.magnitude_lt hd hgt) h.not_gt

theorem Canonical.eq_of_magnitude (hd : d.Canonical) (hd' : d'.Canonical)
    (h : d.magnitude = d'.magnitude) :
    d.significand = d'.significand ∧ d.exponent = d'.exponent := by
  rcases lt_trichotomy d.exponent d'.exponent with hlt | heq | hgt
  · exact absurd h (hd.magnitude_lt hd' hlt).ne
  · refine ⟨?_, heq⟩
    rw [magnitude, magnitude, heq] at h
    exact Nat.cast_injective (mul_right_cancel₀ (by positivity) h)
  · exact absurd h (hd'.magnitude_lt hd hgt).ne'

/-- What is left of the comparison of two rounding intervals when they are measured in the same
quarters: `p` quarters of the first number make up one of the second. -/
structure Apart (d d' : Dyadic) (p : Nat) : Prop where
  middle : d.upper ≤ 2 * d.significand + 2 * d'.significand * p
  lower : 2 * d.significand + 2 * d'.significand * p ≤ d'.lower * p
  odd : d.upper = d'.lower * p → d.significand % 2 = 1 ∨ d'.significand % 2 = 1

theorem apart_of_eq (h : d.significand < d'.significand) : Apart d d' 1 where
  middle := by
    unfold upper
    omega
  lower := by
    have := d'.le_lower_add
    omega
  odd heq := by
    unfold upper lower at heq
    split at heq <;> omega

theorem Canonical.apart_of_lt (hd : d.Canonical) (hd' : d'.Canonical)
    (h : d.exponent < d'.exponent) {p : Nat} (hp : 2 ≤ p) : Apart d d' p := by
  have hlt := hd.lt
  have hfull : 2 ^ 52 ≤ d'.significand := hd'.full.resolve_right (by have := hd.le; omega)
  -- next to the smallest significand the interval is shorter, and so it keeps its distance
  have hlower : 2 * d'.significand + (2 ^ 53 - 1) ≤ d'.lower := by
    have hexponent : -1074 < d'.exponent := lt_of_le_of_lt hd.le h
    have hhidden : Binary64.hiddenBit = 2 ^ 52 := rfl
    unfold lower
    split <;> omega
  have hscaled : (2 * d'.significand + (2 ^ 53 - 1)) * p ≤ d'.lower * p :=
    Nat.mul_le_mul_right p hlower
  have hsignificand : 2 ^ 52 * 2 ≤ d'.significand * p := Nat.mul_le_mul hfull hp
  rw [Nat.add_mul, Nat.mul_assoc] at hscaled
  refine ⟨?_, ?_, fun heq => .inl ?_⟩
  · unfold upper
    rw [Nat.mul_assoc]
    omega
  · rw [Nat.mul_assoc]
    omega
  · unfold upper at heq
    omega

theorem Canonical.exists_apart (hd : d.Canonical) (hd' : d'.Canonical)
    (h : d.magnitude < d'.magnitude) :
    ∃ p : Nat, d'.quarter = p * d.quarter ∧ Apart d d' p := by
  obtain ⟨hexponent, hlt⟩ | hlt := hd.lt_cases hd' h
  · refine ⟨1, ?_, apart_of_eq hlt⟩
    rw [quarter, quarter, hexponent, Nat.cast_one, one_mul]
  · obtain ⟨k, hk⟩ := Int.eq_ofNat_of_zero_le (by omega : 0 ≤ d'.exponent - d.exponent)
    have hp : 2 ≤ 2 ^ k := Nat.le_self_pow (by omega) 2
    refine ⟨2 ^ k, ?_, hd.apart_of_lt hd' hlt hp⟩
    have hexponent : d'.exponent - 2 = (k : ℤ) + (d.exponent - 2) := by omega
    rw [quarter, quarter, hexponent, zpow_add₀ two_ne_zero, zpow_natCast, Nat.cast_pow,
      Nat.cast_two]

/-- Two rounding intervals can meet only in the middle between the numbers, and there one of the
significands is odd. -/
theorem Canonical.middle (hd : d.Canonical) (hd' : d'.Canonical) (h : d.magnitude < d'.magnitude) :
    d.upper * d.quarter ≤ (d.magnitude + d'.magnitude) / 2 ∧
      (d.magnitude + d'.magnitude) / 2 ≤ d'.lower * d'.quarter ∧
      (d.upper * d.quarter = d'.lower * d'.quarter →
        d.significand % 2 = 1 ∨ d'.significand % 2 = 1) := by
  obtain ⟨p, hp, hapart⟩ := hd.exists_apart hd' h
  have hpos := d.quarter_pos
  have hmiddle : (d.magnitude + d'.magnitude) / 2 =
      (2 * d.significand + 2 * d'.significand * p : ℕ) * d.quarter := by
    rw [magnitude_eq, magnitude_eq, hp]
    push_cast
    ring
  have hlower : d'.lower * d'.quarter = (d'.lower * p : ℕ) * d.quarter := by
    rw [hp]
    push_cast
    ring
  rw [hmiddle, hlower]
  refine ⟨mul_le_mul_of_nonneg_right (Nat.cast_le.mpr hapart.middle) hpos.le,
    mul_le_mul_of_nonneg_right (Nat.cast_le.mpr hapart.lower) hpos.le, fun heq => hapart.odd ?_⟩
  exact Nat.cast_injective (mul_right_cancel₀ hpos.ne' heq)

/-! ## The nearest number -/

theorem Nearest.magnitude_le (hd : d.Canonical) (hd' : d'.Canonical) (h : d.Nearest q)
    (h' : d'.Nearest q) : d'.magnitude ≤ d.magnitude := by
  by_contra hlt
  obtain ⟨hupper, hlower, hodd⟩ := hd.middle hd' (lt_of_not_ge hlt)
  have heq : d.upper * d.quarter = d'.lower * d'.quarter :=
    le_antisymm (hupper.trans hlower) (h'.lower.trans h.upper)
  obtain hodd | hodd := hodd heq
  · exact absurd (heq ▸ h'.lower) (not_le.mpr (h.inside hodd).2)
  · exact absurd (heq ▸ h.upper) (not_le.mpr (h'.inside hodd).1)

/-- There is one nearest number only. -/
theorem Nearest.unique (hd : d.Canonical) (hd' : d'.Canonical) (h : d.Nearest q)
    (h' : d'.Nearest q) : d.significand = d'.significand ∧ d.exponent = d'.exponent :=
  hd.eq_of_magnitude hd'
    (le_antisymm (h'.magnitude_le hd' hd h) (h.magnitude_le hd hd' h'))

end Treewalk.Dyadic
