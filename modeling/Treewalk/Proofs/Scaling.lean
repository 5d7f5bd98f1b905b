import Mathlib
import Treewalk.Number.Quantity
import Treewalk.Proofs.Rounding

/-!
# Scaling rounds twice or three times

The value of a numeral is found from its digits in steps: the digits make a number, which is
rounded; the power of ten is rounded; and the product or the quotient of both is rounded once more.
Below the least power of ten there are two quotients.  What comes out is a function of two integers,
and here it is told in terms of rational numbers alone.

## Main definitions

* `Numeral.Scaled` — what the steps give, as rational numbers.
* `Numeral.exists_powerOfTen` — the powers of ten are rounded.
* `Numeral.scale?_eq_some_iff` — scaling takes these steps.
* `Numeral.scaled_iff_of_exact` — few digits and a small power of ten are rounded once.
-/

namespace Treewalk.Numeral

open Number
open Float.Model Float.Model.UnpackedFloat

/-- The steps of scaling `coefficient · 10 ^ exponent`, each of which rounds. -/
inductive Scaled (c : ℕ) (r : ℚ) : ℤ → Prop where
  /-- A product with a power of ten. -/
  | up {k : ℕ} {a p : ℚ} : RoundsTo c a → RoundsTo (10 ^ k) p → RoundsTo (a * p) r → Scaled c r k
  /-- A quotient by a power of ten. -/
  | down {k : ℕ} {a p : ℚ} : 0 < k → k ≤ 308 → RoundsTo c a → RoundsTo (10 ^ k) p →
    RoundsTo (a / p) r → Scaled c r (-k)
  /-- A quotient by the largest power of ten and another one by what is left. -/
  | twice {k : ℕ} {a p b s : ℚ} : 0 < k → RoundsTo c a → RoundsTo (10 ^ 308) p →
    RoundsTo (a / p) b → RoundsTo (10 ^ k) s → RoundsTo (b / s) r → Scaled c r (-(308 + k))

/-! ## Powers of ten -/

/-- The powers of five in the table have no more than fifty-three bits. -/
theorem ofFloat_powerOfTen : ∀ k ≤ 22, Binary64.ofFloat (powerOfTen k) =
    .finite ⟨false, 5 ^ k * 2 ^ (52 - (5 ^ k).log2), k + (5 ^ k).log2 - 52⟩ := by
  decide +kernel

/-- The powers of ten in the table are exact. -/
theorem exact_powerOfTen {k : ℕ} (hk : k ≤ 22) : ∃ p : Dyadic,
    Binary64.ofFloat (powerOfTen k) = .finite p ∧ p.negative = false ∧ p.magnitude = 10 ^ k := by
  have hlog : ∀ k ≤ 22, (5 ^ k).log2 ≤ 52 := by decide
  have hexponent : (k : ℤ) + (5 ^ k).log2 - 52 = k - ((52 - (5 ^ k).log2 : ℕ) : ℤ) := by
    have := hlog k hk
    omega
  refine ⟨_, ofFloat_powerOfTen k hk, rfl, ?_⟩
  have hpow : (2 : ℚ) ^ (52 - (5 ^ k).log2) ≠ 0 := pow_ne_zero _ two_ne_zero
  rw [Dyadic.magnitude, hexponent, zpow_sub₀ two_ne_zero, zpow_natCast, zpow_natCast]
  push_cast
  rw [mul_assoc, mul_div_cancel₀ _ hpow, ← mul_pow]
  norm_num

theorem rounded_powerOfTen {k : ℕ} (hk : k ≤ 308) : Rounded (powerOfTen k) (10 ^ k) := by
  by_cases hsmall : k ≤ 22
  · obtain ⟨p, hp, hsign, hvalue⟩ := exact_powerOfTen hsmall
    exact hvalue ▸ rounded_of_ofFloat hp hsign
  · have hlog : 52 ≤ (1 <<< 53 * 10 ^ k).log2 := by
      have hten : 0 < 10 ^ k := Nat.pow_pos (by decide)
      refine (Nat.le_log2 (Nat.mul_pos (by decide) hten).ne').mpr ?_
      exact (by decide : 2 ^ 52 ≤ 1 <<< 53).trans (Nat.le_mul_of_pos_right _ hten)
    have hle : (-53 : ℤ) ≤
        Format.binary64.targetExponent (totalExponent (1 <<< 53 * 10 ^ k) (-53)) := by
      rw [targetExponent_eq, totalExponent]
      omega
    have hscale : (10 : ℚ) ^ k = (1 <<< 53 * 10 ^ k : ℕ) * 2 ^ (-53 : ℤ) := by
      have hplace : (2 : ℚ) ^ 53 * 2 ^ (-53 : ℤ) = 1 := by norm_num
      rw [Nat.shiftLeft_eq, Nat.one_mul, Nat.cast_mul, Nat.cast_pow, Nat.cast_pow, Nat.cast_two,
        mul_right_comm, hplace, one_mul, Nat.cast_ofNat]
    rw [powerOfTen_eq (by omega) hk, hscale]
    exact rounded_pack (nearest_roundWithAccuracy (tells_exact _) hle)

theorem exists_powerOfTen {k : ℕ} (hk : k ≤ 308) :
    ∃ p : Dyadic, Binary64.ofFloat (powerOfTen k) = .finite p ∧ p.negative = false ∧
      RoundsTo (10 ^ k) p.magnitude ∧ 0 < p.significand := by
  have hone := atLeastOne_powerOfTen hk
  obtain ⟨p, hp, hsign, hrounds⟩ :=
    (rounded_powerOfTen hk).exists_finite ((isFinite_iff_unpack _).mpr hone.isFinite)
  refine ⟨p, hp, hsign, hrounds, Nat.pos_of_ne_zero fun hzero => ?_⟩
  rw [unpack_of_ofFloat hp, unpacked_of_zero hsign hzero] at hone
  cases hone

/-! ## Steps -/

section

variable {c k : ℕ} {a p b s r : ℚ}

theorem scaled_up_iff (ha : RoundsTo c a) (hp : RoundsTo (10 ^ k) p) :
    Scaled c r k ↔ RoundsTo (a * p) r := by
  constructor
  · intro h
    generalize he : (k : ℤ) = e at h
    cases h with
    | @up k' a' p' ha' hp' hr =>
      obtain rfl : k = k' := by omega
      rw [ha.unique ha', hp.unique hp']
      exact hr
    | down | twice => omega
  · exact .up ha hp

theorem scaled_down_iff (hpos : 0 < k) (hk : k ≤ 308) (ha : RoundsTo c a)
    (hp : RoundsTo (10 ^ k) p) : Scaled c r (-k) ↔ RoundsTo (a / p) r := by
  constructor
  · intro h
    generalize he : -(k : ℤ) = e at h
    cases h with
    | @down k' a' p' hpos' hk' ha' hp' hr =>
      obtain rfl : k = k' := by omega
      rw [ha.unique ha', hp.unique hp']
      exact hr
    | up | twice => omega
  · exact .down hpos hk ha hp

theorem scaled_twice_iff (hpos : 0 < k) (ha : RoundsTo c a) (hp : RoundsTo (10 ^ 308) p)
    (hb : RoundsTo (a / p) b) (hs : RoundsTo (10 ^ k) s) :
    Scaled c r (-(308 + k)) ↔ RoundsTo (b / s) r := by
  constructor
  · intro h
    generalize he : -(308 + (k : ℤ)) = e at h
    cases h with
    | @twice k' a' p' b' s' hpos' ha' hp' hb' hs' hr =>
      obtain rfl : k = k' := by omega
      rw [← ha.unique ha', ← hp.unique hp'] at hb'
      rw [hb.unique hb', hs.unique hs']
      exact hr
    | up | down => omega
  · exact .twice hpos ha hp hb hs

end

/-! ## Scaling -/

variable {c k : ℕ} {e : ℤ} {x : Float} {d : Dyadic}

theorem exists_coefficient (hc : c < UInt64.size) :
    ∃ a : Dyadic, Binary64.ofFloat (UInt64.ofNat c).toFloat = .finite a ∧ a.negative = false ∧
      RoundsTo c a.magnitude := by
  have hrounded := rounded_toFloat (UInt64.ofNat c)
  rw [UInt64.toNat_ofNat_of_lt' hc] at hrounded
  exact hrounded.exists_finite (isFinite_of_below (below_toFloat _))

theorem scale?_up (hc : c < UInt64.size) (hk : k ≤ 308) (hx : Binary64.ofFloat x = .finite d)
    (hsign : d.negative = false) : scale? c k = some x ↔ Scaled c d.magnitude k := by
  obtain ⟨a, hafloat, hasign, ha⟩ := exists_coefficient hc
  obtain ⟨p, hpfloat, hpsign, hp, -⟩ := exists_powerOfTen hk
  rw [scaled_up_iff ha hp, ← (rounded_mul hafloat hasign hpfloat hpsign).eq_iff hx hsign, scale?,
    Int.natAbs_natCast, if_pos (Int.natCast_nonneg k), if_neg (not_lt.mpr hk)]
  dsimp only
  constructor
  · intro h
    split at h
    · cases h
    · exact Option.some.inj h
  · intro h
    rw [h, isInf_of_ofFloat hx, if_neg Bool.false_ne_true]

theorem scale?_down (hc : c < UInt64.size) (hpos : 0 < k) (hk : k ≤ 308)
    (hx : Binary64.ofFloat x = .finite d) (hsign : d.negative = false) :
    scale? c (-k) = some x ↔ Scaled c d.magnitude (-k) := by
  obtain ⟨a, hafloat, hasign, ha⟩ := exists_coefficient hc
  obtain ⟨p, hpfloat, hpsign, hp, hppos⟩ := exists_powerOfTen hk
  rw [scaled_down_iff hpos hk ha hp,
    ← (rounded_div hafloat hasign hpfloat hpsign hppos).eq_iff hx hsign, scale?, Int.natAbs_neg,
    Int.natAbs_natCast, if_neg (by omega), if_pos hk]
  exact Option.some_inj

theorem scale?_twice (hc : c < UInt64.size) (hpos : 0 < k) (hk : k ≤ 308)
    (hx : Binary64.ofFloat x = .finite d) (hsign : d.negative = false) :
    scale? c (-(308 + k)) = some x ↔ Scaled c d.magnitude (-(308 + k)) := by
  obtain ⟨a, hafloat, hasign, ha⟩ := exists_coefficient hc
  obtain ⟨p, hpfloat, hpsign, hp, hppos⟩ := exists_powerOfTen le_rfl
  obtain ⟨s, hsfloat, hssign, hs, hspos⟩ := exists_powerOfTen hk
  have hfinite : isFinite ((UInt64.ofNat c).toFloat / powerOfTen 308) = true :=
    isFinite_of_below (below_unpack_div (below_toFloat _) (by decide) (by decide)
      (atLeastOne_powerOfTen le_rfl))
  obtain ⟨b, hbfloat, hbsign, hb⟩ :=
    (rounded_div hafloat hasign hpfloat hpsign hppos).exists_finite hfinite
  have habs : (-(308 + (k : ℤ))).natAbs = 308 + k := by omega
  rw [scaled_twice_iff hpos ha hp hb hs,
    ← (rounded_div hbfloat hbsign hsfloat hssign hspos).eq_iff hx hsign, scale?, habs,
    if_neg (by omega), if_neg (by omega), if_pos (by omega), Nat.add_sub_cancel_left]
  exact Option.some_inj

/-- Scaling takes the steps, as far as the powers of ten go. -/
theorem scale?_eq_some_iff (hc : c < UInt64.size) (hlow : -616 ≤ e) (hhigh : e ≤ 308)
    (hx : Binary64.ofFloat x = .finite d) (hsign : d.negative = false) :
    scale? c e = some x ↔ Scaled c d.magnitude e := by
  by_cases hnonneg : 0 ≤ e
  · obtain ⟨k, rfl⟩ := Int.eq_ofNat_of_zero_le hnonneg
    exact scale?_up hc (by omega) hx hsign
  by_cases honce : -308 ≤ e
  · obtain ⟨k, hk⟩ := Int.eq_ofNat_of_zero_le (by omega : 0 ≤ -e)
    obtain rfl : e = -k := by omega
    exact scale?_down hc (by omega) (by omega) hx hsign
  · obtain ⟨k, hk⟩ := Int.eq_ofNat_of_zero_le (by omega : 0 ≤ -308 - e)
    obtain rfl : e = -(308 + k) := by omega
    exact scale?_twice hc (by omega) (by omega) hx hsign

/-! ## Numerals that are rounded once -/

theorem roundsTo_powerOfTen (hk : k ≤ 22) : RoundsTo (10 ^ k) (10 ^ k) := by
  obtain ⟨p, hp, -, hvalue⟩ := exact_powerOfTen hk
  exact hvalue ▸ roundsTo_magnitude (ofFloat_eq_finite_iff.mp hp).1

theorem roundsTo_natCast (hc : c < 2 ^ 53) : RoundsTo c c := by
  rcases Nat.eq_zero_or_pos c with rfl | hpos
  · have hd : (Dyadic.mk false 0 (-1074)).Canonical := ⟨Nat.two_pow_pos 53, le_rfl, .inr rfl⟩
    have hzero := roundsTo_magnitude hd
    rw [magnitude_of_zero rfl] at hzero
    rwa [Nat.cast_zero]
  · obtain ⟨hlow, hhigh⟩ := bounds_full hpos hc
    have hlog : c.log2 < 53 := (Nat.log2_lt hpos.ne').mpr hc
    have hd : (Dyadic.mk false (c * 2 ^ (52 - c.log2)) (c.log2 - 52)).Canonical :=
      ⟨hhigh, by show (-1074 : ℤ) ≤ c.log2 - 52; omega, .inl hlow⟩
    have hexponent : (c.log2 : ℤ) - 52 = -((52 - c.log2 : ℕ) : ℤ) := by omega
    have hexact := roundsTo_magnitude hd
    have hpow : (2 : ℚ) ^ (52 - c.log2) ≠ 0 := pow_ne_zero _ two_ne_zero
    rw [Dyadic.magnitude, hexponent, zpow_neg, zpow_natCast, Nat.cast_mul, Nat.cast_pow,
      Nat.cast_two, mul_assoc, mul_inv_cancel₀ hpow, mul_one] at hexact
    exact hexact

/-- If the digits and the power of ten are exact, only the last step rounds. -/
theorem scaled_iff_of_exact {r : ℚ} (hc : c < 2 ^ 53) (he : e.natAbs ≤ 22) :
    Scaled c r e ↔ RoundsTo (c * 10 ^ e) r := by
  have ha := roundsTo_natCast hc
  by_cases hnonneg : 0 ≤ e
  · obtain ⟨k, rfl⟩ := Int.eq_ofNat_of_zero_le hnonneg
    exact (scaled_up_iff ha (roundsTo_powerOfTen (by omega))).trans (by rw [zpow_natCast])
  · obtain ⟨k, hk⟩ := Int.eq_ofNat_of_zero_le (by omega : 0 ≤ -e)
    obtain rfl : e = -k := by omega
    rw [scaled_down_iff (by omega) (by omega) ha (roundsTo_powerOfTen (by omega)), zpow_neg,
      zpow_natCast, div_eq_mul_inv]

end Treewalk.Numeral
