import Mathlib
import Treewalk.Number.Quantity
import Treewalk.Proofs.Patterns

/-!
# The operations of the reader round to the nearest number

Conversion of words, multiplication and division are told of the logical model of `Float`: an exact
result is cut off after some bits, with two bits for what is lost, and rounded by them.  Here each
of these operations is shown to give the number that is nearest to the exact result.

## Main definitions

* `Number.Tells` — what a cut significand tells of a rational number.
* `Number.Rounded` — a number is the one that a rational number is rounded to.
* `Number.rounded_mul`, `Number.rounded_div`, `Number.rounded_toFloat` — the operations.
* `Number.Rounded.ofFloat_eq_iff` — a rounded number is told by its rounding interval.
-/

namespace Treewalk.Number

open Float.Model Float.Model.UnpackedFloat

/-! ## Cut significands -/

/-- A rational number begins with the bits of a significand.  The next bit is the round bit, and the
sticky bit tells whether any bit after that is set. -/
structure Tells (em : ExtendedMantissa) (v : ℚ) : Prop where
  le : em.mantissa ≤ v
  lt : v < em.mantissa + 1
  round : em.roundBit = true ↔ em.mantissa + 1 / 2 ≤ v
  sticky : em.stickyBit = true ↔ v ≠ em.mantissa ∧ v ≠ em.mantissa + 1 / 2

variable {em : ExtendedMantissa} {v : ℚ}

/-- Any bit that is lost is in one of the two. -/
theorem Tells.lost_iff (h : Tells em v) :
    (em.roundBit || em.stickyBit) = true ↔ v ≠ em.mantissa := by
  rw [Bool.or_eq_true, h.round, h.sticky]
  constructor
  · rintro (hv | ⟨hv, -⟩)
    · linarith
    · exact hv
  · intro hv
    by_cases hhalf : v = em.mantissa + 1 / 2
    · exact .inl hhalf.ge
    · exact .inr ⟨hv, hhalf⟩

/-- One bit more is cut off. -/
theorem Tells.shiftRightOne (h : Tells em v) : Tells em.shiftRightOne (v / 2) := by
  have hmantissa : em.shiftRightOne.mantissa = em.mantissa / 2 := rfl
  have hround : em.shiftRightOne.roundBit = true ↔ em.mantissa % 2 = 1 := by
    have hbit : em.shiftRightOne.roundBit = (em.mantissa % 2 != 0) := rfl
    rw [hbit, bne_iff_ne]
    omega
  have hsticky : em.shiftRightOne.stickyBit = true ↔ v ≠ em.mantissa := h.lost_iff
  have hle := h.le
  have hlt := h.lt
  have hcast : (em.mantissa : ℚ) = 2 * (em.mantissa / 2 : ℕ) + (em.mantissa % 2 : ℕ) := by
    exact_mod_cast (Nat.div_add_mod em.mantissa 2).symm
  rw [hcast] at hle hlt hsticky
  -- the bit that is cut off last decides both the new round bit and what is left for the other
  obtain hzero | hone := Nat.mod_two_eq_zero_or_one em.mantissa
  · rw [hzero, Nat.cast_zero, add_zero] at hle hlt hsticky
    constructor
    all_goals rw [hmantissa]
    · linarith
    · linarith
    · exact hround.trans (iff_of_false (by omega) (by linarith))
    · refine hsticky.trans ⟨fun hv => ⟨fun heq => hv (by linarith), by linarith⟩, fun hv heq => ?_⟩
      exact hv.1 (by linarith)
  · rw [hone, Nat.cast_one] at hle hlt hsticky
    constructor
    all_goals rw [hmantissa]
    · linarith
    · linarith
    · exact hround.trans (iff_of_true hone (by linarith))
    · refine hsticky.trans ⟨fun hv => ⟨by linarith, fun heq => hv (by linarith)⟩, fun hv heq => ?_⟩
      exact hv.2 (by linarith)

theorem Tells.shiftRight (h : Tells em v) (j : Nat) : Tells (em >>> j) (v / 2 ^ j) := by
  induction j with
  | zero =>
    rw [pow_zero, div_one]
    exact h
  | succ j ih =>
    rw [pow_succ, ← div_div]
    exact ih.shiftRightOne

/-- A whole number and what is left tell what the bits are. -/
theorem tells_add (m : Nat) {r : ℚ} {roundBit stickyBit : Bool} (hnonneg : 0 ≤ r) (hone : r < 1)
    (hround : roundBit = true ↔ 1 / 2 ≤ r) (hsticky : stickyBit = true ↔ r ≠ 0 ∧ r ≠ 1 / 2) :
    Tells ⟨m, roundBit, stickyBit⟩ (m + r) where
  le := le_add_of_nonneg_right hnonneg
  lt := (add_lt_add_iff_left _).mpr hone
  round := hround.trans (add_le_add_iff_left _).symm
  sticky := hsticky.trans
    (and_congr (not_congr add_eq_left.symm) (not_congr (add_right_inj _).symm))

theorem tells_exact (m : Nat) : Tells (.ofMantissaAndAccuracy m .exact) m := by
  have htells := tells_add m le_rfl one_pos (iff_of_false Bool.false_ne_true (by norm_num))
    (iff_of_false Bool.false_ne_true fun h => h.1 rfl)
  rwa [add_zero] at htells

theorem tells_fraction (m : Nat) {n k : Nat} (h : n < k) :
    Tells (.ofMantissaAndAccuracy m (accuracyOfFraction n k)) (m + n / k) := by
  have hk : (0 : ℚ) < k := Nat.cast_pos.mpr (Nat.zero_lt_of_lt h)
  have hone : (n : ℚ) / k < 1 := (div_lt_one hk).mpr (Nat.cast_lt.mpr h)
  rw [accuracyOfFraction]
  by_cases hzero : n = 0
  · rw [if_pos hzero, hzero, Nat.cast_zero, zero_div, add_zero]
    exact tells_exact m
  have hpos : (0 : ℚ) < n / k := div_pos (Nat.cast_pos.mpr (Nat.pos_of_ne_zero hzero)) hk
  have hdouble : (n : ℚ) / k = (2 * n : ℕ) / (2 * k) := by
    rw [Nat.cast_mul, Nat.cast_two, mul_div_mul_left _ _ two_ne_zero]
  rw [if_neg hzero]
  cases hcompare : compare (2 * n) k with
  | lt =>
    have hhalf : (n : ℚ) / k < 1 / 2 := by
      have := Nat.cast_lt (α := ℚ) |>.mpr (Nat.compare_eq_lt.mp hcompare)
      rw [hdouble, div_lt_div_iff₀ (by linarith) two_pos]
      linarith
    exact tells_add m hpos.le hone (iff_of_false Bool.false_ne_true hhalf.not_ge)
      (iff_of_true rfl ⟨hpos.ne', hhalf.ne⟩)
  | eq =>
    have hhalf : (n : ℚ) / k = 1 / 2 := by
      rw [hdouble, Nat.compare_eq_eq.mp hcompare]
      field_simp
    exact tells_add m hpos.le hone (iff_of_true rfl hhalf.ge)
      (iff_of_false Bool.false_ne_true fun hne => hne.2 hhalf)
  | gt =>
    have hhalf : 1 / 2 < (n : ℚ) / k := by
      have := Nat.cast_lt (α := ℚ) |>.mpr (Nat.compare_eq_gt.mp hcompare)
      rw [hdouble, div_lt_div_iff₀ two_pos (by linarith)]
      linarith
    exact tells_add m hpos.le hone (iff_of_true rfl hhalf.le)
      (iff_of_true rfl ⟨hpos.ne', hhalf.ne'⟩)

/-- The rounded significand is at most half a unit away.  If it is exactly half a unit away it is
even. -/
theorem Tells.roundedMantissa (h : Tells em v) :
    (em.roundedMantissa : ℚ) - 1 / 2 ≤ v ∧ v ≤ em.roundedMantissa + 1 / 2 ∧
      (em.roundedMantissa % 2 = 1 →
        (em.roundedMantissa : ℚ) - 1 / 2 < v ∧ v < em.roundedMantissa + 1 / 2) := by
  obtain ⟨m, roundBit, stickyBit⟩ := em
  obtain ⟨hle, hlt, hround, hsticky⟩ := h
  dsimp only at hle hlt hround hsticky
  cases roundBit with
  | false =>
    have hhalf : v < m + 1 / 2 := lt_of_not_ge (mt hround.mpr Bool.false_ne_true)
    have hdown : ExtendedMantissa.roundedMantissa ⟨m, false, stickyBit⟩ = m := by
      cases stickyBit <;> rfl
    rw [hdown]
    exact ⟨by linarith, hhalf.le, fun _ => ⟨by linarith, hhalf⟩⟩
  | true =>
    have hhalf : m + 1 / 2 ≤ v := hround.mp rfl
    cases stickyBit with
    | false =>
      have heq : v = m + 1 / 2 := by
        by_contra hne
        exact Bool.false_ne_true (hsticky.mpr ⟨by linarith, hne⟩)
      have heven : ExtendedMantissa.roundedMantissa ⟨m, true, false⟩ = m + m % 2 := rfl
      rw [heven]
      obtain hzero | hone := Nat.mod_two_eq_zero_or_one m
      · rw [hzero, Nat.add_zero]
        exact ⟨by linarith, heq.le, fun hodd => absurd hodd (by omega)⟩
      · rw [hone, Nat.cast_add, Nat.cast_one]
        exact ⟨by linarith, by linarith, fun hodd => absurd hodd (by omega)⟩
    | true =>
      have hne : v ≠ m + 1 / 2 := (hsticky.mp rfl).2
      have hup : ExtendedMantissa.roundedMantissa ⟨m, true, true⟩ = m + 1 := rfl
      have habove : m + 1 / 2 < v := lt_of_le_of_ne hhalf hne.symm
      rw [hup, Nat.cast_add, Nat.cast_one]
      exact ⟨by linarith, by linarith, fun _ => ⟨by linarith, by linarith⟩⟩

/-! ## Rounding -/

variable {d : Dyadic}

theorem nearest_scaled (hlower : d.lower ≤ 4 * v) (hupper : 4 * v ≤ d.upper)
    (hinside : d.significand % 2 = 1 → d.lower < 4 * v ∧ 4 * v < d.upper) :
    d.Nearest (v * 2 ^ d.exponent) := by
  have hpos := d.quarter_pos
  have hscaled : v * 2 ^ d.exponent = 4 * v * d.quarter := by
    have hplace : (2 : ℚ) ^ d.exponent = 4 * d.quarter := by
      rw [Dyadic.quarter, zpow_sub₀ two_ne_zero]
      ring
    rw [hplace]
    ring
  rw [hscaled]
  exact ⟨mul_le_mul_of_nonneg_right hlower hpos.le, mul_le_mul_of_nonneg_right hupper hpos.le,
    fun hodd => ⟨mul_lt_mul_of_pos_right (hinside hodd).1 hpos,
      mul_lt_mul_of_pos_right (hinside hodd).2 hpos⟩⟩

theorem targetExponent_canonical (hd : d.Canonical) :
    Format.binary64.targetExponent (totalExponent d.significand d.exponent) = d.exponent := by
  have hle := hd.le
  rw [targetExponent_eq, totalExponent]
  by_cases hfull : 2 ^ 52 ≤ d.significand
  · have hlog : d.significand.log2 = 52 :=
      (Nat.log2_eq_iff (by omega)).mpr ⟨hfull, hd.lt⟩
    omega
  · have hexponent := hd.full.resolve_left hfull
    have hlog : d.significand.log2 ≤ 52 := by
      rcases Nat.eq_zero_or_pos d.significand with hzero | hpos
      · rw [hzero]
        decide
      · exact Nat.le_of_lt ((Nat.log2_lt hpos.ne').mpr (Nat.lt_of_not_le hfull))
    omega

/-- The significand that is left after the bits are cut off. -/
theorem cut_bounds {m : Nat} {e : Int}
    (he : e ≤ Format.binary64.targetExponent (totalExponent m e)) :
    m / 2 ^ dropped m e < 2 ^ 53 ∧
      (2 ^ 52 ≤ m / 2 ^ dropped m e ∨ e + dropped m e = -1074) ∧ -1074 ≤ e + dropped m e := by
  rw [dropped]
  rw [targetExponent_eq, totalExponent] at he ⊢
  rcases Nat.eq_zero_or_pos m with rfl | hpos
  · rw [Nat.zero_div]
    have hlog : Nat.log2 0 = 0 := rfl
    rw [hlog] at he ⊢
    omega
  have hlow := Nat.log2_self_le hpos.ne'
  have hhigh := Nat.lt_log2_self (n := m)
  refine ⟨?_, ?_, ?_⟩
  · refine div_lt_two_pow hhigh (le_refl _) |>.trans_le (Nat.pow_le_pow_right two_pos ?_)
    omega
  · by_cases hsubnormal : (m.log2 : Int) + 1 + e - 53 ≤ -1074
    · exact .inr (by omega)
    · left
      rw [Nat.le_div_iff_mul_le (Nat.two_pow_pos _), ← Nat.pow_add]
      refine (Nat.pow_le_pow_right two_pos ?_).trans hlow
      omega
  · omega

theorem roundWithAccuracy_eq_unpacked (hsign : d.negative = false) {m : Nat} {e t : Int}
    {accuracy : Accuracy} {em : ExtendedMantissa}
    (hcut : shiftToTargetExponent Format.binary64 m e accuracy = (em, t))
    (hshift : shiftToTargetExponent Format.binary64 em.roundedMantissa t .exact =
      (⟨d.significand, false, false⟩, d.exponent)) :
    roundWithAccuracy Format.binary64 .positive m e accuracy = d.unpacked := by
  obtain ⟨negative, significand, exponent⟩ := d
  dsimp only at hsign hshift
  subst hsign
  rw [roundWithAccuracy]
  simp only [hcut, hshift]
  rw [Dyadic.unpacked]
  by_cases hzero : significand = 0
  · rw [dif_pos hzero, dif_neg (Nat.not_lt.mpr hzero.le)]
    rfl
  · rw [dif_neg hzero, dif_pos (Nat.pos_of_ne_zero hzero)]
    rfl

/-- Nothing is cut off of a significand that is stored as it should be. -/
theorem shiftToTargetExponent_canonical (hd : d.Canonical) :
    shiftToTargetExponent Format.binary64 d.significand d.exponent .exact =
      (⟨d.significand, false, false⟩, d.exponent) := by
  rw [shiftToTargetExponent, targetExponent_canonical hd, shiftToExponent]
  simp only [Int.sub_self, Int.toNat_zero, Nat.cast_zero, Int.add_zero]
  rfl

/-- A significand that is rounded up beyond fifty-three bits is a power of two. -/
theorem shiftToTargetExponent_carry {t : Int} (ht : -1074 ≤ t) :
    shiftToTargetExponent Format.binary64 (2 ^ 53) t .exact = (⟨2 ^ 52, false, false⟩, t + 1) := by
  have htarget : Format.binary64.targetExponent (totalExponent (2 ^ 53) t) = t + 1 := by
    rw [targetExponent_eq, totalExponent, Nat.log2_two_pow]
    omega
  have hshift : (t + 1 - t).toNat = 1 := by omega
  rw [shiftToTargetExponent, htarget, shiftToExponent]
  simp only [hshift]
  rfl

/-- At a power of two the rounding interval is shorter to the left, and a number that is rounded
down is not there. -/
theorem nearest_within (hlower : (d.significand : ℚ) - 1 / 2 ≤ v)
    (hupper : v ≤ d.significand + 1 / 2)
    (hinside : d.significand % 2 = 1 →
      (d.significand : ℚ) - 1 / 2 < v ∧ v < d.significand + 1 / 2)
    (hnonneg : 0 ≤ v)
    (hpower : d.significand = 2 ^ 52 → -1074 < d.exponent → (d.significand : ℚ) ≤ v) :
    d.Nearest (v * 2 ^ d.exponent) := by
  have hend : (d.upper : ℚ) = 4 * d.significand + 2 := by
    rw [Dyadic.upper]
    push_cast
    ring
  have hstart : (d.significand % 2 = 1 ∧ (d.lower : ℚ) = 4 * d.significand - 2) ∨
      (d.significand % 2 = 0 ∧ (d.lower : ℚ) ≤ 4 * v) := by
    have hhidden : Binary64.hiddenBit = 2 ^ 52 := rfl
    rw [Dyadic.lower, hhidden]
    split
    · next hshort =>
      refine .inr ⟨by omega, ?_⟩
      have hle := hpower hshort.1 hshort.2
      rw [Nat.cast_sub (by omega), Nat.cast_mul]
      push_cast
      linarith
    · rcases Nat.eq_zero_or_pos d.significand with hzero | hpos
      · refine .inr ⟨by omega, ?_⟩
        rw [hzero, Nat.cast_zero]
        linarith
      · rw [Nat.cast_sub (by omega), Nat.cast_mul]
        push_cast
        rcases Nat.mod_two_eq_zero_or_one d.significand with heven | hodd
        · exact .inr ⟨heven, by linarith⟩
        · exact .inl ⟨hodd, rfl⟩
  refine nearest_scaled ?_ (by linarith) fun hodd => ?_
  · rcases hstart with ⟨-, heq⟩ | ⟨-, hle⟩
    · linarith
    · exact hle
  · obtain ⟨hlower, hupper⟩ := hinside hodd
    rcases hstart with ⟨-, heq⟩ | ⟨heven, -⟩
    · exact ⟨by linarith, by linarith⟩
    · omega

theorem nearest_carry {t : Int} (hd : d.significand = 2 ^ 52) (hexponent : d.exponent = t + 1)
    (ht : -1074 ≤ t) (hlower : (2 : ℚ) ^ 53 - 1 / 2 ≤ v) (hupper : v ≤ (2 : ℚ) ^ 53 + 1 / 2) :
    d.Nearest (v * 2 ^ t) := by
  have hscale : v * 2 ^ t = v / 2 * 2 ^ d.exponent := by
    rw [hexponent, zpow_add_one₀ two_ne_zero]
    ring
  have hhidden : Binary64.hiddenBit = 2 ^ 52 := rfl
  have hstart : d.lower + 1 = 4 * 2 ^ 52 := by
    rw [Dyadic.lower, if_pos ⟨hd.trans hhidden.symm, by omega⟩, hd]
    omega
  have hend : d.upper = 4 * 2 ^ 52 + 2 := by
    rw [Dyadic.upper, hd]
  have hstart : (d.lower : ℚ) + 1 = 4 * 2 ^ 52 := by exact_mod_cast hstart
  have hend : (d.upper : ℚ) = 4 * 2 ^ 52 + 2 := by exact_mod_cast hend
  rw [hscale]
  exact nearest_scaled (by linarith) (by linarith) fun hodd => by omega

/-- What is rounded is the number nearest to what was cut off, if bits are only cut off and none are
missing. -/
theorem nearest_roundWithAccuracy {m : Nat} {e : Int} {accuracy : Accuracy}
    (hv : Tells (.ofMantissaAndAccuracy m accuracy) v)
    (he : e ≤ Format.binary64.targetExponent (totalExponent m e)) :
    ∃ d : Dyadic, d.negative = false ∧ d.Canonical ∧ d.Nearest (v * 2 ^ e) ∧
      roundWithAccuracy Format.binary64 .positive m e accuracy = d.unpacked := by
  obtain ⟨hhigh, hlow, hmin⟩ := cut_bounds he
  have hcut : shiftToTargetExponent Format.binary64 m e accuracy =
      (ExtendedMantissa.ofMantissaAndAccuracy m accuracy >>> dropped m e, e + dropped m e) := rfl
  have htells := hv.shiftRight (dropped m e)
  have hscale : v * 2 ^ e = v / 2 ^ dropped m e * 2 ^ (e + dropped m e) := by
    rw [zpow_add₀ two_ne_zero, zpow_natCast]
    field_simp
  have hmantissa : (ExtendedMantissa.ofMantissaAndAccuracy m accuracy >>> dropped m e).mantissa =
      m / 2 ^ dropped m e := by
    rw [mantissa_shiftRight, mantissa_ofMantissaAndAccuracy]
  rw [hscale]
  rw [← hmantissa] at hhigh hlow
  generalize ExtendedMantissa.ofMantissaAndAccuracy m accuracy >>> dropped m e = em
    at hcut htells hhigh hlow
  generalize e + dropped m e = t at hcut hlow hmin
  generalize v / 2 ^ dropped m e = w at htells
  have hle := le_roundedMantissa em
  have hge := roundedMantissa_le em
  obtain ⟨hlower, hupper, hinside⟩ := htells.roundedMantissa
  by_cases hcarry : em.roundedMantissa = 2 ^ 53
  · obtain ⟨d, hsign, hsignificand, hexponent⟩ :
        ∃ d : Dyadic, d.negative = false ∧ d.significand = 2 ^ 52 ∧ d.exponent = t + 1 :=
      ⟨⟨false, 2 ^ 52, t + 1⟩, rfl, rfl, rfl⟩
    have hd : d.Canonical := ⟨by omega, by omega, .inl hsignificand.ge⟩
    have hcast : (em.roundedMantissa : ℚ) = 2 ^ 53 := by exact_mod_cast hcarry
    rw [hcast] at hlower hupper
    refine ⟨d, hsign, hd, nearest_carry hsignificand hexponent hmin hlower hupper, ?_⟩
    refine roundWithAccuracy_eq_unpacked hsign hcut ?_
    rw [hcarry, hexponent, hsignificand]
    exact shiftToTargetExponent_carry hmin
  · obtain ⟨d, hsign, hsignificand, hexponent⟩ :
        ∃ d : Dyadic, d.negative = false ∧ d.significand = em.roundedMantissa ∧ d.exponent = t :=
      ⟨⟨false, em.roundedMantissa, t⟩, rfl, rfl, rfl⟩
    rw [← hsignificand] at hcarry hlower hupper hinside hle hge
    rw [← hexponent] at hcut hlow hmin ⊢
    have hd : d.Canonical := ⟨by omega, hmin, hlow.imp_left fun h => h.trans hle⟩
    refine ⟨d, hsign, hd, nearest_within hlower hupper hinside ?_ ?_, ?_⟩
    · exact (Nat.cast_nonneg _).trans htells.le
    · intro hpower hexponent
      have hfull : 2 ^ 52 ≤ em.mantissa := hlow.resolve_right hexponent.ne'
      have heq : d.significand = em.mantissa := le_antisymm (hpower.le.trans hfull) hle
      exact heq ▸ htells.le
    · refine roundWithAccuracy_eq_unpacked hsign hcut ?_
      rw [← hsignificand]
      exact shiftToTargetExponent_canonical hd

/-! ## Rounded numbers -/

/-- A rational number is rounded to another one. -/
def RoundsTo (q r : ℚ) : Prop := ∃ d : Dyadic, d.Canonical ∧ d.Nearest q ∧ d.magnitude = r

/-- A number is the one that a rational number is rounded to.  It is an infinity if that is too
large. -/
def Rounded (x : Float) (q : ℚ) : Prop :=
  ∃ d : Dyadic, d.negative = false ∧ d.Canonical ∧ d.Nearest q ∧ x = d.packed

variable {x y : Float} {q r : ℚ}

theorem roundsTo_magnitude_iff (hd : d.Canonical) : RoundsTo q d.magnitude ↔ d.Nearest q := by
  constructor
  · rintro ⟨d', hd', hnearest, heq⟩
    obtain ⟨hsignificand, hexponent⟩ := hd'.eq_of_magnitude hd heq
    exact hnearest.congr hsignificand hexponent
  · exact fun h => ⟨d, hd, h, rfl⟩

/-- There is one number only that a rational number is rounded to. -/
theorem RoundsTo.unique (h : RoundsTo q r) {s : ℚ} (h' : RoundsTo q s) : r = s := by
  obtain ⟨d, hd, hnearest, rfl⟩ := h
  obtain ⟨d', hd', hnearest', rfl⟩ := h'
  obtain ⟨hsignificand, hexponent⟩ := hnearest.unique hd hd' hnearest'
  rw [Dyadic.magnitude, Dyadic.magnitude, hsignificand, hexponent]

theorem roundsTo_magnitude (hd : d.Canonical) : RoundsTo d.magnitude d.magnitude :=
  ⟨d, hd, d.nearest_magnitude, rfl⟩

theorem rounded_of_ofFloat (h : Binary64.ofFloat x = .finite d) (hsign : d.negative = false) :
    Rounded x d.magnitude := by
  obtain ⟨hd, he, -⟩ := ofFloat_eq_finite_iff.mp h
  exact ⟨d, hsign, hd, d.nearest_magnitude, eq_of_ofFloat h (ofFloat_packed hd he)⟩

/-- A rounded number is told by the rounding interval that the exact one lies in. -/
theorem Rounded.eq_iff (h : Rounded y q) (hx : Binary64.ofFloat x = .finite d)
    (hsign : d.negative = false) : y = x ↔ RoundsTo q d.magnitude := by
  obtain ⟨d', hsign', hd', hnearest, rfl⟩ := h
  obtain ⟨hd, he, -⟩ := ofFloat_eq_finite_iff.mp hx
  rw [roundsTo_magnitude_iff hd]
  constructor
  · rintro rfl
    by_cases he' : d'.exponent ≤ 971
    · rw [ofFloat_packed hd' he'] at hx
      cases hx
      exact hnearest
    · rw [ofFloat_packed_of_lt hd' (lt_of_not_ge he')] at hx
      cases hx
  · intro hnearest'
    obtain ⟨hsignificand, hexponent⟩ := hnearest'.unique hd hd' hnearest
    have heq : d' = d := by
      obtain ⟨negative, significand, exponent⟩ := d
      obtain ⟨negative', significand', exponent'⟩ := d'
      dsimp only at hsign hsign' hsignificand hexponent
      rw [hsign, hsign', hsignificand, hexponent]
    rw [heq]
    exact eq_of_ofFloat (ofFloat_packed hd he) hx

theorem Rounded.exists_finite (h : Rounded y q) (hy : isFinite y = true) :
    ∃ d : Dyadic, Binary64.ofFloat y = .finite d ∧ d.negative = false ∧
      RoundsTo q d.magnitude := by
  obtain ⟨d, hsign, hd, hnearest, rfl⟩ := h
  by_cases he : d.exponent ≤ 971
  · exact ⟨d, ofFloat_packed hd he, hsign, d, hd, hnearest, rfl⟩
  · rw [isFinite, ofFloat_packed_of_lt hd (lt_of_not_ge he)] at hy
    cases hy

/-! ## Operations -/

/-- What the model of an operation gives is rounded if it is rounded before it is packed. -/
theorem rounded_pack {u : UnpackedFloat}
    (h : ∃ d : Dyadic, d.negative = false ∧ d.Canonical ∧ d.Nearest q ∧ u = d.unpacked) :
    Rounded (.ofModel (.pack u)) q := by
  obtain ⟨d, hsign, hd, hnearest, rfl⟩ := h
  exact ⟨d, hsign, hd, hnearest, rfl⟩

theorem rounded_zero : Rounded (.ofModel (.pack (.zero .positive))) 0 := by
  have hd : (Dyadic.mk false 0 (-1074)).Canonical := ⟨Nat.two_pow_pos 53, le_rfl, .inr rfl⟩
  have hzero : (Dyadic.mk false 0 (-1074)).magnitude = 0 := by
    rw [Dyadic.magnitude, Nat.cast_zero, zero_mul]
  exact rounded_pack ⟨_, rfl, hd, hzero ▸ Dyadic.nearest_magnitude _, rfl⟩

theorem unpacked_of_zero (hsign : d.negative = false) (h : d.significand = 0) :
    d.unpacked = .zero .positive := by
  rw [Dyadic.unpacked, dif_neg (Nat.not_lt.mpr h.le), Dyadic.sign, hsign]
  rfl

theorem unpacked_of_pos (hsign : d.negative = false) (h : 0 < d.significand) :
    d.unpacked = .finite .positive d.significand d.exponent h := by
  rw [Dyadic.unpacked, dif_pos h, Dyadic.sign, hsign]
  rfl

theorem magnitude_of_zero (h : d.significand = 0) : d.magnitude = 0 := by
  rw [Dyadic.magnitude, h, Nat.cast_zero, zero_mul]

variable {a b : Dyadic}

/-- The product of two significands has enough bits, unless its exponent is below all others. -/
theorem exponent_mul_le (ha : a.Canonical) (hb : b.Canonical) (hapos : 0 < a.significand)
    (hbpos : 0 < b.significand) :
    a.exponent + b.exponent ≤ Format.binary64.targetExponent
      (totalExponent (a.significand * b.significand) (a.exponent + b.exponent)) := by
  have hae := ha.le
  have hbe := hb.le
  rw [targetExponent_eq, totalExponent]
  have hfull : 2 ^ 52 ≤ a.significand * b.significand ∨ a.exponent + b.exponent ≤ -1074 := by
    rcases ha.full with ha | ha
    · exact .inl (ha.trans (Nat.le_mul_of_pos_right _ hbpos))
    · rcases hb.full with hb | hb
      · exact .inl (hb.trans (Nat.le_mul_of_pos_left _ hapos))
      · exact .inr (by omega)
  rcases hfull with hfull | hsmall
  · have hlog : 52 ≤ (a.significand * b.significand).log2 :=
      (Nat.le_log2 (Nat.mul_pos hapos hbpos).ne').mpr hfull
    omega
  · omega

theorem rounded_mul (hx : Binary64.ofFloat x = .finite a) (ha : a.negative = false)
    (hy : Binary64.ofFloat y = .finite b) (hb : b.negative = false) :
    Rounded (x * y) (a.magnitude * b.magnitude) := by
  have hproduct : x * y =
      .ofModel (.pack (UnpackedFloat.mul Format.binary64 a.unpacked b.unpacked)) := by
    rw [← unpack_of_ofFloat hx, ← unpack_of_ofFloat hy]
    rfl
  rw [hproduct]
  rcases Nat.eq_zero_or_pos a.significand with hazero | hapos
  · rw [unpacked_of_zero ha hazero, magnitude_of_zero hazero, zero_mul]
    rcases Nat.eq_zero_or_pos b.significand with hbzero | hbpos
    · rw [unpacked_of_zero hb hbzero]
      exact rounded_zero
    · rw [unpacked_of_pos hb hbpos]
      exact rounded_zero
  rcases Nat.eq_zero_or_pos b.significand with hbzero | hbpos
  · rw [unpacked_of_pos ha hapos, unpacked_of_zero hb hbzero, magnitude_of_zero hbzero, mul_zero]
    exact rounded_zero
  have hle := exponent_mul_le (ofFloat_eq_finite_iff.mp hx).1 (ofFloat_eq_finite_iff.mp hy).1
    hapos hbpos
  have hscale : a.magnitude * b.magnitude =
      (a.significand * b.significand : ℕ) * 2 ^ (a.exponent + b.exponent) := by
    rw [Dyadic.magnitude, Dyadic.magnitude, zpow_add₀ two_ne_zero, Nat.cast_mul]
    ring
  rw [unpacked_of_pos ha hapos, unpacked_of_pos hb hbpos, hscale]
  exact rounded_pack (nearest_roundWithAccuracy (tells_exact _) hle)

/-- A quotient has enough bits, unless its exponent is below all others. -/
theorem exponent_quotient_le {m n i : Nat} {t : Int} (hm : 0 < m) (hn : 0 < n)
    (ht : t ≤ -1074 ∨ 53 + n.log2 ≤ m.log2 + i) :
    t ≤ Format.binary64.targetExponent (totalExponent (m <<< i / n) t) := by
  rw [targetExponent_eq, totalExponent]
  rcases ht with ht | ht
  · omega
  have hshift : 2 ^ (m.log2 + i) ≤ m <<< i := by
    rw [Nat.shiftLeft_eq, Nat.pow_add]
    exact Nat.mul_le_mul_right _ (Nat.log2_self_le hm.ne')
  have hquotient : 2 ^ 52 ≤ m <<< i / n := by
    rw [Nat.le_div_iff_mul_le hn]
    calc
      2 ^ 52 * n ≤ 2 ^ 52 * 2 ^ (n.log2 + 1) := Nat.mul_le_mul_left _ Nat.lt_log2_self.le
      _ = 2 ^ (53 + n.log2) := by rw [← Nat.pow_add]; congr 1; omega
      _ ≤ 2 ^ (m.log2 + i) := Nat.pow_le_pow_right two_pos ht
      _ ≤ m <<< i := hshift
  have hlog : 52 ≤ (m <<< i / n).log2 :=
    (Nat.le_log2 (Nat.lt_of_lt_of_le (Nat.two_pow_pos 52) hquotient).ne').mpr hquotient
  omega

/-- A quotient with its remainder. -/
theorem div_add_mod_div (m : Nat) {n : Nat} (hn : 0 < n) :
    ((m / n : ℕ) : ℚ) + (m % n : ℕ) / n = m / n := by
  have hn : (n : ℚ) ≠ 0 := Nat.cast_ne_zero.mpr hn.ne'
  have hdecompose : (m : ℚ) = n * (m / n : ℕ) + (m % n : ℕ) := by
    exact_mod_cast (Nat.div_add_mod m n).symm
  rw [eq_div_iff hn, add_mul, div_mul_cancel₀ _ hn, mul_comm _ (n : ℚ)]
  exact hdecompose.symm

theorem rounded_div (hx : Binary64.ofFloat x = .finite a) (ha : a.negative = false)
    (hy : Binary64.ofFloat y = .finite b) (hb : b.negative = false) (hbpos : 0 < b.significand) :
    Rounded (x / y) (a.magnitude / b.magnitude) := by
  have hquotient : x / y =
      .ofModel (.pack (UnpackedFloat.div Format.binary64 a.unpacked b.unpacked)) := by
    rw [← unpack_of_ofFloat hx, ← unpack_of_ofFloat hy]
    rfl
  rw [hquotient, unpacked_of_pos hb hbpos]
  rcases Nat.eq_zero_or_pos a.significand with hazero | hapos
  · rw [unpacked_of_zero ha hazero, magnitude_of_zero hazero, zero_div]
    exact rounded_zero
  rw [unpacked_of_pos ha hapos, UnpackedFloat.div]
  simp only [divCore]
  obtain ⟨t, ht⟩ : ∃ t, t = min (a.exponent - b.exponent) (Format.binary64.targetExponent
    (totalExponent a.significand a.exponent - totalExponent b.significand b.exponent)) := ⟨_, rfl⟩
  rw [← ht]
  rw [targetExponent_eq, totalExponent, totalExponent] at ht
  obtain ⟨i, hi⟩ := Int.eq_ofNat_of_zero_le (by omega : 0 ≤ a.exponent - b.exponent - t)
  have hexponent : a.exponent - b.exponent = i + t := by omega
  rw [hi, Int.toNat_natCast]
  have hle := exponent_quotient_le hapos hbpos (i := i) (t := t) (by omega)
  have hscale : a.magnitude / b.magnitude =
      (((a.significand <<< i / b.significand : ℕ) : ℚ) +
        (a.significand <<< i % b.significand : ℕ) / b.significand) * 2 ^ t := by
    rw [div_add_mod_div _ hbpos, Nat.shiftLeft_eq, Nat.cast_mul, Nat.cast_pow, Nat.cast_two,
      Dyadic.magnitude, Dyadic.magnitude, mul_div_mul_comm, ← zpow_sub₀ two_ne_zero, hexponent,
      zpow_add₀ two_ne_zero, zpow_natCast]
    ring
  rw [hscale]
  exact rounded_pack (nearest_roundWithAccuracy (tells_fraction _ (Nat.mod_lt _ hbpos)) hle)

theorem rounded_toFloat (w : UInt64) : Rounded w.toFloat w.toNat := by
  have hword : w.toFloat = .ofModel (.pack (UnpackedFloat.ofNat Format.binary64 w.toNat)) := rfl
  rw [hword]
  generalize w.toNat = n
  rw [UnpackedFloat.ofNat, UnpackedFloat.ofInt, UnpackedFloat.normalize]
  cases hcompare : compare (n : Int) 0 with
  | lt => exact absurd (Int.compare_eq_lt.mp hcompare) (by omega)
  | eq =>
    have hzero : n = 0 := Int.natCast_eq_zero.mp (Int.compare_eq_eq.mp hcompare)
    rw [hzero, Nat.cast_zero]
    exact rounded_zero
  | gt =>
    have hpos : 0 < n := Int.natCast_pos.mp (Int.compare_eq_gt.mp hcompare)
    obtain ⟨i, hi⟩ : ∃ i, i = (0 - Format.binary64.targetExponent (totalExponent n 0)).toNat :=
      ⟨_, rfl⟩
    have hround : UnpackedFloat.round Format.binary64 .positive n 0 =
        roundWithAccuracy Format.binary64 .positive (n <<< i) (0 - i) .exact := by
      rw [hi]
      rfl
    rw [targetExponent_eq, totalExponent] at hi
    have hle : (0 - i : Int) ≤
        Format.binary64.targetExponent (totalExponent (n <<< i) (0 - i)) := by
      rw [targetExponent_eq, totalExponent, Nat.shiftLeft_eq, log2_mul_two_pow hpos.ne']
      omega
    have hscale : (n : ℚ) = (n <<< i : ℕ) * 2 ^ (0 - i : Int) := by
      rw [Nat.shiftLeft_eq, zero_sub, zpow_neg, zpow_natCast]
      push_cast
      field_simp
    rw [Int.toNat_natCast, hround, hscale]
    exact rounded_pack (nearest_roundWithAccuracy (tells_exact _) hle)

end Treewalk.Number
