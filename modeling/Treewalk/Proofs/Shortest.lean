import Mathlib
import Treewalk.Number.Shortest
import Treewalk.Proofs.Rounding

/-!
# The shortest digits of a number read back

The digits that a number is printed with are found on the first decimal grid that has a point in the
rounding interval of the number.  On each grid the two neighbours of the number are tested.  A grid
with a step below half of the last place has a point in the interval, since the neighbour above the
number is no farther away than a step; and such a grid is reached before the search gives up.

So the decimal that is printed is rounded to the number.  Its coefficient is small, since the grid
before had no point in the interval and so is not much finer than the last place.

## Main definitions

* `Decimal.value` — the rational number of a decimal.
* `Dyadic.within_iff` — the test on a grid is about the rounding interval.
* `Dyadic.nearest_shortest`, `Dyadic.shortest_lt` — what the search finds.
* `Dyadic.exponent_le` — exponents of decimals in a rounding interval.
-/

namespace Treewalk

open Number

/-- The rational number of a decimal. -/
def Decimal.value (s : Decimal) : ℚ := s.coefficient * 10 ^ s.exponent

namespace Dyadic

/-- The step of the grid `10 ^ g`, in units that make integers of it and of quarters of the last
place. -/
def gridStep (d : Dyadic) (g : Int) : Nat :=
  Nat.pow 10 g.toNat * Nat.pow 2 (-(d.exponent - 2)).toNat

/-- A quarter of the last place in these units. -/
def gridUnit (d : Dyadic) (g : Int) : Nat :=
  Nat.pow 2 (d.exponent - 2).toNat * Nat.pow 10 (-g).toNat

/-- The test whether the `k`th point of the grid reads back. -/
def within (d : Dyadic) (g : Int) (k : Nat) : Bool :=
  if d.significand % 2 = 0 then
    decide (d.lower * d.gridUnit g ≤ k * d.gridStep g) &&
      decide (k * d.gridStep g ≤ d.upper * d.gridUnit g)
  else
    decide (d.lower * d.gridUnit g < k * d.gridStep g) &&
      decide (k * d.gridStep g < d.upper * d.gridUnit g)

variable {d : Dyadic} {tie : Tie} {g : Int} {k : Nat}

/-- The point of the grid below the number. -/
def gridBelow (d : Dyadic) (g : Int) : Nat := 4 * d.significand * d.gridUnit g / d.gridStep g

theorem onGrid?_cases (tie : Tie) (d : Dyadic) (g : Int) :
    (d.onGrid? tie g = none ∧ d.within g (d.gridBelow g) = false ∧
      d.within g (d.gridBelow g + 1) = false) ∨
    ∃ k, d.onGrid? tie g = some k ∧ d.within g k = true := by
  obtain ⟨hit, hhit⟩ : ∃ hit, d.onGrid? tie g = hit := ⟨_, rfl⟩
  rw [hhit]
  unfold onGrid? at hhit
  dsimp only at hhit
  split at hhit
  · next hbelow habove => exact .inl ⟨hhit.symm, hbelow, habove⟩
  · next hbelow _ => exact .inr ⟨_, hhit.symm, hbelow⟩
  · next _ habove => exact .inr ⟨_, hhit.symm, habove⟩
  · next hbelow habove =>
    refine .inr ?_
    split_ifs at hhit
    · exact ⟨_, hhit.symm, hbelow⟩
    · exact ⟨_, hhit.symm, habove⟩
    · cases tie with
      | up => exact ⟨_, hhit.symm, habove⟩
      | even => exact ⟨_, hhit.symm, hbelow⟩
    · cases tie <;> exact ⟨_, hhit.symm, habove⟩

theorem gridStep_pos (d : Dyadic) (g : Int) : 0 < d.gridStep g :=
  Nat.mul_pos (Nat.pow_pos (by decide)) (Nat.pow_pos (by decide))

theorem gridUnit_pos (d : Dyadic) (g : Int) : 0 < d.gridUnit g :=
  Nat.mul_pos (Nat.pow_pos (by decide)) (Nat.pow_pos (by decide))

theorem zpow_mul_toNat {b : ℕ} (hb : 0 < b) (z : ℤ) :
    (b : ℚ) ^ z * (b ^ (-z).toNat : ℕ) = (b ^ z.toNat : ℕ) := by
  have hb : (b : ℚ) ≠ 0 := Nat.cast_ne_zero.mpr hb.ne'
  rcases le_total 0 z with hz | hz
  · obtain ⟨n, rfl⟩ := Int.eq_ofNat_of_zero_le hz
    simp
  · obtain ⟨n, hn⟩ := Int.eq_ofNat_of_zero_le (neg_nonneg.mpr hz)
    obtain rfl : z = -n := by omega
    simp [hb]

/-- What the units are made for. -/
theorem gridStep_eq (d : Dyadic) (g : Int) :
    (d.gridStep g : ℚ) * d.quarter = d.gridUnit g * 10 ^ g := by
  have hten := zpow_mul_toNat (by decide : 0 < 10) g
  have htwo := zpow_mul_toNat (by decide : 0 < 2) (d.exponent - 2)
  have hstep : (d.gridStep g : ℚ) = (10 ^ g.toNat : ℕ) * (2 ^ (-(d.exponent - 2)).toNat : ℕ) :=
    Nat.cast_mul _ _
  have hunit : (d.gridUnit g : ℚ) = (2 ^ (d.exponent - 2).toNat : ℕ) * (10 ^ (-g).toNat : ℕ) :=
    Nat.cast_mul _ _
  rw [hstep, hunit, ← hten, ← htwo, quarter]
  push_cast
  ring

/-- How many units make one. -/
def gridScale (d : Dyadic) (g : Int) : ℚ := d.gridUnit g / d.quarter

theorem gridScale_pos (d : Dyadic) (g : Int) : 0 < d.gridScale g :=
  div_pos (Nat.cast_pos.mpr (d.gridUnit_pos g)) d.quarter_pos

theorem cast_mul_unit (m : Nat) :
    ((m * d.gridUnit g : ℕ) : ℚ) = d.gridScale g * (m * d.quarter) := by
  have hquarter := d.quarter_pos.ne'
  rw [gridScale, Nat.cast_mul]
  field_simp

theorem cast_mul_step (k : Nat) :
    ((k * d.gridStep g : ℕ) : ℚ) = d.gridScale g * (k * 10 ^ g) := by
  have hquarter := d.quarter_pos.ne'
  rw [gridScale, Nat.cast_mul, div_mul_eq_mul_div, eq_div_iff hquarter, mul_assoc, gridStep_eq]
  ring

theorem unit_le_step_iff (m k : Nat) :
    m * d.gridUnit g ≤ k * d.gridStep g ↔ (m : ℚ) * d.quarter ≤ k * 10 ^ g := by
  rw [← Nat.cast_le (α := ℚ), cast_mul_unit, cast_mul_step,
    mul_le_mul_iff_right₀ (d.gridScale_pos g)]

theorem step_le_unit_iff (m k : Nat) :
    k * d.gridStep g ≤ m * d.gridUnit g ↔ (k : ℚ) * 10 ^ g ≤ m * d.quarter := by
  rw [← Nat.cast_le (α := ℚ), cast_mul_unit, cast_mul_step,
    mul_le_mul_iff_right₀ (d.gridScale_pos g)]

/-- The test on a grid is about the rounding interval. -/
theorem within_iff : d.within g k = true ↔ d.Nearest (k * 10 ^ g) := by
  rw [within]
  split
  · next heven =>
    rw [Bool.and_eq_true, decide_eq_true_iff, decide_eq_true_iff, unit_le_step_iff,
      step_le_unit_iff]
    exact ⟨fun ⟨hle, hge⟩ => ⟨hle, hge, fun hodd => by omega⟩, fun h => ⟨h.lower, h.upper⟩⟩
  · next hodd =>
    rw [Bool.and_eq_true, decide_eq_true_iff, decide_eq_true_iff, ← not_le, ← not_le,
      unit_le_step_iff, step_le_unit_iff, not_le, not_le]
    exact ⟨fun ⟨hlt, hgt⟩ => ⟨hlt.le, hgt.le, fun _ => ⟨hlt, hgt⟩⟩,
      fun h => h.inside (by omega)⟩

theorem nearest_of_onGrid? (h : d.onGrid? tie g = some k) : d.Nearest (k * 10 ^ g) := by
  rcases onGrid?_cases tie d g with ⟨hnone, -⟩ | ⟨k', hsome, hwithin⟩
  · rw [hnone] at h
    cases h
  · rw [hsome] at h
    cases h
    exact within_iff.mp hwithin

/-- A fine grid has a point in the rounding interval. -/
theorem exists_onGrid? (tie : Tie) (h : (10 : ℚ) ^ g < 2 * d.quarter) :
    ∃ k, d.onGrid? tie g = some k := by
  rcases onGrid?_cases tie d g with ⟨-, -, habove⟩ | ⟨k, hsome, -⟩
  swap
  · exact ⟨k, hsome⟩
  refine absurd (within_iff.mpr ?_) (Bool.not_eq_true _ ▸ habove)
  have hpos := d.gridStep_pos g
  -- the neighbour above the number is at most a step away from it
  have hlow : 4 * d.significand * d.gridUnit g < (d.gridBelow g + 1) * d.gridStep g := by
    rw [Nat.add_one_mul (d.gridBelow g), gridBelow]
    exact Nat.lt_div_mul_add hpos
  have hhigh : d.gridBelow g * d.gridStep g ≤ 4 * d.significand * d.gridUnit g :=
    Nat.div_mul_le_self _ _
  rw [← not_le, step_le_unit_iff, not_le] at hlow
  rw [step_le_unit_iff] at hhigh
  have hquarter := d.quarter_pos
  have hlower : (d.lower : ℚ) * d.quarter ≤ (4 * d.significand : ℕ) * d.quarter :=
    mul_le_mul_of_nonneg_right (Nat.cast_le.mpr d.lower_le) hquarter.le
  have hupper :
      (d.upper : ℚ) * d.quarter = (4 * d.significand : ℕ) * d.quarter + 2 * d.quarter := by
    rw [upper]
    push_cast
    ring
  have hnext : ((d.gridBelow g + 1 : ℕ) : ℚ) * 10 ^ g = d.gridBelow g * 10 ^ g + 10 ^ g := by
    push_cast
    ring
  rw [hnext] at hlow ⊢
  exact ⟨by linarith, by linarith, fun _ => ⟨by linarith, by linarith⟩⟩

/-! ## The search -/

/-- The search stops on the first grid with a hit, if there is one before the tries run out. -/
theorem search_spec (tries : Nat) (g : Int) (h : ∃ k, d.onGrid? tie (g - tries) = some k) :
    d.onGrid? tie (d.search tie tries g).exponent = some (d.search tie tries g).coefficient ∧
      ((d.search tie tries g).exponent = g ∨
        d.onGrid? tie ((d.search tie tries g).exponent + 1) = none) := by
  induction tries generalizing g with
  | zero =>
    obtain ⟨k, hk⟩ := h
    rw [Nat.cast_zero, sub_zero] at hk
    rw [search, hk]
    exact ⟨rfl, .inl rfl⟩
  | succ tries ih =>
    rw [search]
    cases hgrid : d.onGrid? tie g with
    | some k => exact ⟨hgrid, .inl rfl⟩
    | none =>
      have hlast : g - 1 - (tries : Int) = g - (tries + 1 : ℕ) := by
        push_cast
        ring
      obtain ⟨hsome, hfirst⟩ := ih (g - 1) (by rw [hlast]; exact h)
      refine ⟨hsome, .inr ?_⟩
      rcases hfirst with heq | hnone
      · rw [heq, sub_add_cancel]
        exact hgrid
      · exact hnone

/-! ## The first grid and the last -/

/-- The power of ten `t` is not below `2 ^ (n - 2)`, and twenty powers less are below
`2 ^ (n - 54)`. -/
def Brackets (n t : Int) : Prop :=
  2 ^ (n - 2).toNat * 10 ^ (-t).toNat ≤ 10 ^ t.toNat * 2 ^ (-(n - 2)).toNat ∧
    10 ^ (t - 20).toNat * 2 ^ (-(n - 54)).toNat < 2 ^ (n - 54).toNat * 10 ^ (-(t - 20)).toNat

instance (n t : Int) : Decidable (Brackets n t) := inferInstanceAs (Decidable (_ ∧ _))

/-- The fraction is close enough to the logarithm of two for all exponents. -/
theorem brackets_table : ∀ i < 2098,
    Brackets ((i : Nat) - 1073 : Int) (((i : Nat) - 1073 : Int) * 30103 / 100000 + 1) := by
  decide +kernel

theorem zpow_sub_of_toNat {a b : ℕ} (ha : 0 < a) (hb : 0 < b) (x y : ℤ) :
    ((b ^ y.toNat * a ^ (-x).toNat : ℕ) : ℚ) - (a ^ x.toNat * b ^ (-y).toNat : ℕ) =
      ((b : ℚ) ^ y - (a : ℚ) ^ x) * (a ^ (-x).toNat * b ^ (-y).toNat : ℕ) := by
  have hx := zpow_mul_toNat ha x
  have hy := zpow_mul_toNat hb y
  rw [Nat.cast_mul, Nat.cast_mul, Nat.cast_mul, ← hx, ← hy]
  ring

theorem Brackets.rational {n t : Int} (h : Brackets n t) :
    (2 : ℚ) ^ (n - 2) ≤ 10 ^ t ∧ (10 : ℚ) ^ (t - 20) < 2 ^ (n - 54) := by
  obtain ⟨hle, hlt⟩ := h
  have hle := Nat.cast_le (α := ℚ) |>.mpr hle
  have hlt := Nat.cast_lt (α := ℚ) |>.mpr hlt
  have htwo := zpow_sub_of_toNat (by decide : 0 < 2) (by decide : 0 < 10) (n - 2) t
  have hten := zpow_sub_of_toNat (by decide : 0 < 10) (by decide : 0 < 2) (t - 20) (n - 54)
  have hpos : ∀ i j : Nat, (0 : ℚ) < (2 ^ i * 10 ^ j : ℕ) :=
    fun i j => Nat.cast_pos.mpr (Nat.mul_pos (Nat.two_pow_pos i) (Nat.pow_pos (by decide)))
  constructor
  · have hnonneg := htwo ▸ sub_nonneg.mpr hle
    exact sub_nonneg.mp (nonneg_of_mul_nonneg_left hnonneg (hpos _ _))
  · rw [Nat.mul_comm (10 ^ (-(t - 20)).toNat)] at hten
    have hpositive := hten ▸ sub_pos.mpr hlt
    exact sub_pos.mp ((pos_iff_pos_of_mul_pos hpositive).mpr (hpos _ _))

theorem topPower_bounds (hd : d.Canonical) (he : d.exponent ≤ 971) :
    2 * d.quarter ≤ 10 ^ d.topPower ∧ (10 : ℚ) ^ (d.topPower - 20) < 2 * d.quarter := by
  have hle := hd.le
  have hlog : d.significand.log2 ≤ 52 := by
    rcases Nat.eq_zero_or_pos d.significand with hzero | hpos
    · rw [hzero]
      decide
    · exact Nat.le_of_lt_succ ((Nat.log2_lt hpos.ne').mpr hd.lt)
  obtain ⟨n, hn⟩ : ∃ n, n = d.exponent + (d.significand.log2 : Int) + 1 := ⟨_, rfl⟩
  obtain ⟨i, hi⟩ := Int.eq_ofNat_of_zero_le (by omega : 0 ≤ n + 1073)
  have hbrackets := brackets_table i (by omega)
  rw [← hi, add_sub_cancel_right, hn] at hbrackets
  obtain ⟨hlow, hhigh⟩ := hbrackets.rational
  have hquarter : 2 * d.quarter = 2 ^ (d.exponent - 1) := by
    rw [quarter, ← zpow_one_add₀ two_ne_zero]
    congr 1
    omega
  rw [hquarter, topPower]
  constructor
  · refine le_trans (zpow_le_zpow_right₀ one_le_two ?_) hlow
    omega
  · refine lt_of_lt_of_le hhigh (zpow_le_zpow_right₀ one_le_two ?_)
    omega

/-! ## Decimals in the rounding interval -/

theorem coefficient_pos (hpos : 0 < d.significand) {c : ℕ} (h : d.Nearest (c * 10 ^ g)) :
    0 < c := by
  have hlower : 0 < d.lower := by
    unfold lower
    split <;> omega
  have hvalue : 0 < (c : ℚ) * 10 ^ g :=
    (mul_pos (Nat.cast_pos.mpr hlower) d.quarter_pos).trans_le h.lower
  refine Nat.pos_of_ne_zero fun hzero => hvalue.ne' ?_
  rw [hzero, Nat.cast_zero, zero_mul]

theorem exponent_le (hd : d.Canonical) (he : d.exponent ≤ 971) {c : ℕ} (hpos : 0 < c)
    (h : d.Nearest (c * 10 ^ g)) : g ≤ 308 := by
  have hone : (1 : ℚ) ≤ c := Nat.one_le_cast.mpr hpos
  have hend : (d.upper : ℚ) ≤ 2 ^ (55 : ℤ) := by
    have hnat : d.upper ≤ 2 ^ 55 := by
      have := hd.lt
      unfold upper
      omega
    exact_mod_cast hnat
  have hquarter : d.quarter ≤ 2 ^ (969 : ℤ) := zpow_le_zpow_right₀ one_le_two (by omega)
  have hlt : (10 : ℚ) ^ g < 10 ^ (309 : ℤ) := by
    calc
      _ ≤ c * (10 : ℚ) ^ g := le_mul_of_one_le_left (by positivity) hone
      _ ≤ d.upper * d.quarter := h.upper
      _ ≤ 2 ^ (55 : ℤ) * 2 ^ (969 : ℤ) := mul_le_mul hend hquarter d.quarter_pos.le (by positivity)
      _ = 2 ^ (1024 : ℤ) := by rw [← zpow_add₀ two_ne_zero]; norm_num
      _ < 10 ^ (309 : ℤ) := by
        have hnat : 2 ^ 1024 < 10 ^ 309 := by decide +kernel
        exact_mod_cast hnat
  have := (zpow_lt_zpow_iff_right₀ (by norm_num : (1 : ℚ) < 10)).mp hlt
  omega

/-! ## Shortest decimals -/

theorem shortest_spec (tie : Tie) (hd : d.Canonical) (he : d.exponent ≤ 971) :
    d.Nearest (d.shortest tie).value ∧ 2 * d.quarter ≤ 10 ^ ((d.shortest tie).exponent + 1) := by
  obtain ⟨htop, hlast⟩ := topPower_bounds hd he
  obtain ⟨hsome, hfirst⟩ :=
    search_spec 20 d.topPower (exists_onGrid? tie hlast)
  refine ⟨nearest_of_onGrid? hsome, ?_⟩
  rcases hfirst with heq | hnone
  · have hexponent : (d.shortest tie).exponent = d.topPower := heq
    rw [hexponent]
    exact htop.trans (zpow_le_zpow_right₀ (by norm_num) (by omega))
  · by_contra hfine
    obtain ⟨k, hk⟩ := exists_onGrid? tie (lt_of_not_ge hfine)
    cases hnone.symm.trans hk

/-- The decimal is rounded to the number. -/
theorem nearest_shortest (tie : Tie) (hd : d.Canonical) (he : d.exponent ≤ 971) :
    d.Nearest (d.shortest tie).value :=
  (shortest_spec tie hd he).1

/-- The coefficient is no larger than the significand is, but for a few bits. -/
theorem shortest_lt (tie : Tie) (hd : d.Canonical) (he : d.exponent ≤ 971) :
    (d.shortest tie).coefficient < 10 * 2 ^ 54 := by
  obtain ⟨hnearest, hcoarse⟩ := shortest_spec tie hd he
  have hupper := hnearest.upper
  have hten : (0 : ℚ) < 10 ^ (d.shortest tie).exponent := by positivity
  rw [zpow_add_one₀ (by norm_num)] at hcoarse
  rw [Decimal.value] at hupper
  have hend : (d.upper : ℚ) < 2 * (2 ^ 54 : ℕ) := by
    have hnat : d.upper < 2 * 2 ^ 54 := by
      have := hd.lt
      unfold upper
      omega
    exact_mod_cast hnat
  have hlt : (d.shortest tie).coefficient * (10 : ℚ) ^ (d.shortest tie).exponent <
      (10 * 2 ^ 54 : ℕ) * 10 ^ (d.shortest tie).exponent := by
    calc
      _ ≤ (d.upper : ℚ) * d.quarter := hupper
      _ < 2 * (2 ^ 54 : ℕ) * d.quarter := mul_lt_mul_of_pos_right hend d.quarter_pos
      _ = (2 ^ 54 : ℕ) * (2 * d.quarter) := by ring
      _ ≤ (2 ^ 54 : ℕ) * (10 ^ (d.shortest tie).exponent * 10) :=
        mul_le_mul_of_nonneg_left hcoarse (Nat.cast_nonneg _)
      _ = _ := by
        rw [Nat.cast_mul, Nat.cast_ofNat]
        ring
  exact Nat.cast_lt.mp (lt_of_mul_lt_mul_right hlt hten.le)

theorem le_shortest_exponent (tie : Tie) (hd : d.Canonical) (he : d.exponent ≤ 971) :
    -325 ≤ (d.shortest tie).exponent := by
  have hcoarse := (shortest_spec tie hd he).2
  have hquarter : (2 : ℚ) ^ (-1075 : ℤ) ≤ 2 * d.quarter := by
    rw [quarter, ← zpow_one_add₀ two_ne_zero]
    refine zpow_le_zpow_right₀ one_le_two ?_
    have := hd.le
    omega
  have hpower : (10 : ℚ) ^ (-324 : ℤ) ≤ 2 ^ (-1075 : ℤ) := by
    have hnat : 2 ^ 1075 ≤ 10 ^ 324 := by decide +kernel
    have hcast : (2 : ℚ) ^ 1075 ≤ 10 ^ 324 := by exact_mod_cast hnat
    rw [zpow_neg, zpow_neg, inv_le_inv₀ (by positivity) (by positivity)]
    exact_mod_cast hcast
  have hle := (zpow_le_zpow_iff_right₀ (by norm_num : (1 : ℚ) < 10)).mp
    (hpower.trans (hquarter.trans hcoarse))
  omega

end Dyadic

end Treewalk
