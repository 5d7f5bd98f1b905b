import Mathlib
import Treewalk.Number.Quantity
import Treewalk.Proofs.Exactness
import Treewalk.Proofs.Written

/-!
# Numbers that are read are finite

A numeral that is out of range has no value: the reader multiplies by a power of ten and refuses an
infinity.  It does not look at the result where it divides, and it need not.  The coefficient has 64
bits and a power of ten is at least one, so no quotient comes near the largest number.  This is told
here of the logical model of `Float`, in which a number is unpacked into a significand and a power
of two, the operation is done, and the result is rounded and packed again.

## Main definitions

* `Below`, `AtLeastOne` — bounds on the magnitude of an unpacked number.
* `below_roundWithAccuracy`, `below_unpack_pack` — what rounding and packing do to an upper bound.
* `below_toFloat`, `below_div`, `isFinite_mul`, `isFinite_neg` — the operations of the reader.
* `Numeral.atLeastOne_powerOfTen` — the powers of ten.
* `Numeral.isFinite_of_quantity?` — the value of a numeral is finite.
-/

namespace Treewalk.Number

open Float.Model Float.Model.UnpackedFloat

/-! ## Finite numbers -/

theorem unpackExponent_eq_neg_one_iff (b : BitVec Format.binary64.numBits) :
    unpackExponent b = -1#_ ↔ (unpackExponent b).toNat = 2047 := by
  rw [← BitVec.toNat_inj]
  rfl

theorem isFinite_unpack_iff (b : BitVec Format.binary64.numBits) :
    (UnpackedFloat.unpack Format.binary64 b).isFinite = true ↔ (unpackExponent b).toNat ≠ 2047 := by
  rw [Ne, ← unpackExponent_eq_neg_one_iff, UnpackedFloat.unpack]
  by_cases h : unpackExponent b = -1#_
  · rw [if_pos h]
    split <;> exact iff_of_false Bool.false_ne_true fun hne => hne h
  · rw [if_neg h]
    split_ifs <;> exact iff_of_true rfl h

theorem isFinite_eq_decide (x : Float) :
    isFinite x = decide (x.toBits.toNat / 2 ^ 52 % 2048 ≠ 2047) := by
  show _ = decide (x.toBits.toNat / Binary64.hiddenBit % 2048 ≠ 2047)
  rw [isFinite, Binary64.ofFloat]
  generalize x.toBits.toNat / Binary64.hiddenBit % 2048 = biased
  by_cases h : biased = 2047
  · rw [if_pos h, h]
    split_ifs <;> rfl
  · rw [if_neg h, decide_eq_true h]
    split_ifs <;> rfl

/-- A number is finite if it is finite when it is unpacked. -/
theorem isFinite_iff_unpack (x : Float) :
    isFinite x = true ↔ x.toModel.unpack.isFinite = true := by
  have hexponent : ∀ b : BitVec Format.binary64.numBits,
      (unpackExponent b).toNat = b.toNat / 2 ^ 52 % 2048 := by
    intro b
    rw [← Nat.shiftRight_eq_div_pow]
    rfl
  rw [Float.Model.unpack, isFinite_unpack_iff, hexponent, isFinite_eq_decide, decide_eq_true_iff]
  rfl

/-! ## Packing -/

theorem biased_eq (e : Int) :
    (e + (Format.binary64.exponentBias : Int) + (52 : Nat)).toNat = (e + 1075).toNat :=
  congrArg Int.toNat (Int.add_assoc e 1023 52)

/-- The exponent in the pattern of a finite number is that of an infinity if the number is too
large. -/
theorem isFinite_unpack_pack_iff (s : Sign) {m : Nat} (e : Int) (hm : 0 < m) :
    (UnpackedFloat.unpack Format.binary64
      (UnpackedFloat.pack Format.binary64 (.finite s m e hm))).isFinite = true ↔ e ≤ 971 := by
  rw [isFinite_unpack_iff, UnpackedFloat.pack]
  simp only [biased_eq]
  split_ifs with hlarge hnormal
  · rw [packedInfinity, unpackExponent_packComponents]
    refine iff_of_false (fun h => h rfl) ?_
    omega
  · rw [unpackExponent_packComponents, BitVec.toNat_ofNat]
    omega
  · rw [unpackExponent_packComponents]
    refine iff_of_true (by decide) ?_
    omega

/-- What is finite before it is packed is finite or infinite after that. -/
theorem isFinite_or_isInf_unpack_pack {u : UnpackedFloat} (h : u.isFinite = true) :
    let u' := UnpackedFloat.unpack Format.binary64 (UnpackedFloat.pack Format.binary64 u)
    u'.isFinite = true ∨ u'.isInf = true := by
  cases u with
  | notANumber | infinity => cases h
  | zero s => cases s <;> exact .inl rfl
  | finite s m e hm =>
    by_cases he : e ≤ 971
    · exact .inl ((isFinite_unpack_pack_iff s e hm).mpr he)
    · refine .inr ?_
      have hlarge : 2 ^ 11 ≤ (e + 1075).toNat + 1 := by omega
      rw [UnpackedFloat.pack]
      simp only [biased_eq, if_pos hlarge]
      cases s <;> rfl

/-- An unpacked number that is less than `2 ^ n` in magnitude. -/
def Below (n : Int) : UnpackedFloat → Prop
  | .zero _ => True
  | .finite _ m e _ => ∃ k : Nat, m < 2 ^ k ∧ e + k ≤ n
  | _ => False

theorem Below.isFinite {n : Int} {u : UnpackedFloat} (h : Below n u) : u.isFinite = true := by
  cases u with
  | zero | finite => rfl
  | infinity | notANumber => exact h.elim

/-- An unpacked number that is at least one in magnitude and below infinity. -/
inductive AtLeastOne : UnpackedFloat → Prop where
  | intro (s : Sign) {m : Nat} {e : Int} (hm : 0 < m) : 1 ≤ totalExponent m e →
    AtLeastOne (.finite s m e hm)

instance : DecidablePred AtLeastOne
  | .finite s m e hm =>
    decidable_of_iff (1 ≤ totalExponent m e) ⟨.intro s hm, fun | .intro _ _ h => h⟩
  | .zero _ | .infinity _ | .notANumber => .isFalse nofun

theorem AtLeastOne.isFinite {u : UnpackedFloat} (h : AtLeastOne u) : u.isFinite = true := by
  cases h
  rfl

theorem toNat_implicit_append (v : BitVec 52) : (1#1 ++ v).toNat = 2 ^ 52 + v.toNat := by
  rw [BitVec.toNat_append, ← Nat.shiftLeft_add_eq_or_of_lt v.isLt]
  rfl

theorem log2_implicit_append (v : BitVec 52) : (1#1 ++ v).toNat.log2 = 52 := by
  have hv := v.isLt
  rw [toNat_implicit_append, Nat.log2_eq_iff (by omega)]
  omega

/-- A pattern with the exponent of a number that is neither subnormal nor infinite. -/
theorem unpack_packComponents (s : Sign) {biased : Nat} (hpos : 0 < biased) (h : biased < 2047)
    (v : BitVec 52) : ∃ s' hv, UnpackedFloat.unpack Format.binary64
      (packComponents Format.binary64 s (BitVec.ofNat _ biased) v) =
        .finite s' (1#1 ++ v).toNat ((biased : Int) - 1075) hv := by
  have hvalue : (BitVec.ofNat 11 biased).toNat = biased := by
    rw [BitVec.toNat_ofNat]
    omega
  have hinfinite : BitVec.ofNat 11 biased ≠ -1#_ := by
    rw [Ne, ← BitVec.toNat_inj, hvalue]
    exact Nat.ne_of_lt h
  have hzero : BitVec.ofNat 11 biased ≠ 0#_ := by
    rw [Ne, ← BitVec.toNat_inj, hvalue]
    exact Nat.ne_of_gt hpos
  have hexponent : ((BitVec.ofNat 11 biased).toNat : Int) -
      ((Format.binary64.exponentBias : Int) + (52 : Nat)) = biased - 1075 := by
    rw [hvalue]
    rfl
  have hv : 0 < (1#1 ++ v).toNat :=
    Nat.pos_of_ne_zero fun hv => absurd (hv ▸ log2_implicit_append v) (by decide)
  rw [UnpackedFloat.unpack]
  simp only [unpackExponent_packComponents, unpackMantissa_packComponents, hexponent]
  rw [if_neg hinfinite, if_neg hzero]
  exact ⟨_, hv, rfl⟩

theorem below_unpack_subnormal {n : Int} (s : Sign) (hn : 0 ≤ n) (v : BitVec 52) :
    Below n (UnpackedFloat.unpack Format.binary64 (packComponents Format.binary64 s 0#_ v)) := by
  rw [UnpackedFloat.unpack]
  simp only [unpackExponent_packComponents, unpackMantissa_packComponents]
  rw [if_neg (by decide), if_pos trivial]
  split_ifs
  · trivial
  · refine ⟨52, v.isLt, ?_⟩
    show (0 : Int) - (1023 + 52) + 1 + 52 ≤ n
    omega

theorem below_unpack_pack {n : Int} {u : UnpackedFloat} (h : Below n u) (hn : 0 ≤ n)
    (hn' : n ≤ 972) :
    Below n (UnpackedFloat.unpack Format.binary64 (UnpackedFloat.pack Format.binary64 u)) := by
  cases u with
  | infinity | notANumber => exact h.elim
  | zero s => cases s <;> trivial
  | finite s m e hm =>
    obtain ⟨k, hk, he⟩ := h
    have hkpos : 0 < k := Nat.pos_of_ne_zero (by rintro rfl; omega)
    have hsmall : ¬ 2 ^ 11 ≤ (e + 1075).toNat + 1 := by omega
    rw [UnpackedFloat.pack]
    simp only [biased_eq, if_neg hsmall]
    split_ifs with hnormal
    · have hfull : 52 < k := by
        have hlog : m.log2 = 52 := Nat.add_right_cancel (m := 1) hnormal
        have := (Nat.log2_lt (Nat.ne_of_gt hm)).mpr hk
        omega
      rcases Nat.eq_zero_or_pos (e + 1075).toNat with hzero | hpos
      · rw [hzero]
        exact below_unpack_subnormal s hn _
      · obtain ⟨s', hv, heq⟩ := unpack_packComponents s hpos (by omega) (BitVec.ofNat 52 m)
        rw [heq]
        exact ⟨53, (1#1 ++ BitVec.ofNat 52 m).isLt, by omega⟩
    · exact below_unpack_subnormal s hn _

theorem atLeastOne_unpack_pack (s : Sign) {m : Nat} (hm : m.log2 = 52) {e : Int} (he : -52 ≤ e)
    (he' : e ≤ 971) (hpos : 0 < m) :
    AtLeastOne (UnpackedFloat.unpack Format.binary64
      (UnpackedFloat.pack Format.binary64 (.finite s m e hpos))) := by
  have hsmall : ¬ 2 ^ 11 ≤ (e + 1075).toNat + 1 := by omega
  have hfull : m.log2 + 1 = Format.binary64.mantissaBits := by
    rw [hm]
    rfl
  have hbiased : 0 < (e + 1075).toNat := by omega
  rw [UnpackedFloat.pack]
  simp only [biased_eq, if_neg hsmall, if_pos hfull]
  obtain ⟨s', hv, heq⟩ := unpack_packComponents s hbiased (by omega) (BitVec.ofNat 52 m)
  rw [heq]
  refine .intro s' hv ?_
  rw [totalExponent, log2_implicit_append]
  omega

/-! ## Rounding -/

theorem mantissa_shiftRight (em : ExtendedMantissa) (j : Nat) :
    (em >>> j).mantissa = em.mantissa / 2 ^ j := by
  induction j with
  | zero => exact (Nat.div_one _).symm
  | succ j ih =>
    show (em >>> j).shiftRightOne.mantissa = _
    rw [Nat.pow_succ, ← Nat.div_div_eq_div_mul, ← ih]
    rfl

theorem mantissa_ofMantissaAndAccuracy (m : Nat) (accuracy : Accuracy) :
    (ExtendedMantissa.ofMantissaAndAccuracy m accuracy).mantissa = m := by
  rcases accuracy with _ | ⟨_ | _ | _⟩ <;> rfl

theorem roundedMantissa_le (em : ExtendedMantissa) : em.roundedMantissa ≤ em.mantissa + 1 := by
  rw [ExtendedMantissa.roundedMantissa]
  rcases em.accuracy with _ | ⟨_ | _ | _⟩ <;> simp only [Accuracy.roundToNearestEven] <;> omega

theorem le_roundedMantissa (em : ExtendedMantissa) : em.mantissa ≤ em.roundedMantissa := by
  rw [ExtendedMantissa.roundedMantissa]
  rcases em.accuracy with _ | ⟨_ | _ | _⟩ <;> simp only [Accuracy.roundToNearestEven] <;> omega

/-- A quotient is short of the bits of the divisor. -/
theorem div_lt_two_pow {m d j k : Nat} (hm : m < 2 ^ k) (hd : 2 ^ j ≤ d) :
    m / d < 2 ^ (k - j) := by
  refine Nat.div_lt_of_lt_mul (Nat.lt_of_lt_of_le hm ?_)
  calc
    2 ^ k ≤ 2 ^ (j + (k - j)) := Nat.pow_le_pow_right (by decide) (by omega)
    _ = 2 ^ j * 2 ^ (k - j) := Nat.pow_add 2 j (k - j)
    _ ≤ d * 2 ^ (k - j) := Nat.mul_le_mul_right _ hd

theorem targetExponent_eq (t : Int) : Format.binary64.targetExponent t = max (t - 53) (-1074) :=
  rfl

/-- How many bits of a significand are dropped. -/
def dropped (m : Nat) (e : Int) : Nat :=
  (Format.binary64.targetExponent (totalExponent m e) - e).toNat

/-- A significand loses bits twice: before it is rounded up or not, and after that. -/
theorem roundWithAccuracy_cases (s : Sign) (m : Nat) (e : Int) (accuracy : Accuracy) :
    ∃ r j : Nat, r ≤ m / 2 ^ dropped m e + 1 ∧
      (roundWithAccuracy Format.binary64 s m e accuracy = .zero s ∨
        ∃ hpos, roundWithAccuracy Format.binary64 s m e accuracy =
          .finite s (r / 2 ^ j) (e + dropped m e + j) hpos) := by
  let em := ExtendedMantissa.ofMantissaAndAccuracy m accuracy >>> dropped m e
  refine ⟨em.roundedMantissa, dropped em.roundedMantissa (e + dropped m e), ?_, ?_⟩
  · have hrounded := roundedMantissa_le em
    rwa [mantissa_shiftRight, mantissa_ofMantissaAndAccuracy] at hrounded
  · rw [roundWithAccuracy]
    simp only [shiftToTargetExponent, shiftToExponent, mantissa_shiftRight,
      mantissa_ofMantissaAndAccuracy]
    split_ifs with hzero
    · exact .inl rfl
    · exact .inr ⟨Nat.pos_of_ne_zero hzero, rfl⟩

/-- Bits are dropped only down to the last one, or else down to a small number. -/
theorem dropped_le {n : Int} {m k : Nat} {e : Int} (hm : m < 2 ^ k) (he : e + k ≤ n) (hn : 0 ≤ n) :
    dropped m e ≤ k ∨ e + dropped m e ≤ n := by
  have hlog : m.log2 ≤ k := by
    rcases Nat.eq_zero_or_pos m with rfl | hpos
    · exact Nat.zero_le _
    · exact Nat.le_of_lt ((Nat.log2_lt (Nat.ne_of_gt hpos)).mpr hm)
  rw [dropped, targetExponent_eq, totalExponent]
  omega

/-- Rounding to the nearest number at most doubles a number. -/
theorem below_roundWithAccuracy {n : Int} {m k : Nat} {e : Int} (hm : m < 2 ^ k) (he : e + k ≤ n)
    (hn : 0 ≤ n) (s : Sign) (accuracy : Accuracy) :
    Below (n + 1) (roundWithAccuracy Format.binary64 s m e accuracy) := by
  obtain ⟨r, j, hr, hzero | ⟨hpos, hfinite⟩⟩ := roundWithAccuracy_cases s m e accuracy
  · rw [hzero]
    trivial
  rw [hfinite]
  have hdropped := dropped_le hm he hn
  generalize dropped m e = i at hr hdropped
  have hr : r < 2 ^ (k - i + 1) := by
    have hdiv : m / 2 ^ i < 2 ^ (k - i) := div_lt_two_pow hm (Nat.le_refl _)
    have hpos : 0 < 2 ^ (k - i) := Nat.two_pow_pos _
    rw [Nat.pow_succ]
    omega
  have hj : j < k - i + 1 := by
    have hle : 2 ^ j ≤ r := (Nat.div_pos_iff.mp hpos).2
    exact (Nat.pow_lt_pow_iff_right (by decide)).mp (Nat.lt_of_le_of_lt hle hr)
  exact ⟨k - i + 1 - j, div_lt_two_pow hr (Nat.le_refl _), by omega⟩

/-- A significand of at least fifty-three bits is rounded to one of as many, if there are no more of
them after it is rounded up. -/
theorem roundWithAccuracy_of_full {m : Nat} {e : Int} (hm : 52 ≤ m.log2)
    (he : -1074 ≤ e + (m.log2 - 52 : Nat)) (hup : m / 2 ^ (m.log2 - 52) + 1 < 2 ^ 53) :
    ∃ r hpos, r.log2 = 52 ∧ roundWithAccuracy Format.binary64 .positive m e .exact =
      .finite .positive r (e + (m.log2 - 52 : Nat)) hpos := by
  have hdropped : dropped m e = m.log2 - 52 := by
    rw [dropped, targetExponent_eq, totalExponent]
    omega
  let em := ExtendedMantissa.ofMantissaAndAccuracy m .exact >>> dropped m e
  have hmantissa : em.mantissa = m / 2 ^ (m.log2 - 52) := by
    rw [mantissa_shiftRight, mantissa_ofMantissaAndAccuracy, hdropped]
  have hlow : 2 ^ 52 ≤ em.mantissa := by
    rw [hmantissa, Nat.le_div_iff_mul_le (Nat.two_pow_pos _), ← Nat.pow_add,
      Nat.add_sub_cancel' hm]
    refine Nat.log2_self_le ?_
    rintro rfl
    cases hm
  have hlog : em.roundedMantissa.log2 = 52 := by
    have hle := le_roundedMantissa em
    have hge := roundedMantissa_le em
    rw [Nat.log2_eq_iff (by omega)]
    omega
  have hpos : 0 < em.roundedMantissa := by
    have hle := le_roundedMantissa em
    omega
  have hshift : shiftToTargetExponent Format.binary64 m e .exact = (em, e + dropped m e) := rfl
  refine ⟨em.roundedMantissa, hpos, hlog, ?_⟩
  rw [roundWithAccuracy]
  simp only [hshift, hdropped, shiftToTargetExponent_full hlog he]
  rw [dif_neg (Nat.ne_of_gt hpos)]

/-! ## Operations -/

theorem below_ofNat {n k : Nat} (hn : n < 2 ^ k) :
    Below (k + 1) (UnpackedFloat.ofNat Format.binary64 n) := by
  rw [UnpackedFloat.ofNat, UnpackedFloat.ofInt, UnpackedFloat.normalize]
  cases hcompare : compare (n : Int) 0 with
  | eq => trivial
  | lt => exact absurd (Int.compare_eq_lt.mp hcompare) (by omega)
  | gt =>
    let j := (0 - Format.binary64.targetExponent (totalExponent n 0)).toNat
    have hround : UnpackedFloat.round Format.binary64 .positive n 0 =
        roundWithAccuracy Format.binary64 .positive (n <<< j) (0 - j) .exact := rfl
    have hshift : n <<< j < 2 ^ (k + j) := by
      rw [Nat.shiftLeft_eq, Nat.pow_add]
      exact Nat.mul_lt_mul_of_pos_right hn (Nat.two_pow_pos j)
    rw [Int.toNat_natCast, hround]
    exact below_roundWithAccuracy hshift (by omega) (by omega) _ _

/-- The quotient by a number that is at least one is no larger, but for the rounding. -/
theorem below_div {n : Int} {u v : UnpackedFloat} (hu : Below n u) (hn : 0 ≤ n)
    (hv : AtLeastOne v) : Below (n + 1) (UnpackedFloat.div Format.binary64 u v) := by
  obtain @⟨s, m, e, hm, hone⟩ := hv
  cases u with
  | infinity | notANumber => exact hu.elim
  | zero => trivial
  | finite s' m' e' hm' =>
    obtain ⟨k, hk, hek⟩ := hu
    have hlog : m'.log2 < k := (Nat.log2_lt (Nat.ne_of_gt hm')).mpr hk
    have htarget :
        Format.binary64.targetExponent (totalExponent m' e' - totalExponent m e) ≤ n := by
      rw [targetExponent_eq]
      simp only [totalExponent] at hone ⊢
      omega
    rw [UnpackedFloat.div]
    simp only [divCore]
    generalize Format.binary64.targetExponent (totalExponent m' e' - totalExponent m e) = t
      at htarget
    have hshift : m' <<< (e' - e - min (e' - e) t).toNat <
        2 ^ (k + (e' - e - min (e' - e) t).toNat) := by
      rw [Nat.shiftLeft_eq, Nat.pow_add]
      exact Nat.mul_lt_mul_of_pos_right hk (Nat.two_pow_pos _)
    have hquotient := div_lt_two_pow hshift (Nat.log2_self_le (Nat.ne_of_gt hm))
    refine below_roundWithAccuracy hquotient ?_ hn _ _
    simp only [totalExponent] at hone
    omega

/-! ## Numbers -/

theorem below_toFloat (w : UInt64) : Below 65 w.toFloat.toModel.unpack :=
  below_unpack_pack (below_ofNat w.toNat_lt) (by decide) (by decide)

theorem isFinite_of_below {n : Int} {x : Float} (h : Below n x.toModel.unpack) :
    isFinite x = true :=
  (isFinite_iff_unpack x).mpr h.isFinite

theorem below_unpack_div {n : Int} {x y : Float} (hx : Below n x.toModel.unpack) (hn : 0 ≤ n)
    (hn' : n < 972) (hy : AtLeastOne y.toModel.unpack) :
    Below (n + 1) (x / y).toModel.unpack :=
  below_unpack_pack (below_div hx hn hy) (by omega) (by omega)

theorem isFinite_unpackedMul {u v : UnpackedFloat} (hu : u.isFinite = true)
    (hv : v.isFinite = true) : (UnpackedFloat.mul Format.binary64 u v).isFinite = true := by
  cases u with
  | infinity | notANumber => cases hu
  | zero => cases v <;> first | rfl | cases hv
  | finite s m e hm =>
    cases v with
    | infinity | notANumber => cases hv
    | zero => rfl
    | finite s' m' e' hm' =>
      rw [UnpackedFloat.mul]
      obtain ⟨r, j, -, hzero | ⟨hpos, hfinite⟩⟩ :=
        roundWithAccuracy_cases (s * s') (m * m') (e + e') .exact
      · rw [hzero]
        rfl
      · rw [hfinite]
        rfl

/-- A product of finite numbers is finite unless it is an infinity. -/
theorem isFinite_mul {x y : Float} (hx : isFinite x = true) (hy : isFinite y = true)
    (h : (x * y).isInf = false) : isFinite (x * y) = true := by
  rw [isFinite_iff_unpack] at hx hy ⊢
  refine (isFinite_or_isInf_unpack_pack (isFinite_unpackedMul hx hy)).resolve_right fun hinf => ?_
  rw [show (x * y).isInf = true from hinf] at h
  cases h

theorem exponent_unpack_le {b : BitVec Format.binary64.numBits} {s : Sign} {m : Nat} {e : Int}
    {hm : 0 < m} (h : UnpackedFloat.unpack Format.binary64 b = .finite s m e hm) : e ≤ 971 := by
  have hfinite := (isFinite_unpack_iff b).mp (by rw [h]; rfl)
  have hlt : (unpackExponent b).toNat < 2048 := (unpackExponent b).isLt
  have hbias : (Format.binary64.exponentBias : Int) = 1023 := rfl
  rw [UnpackedFloat.unpack, if_neg (mt (unpackExponent_eq_neg_one_iff b).mp hfinite)] at h
  dsimp only at h
  split at h
  · next hzero =>
    split at h
    · cases h
    · cases h
      rw [hzero]
      decide
  · cases h
    omega

theorem isFinite_neg {x : Float} (hx : isFinite x = true) : isFinite (-x) = true := by
  rw [isFinite_iff_unpack] at hx ⊢
  have hneg : (-x).toModel.unpack = UnpackedFloat.unpack Format.binary64
      (UnpackedFloat.pack Format.binary64 x.toModel.unpack.neg) := rfl
  rw [hneg]
  cases hu : x.toModel.unpack with
  | infinity | notANumber => rw [hu] at hx; cases hx
  | zero s => cases s <;> rfl
  | finite s m e hm =>
    exact (isFinite_unpack_pack_iff _ e hm).mpr (exponent_unpack_le hu)

end Treewalk.Number

namespace Treewalk.Numeral

open Number
open Float.Model Float.Model.UnpackedFloat

/-! ## Numerals -/

/-- A power of ten beyond the table is rounded from the number itself. -/
theorem powerOfTen_eq {k : Nat} (hk : 22 < k) (hk' : k ≤ 308) :
    powerOfTen k = .ofModel (.pack
      (roundWithAccuracy Format.binary64 .positive (1 <<< 53 * 10 ^ k) (-53) .exact)) := by
  have htable : ¬ (1 < 2 ^ 53 ∧ k ≤ 22) := fun h => Nat.not_le_of_lt hk h.2
  have hoverflow : ¬ Int.ofNat k > 2 ^ Format.binary64.exponentBits := by
    show ¬ (k : Int) > 2 ^ 11
    omega
  have hunderflow :
      ¬ Int.ofNat k < -(2 ^ Format.binary64.exponentBits + (Nat.log2 1 : Int)) := by
    show ¬ (k : Int) < -(2 ^ 11 + 0)
    omega
  have hnonneg : 0 ≤ Int.ofNat k := Int.natCast_nonneg k
  rw [powerOfTen, Float.ofScientific, dif_neg htable]
  dsimp only
  rw [if_neg Bool.false_ne_true, Float.Model.ofScientific, UnpackedFloat.ofScientific,
    dif_neg Nat.one_ne_zero, if_neg hoverflow, if_neg hunderflow, if_pos hnonneg]
  rfl

theorem unpack_powerOfTen {k : Nat} (hk : 22 < k) (hk' : k ≤ 308) :
    (powerOfTen k).toModel.unpack = UnpackedFloat.unpack Format.binary64
      (UnpackedFloat.pack Format.binary64
        (roundWithAccuracy Format.binary64 .positive (1 <<< 53 * 10 ^ k) (-53) .exact)) := by
  rw [powerOfTen_eq hk hk']
  rfl

/-- The powers of ten are at least one.  Beyond the table they are rounded, and it is their first
bits that have to be looked at: none of them is rounded up to a power of two. -/
theorem atLeastOne_powerOfTen {k : Nat} (hk : k ≤ 308) :
    AtLeastOne (powerOfTen k).toModel.unpack := by
  have htable : ∀ k ≤ 22, AtLeastOne (powerOfTen k).toModel.unpack := by decide +kernel
  -- The fraction is close enough to the logarithm of ten for all these powers.
  have hround : ∀ k ≤ 308,
      let m := 1 <<< 53 * 10 ^ k
      let l := 53 + k * 217706 / 65536
      2 ^ l ≤ m ∧ m < 2 ^ (l + 1) ∧ m / 2 ^ (l - 52) + 1 < 2 ^ 53 := by decide +kernel
  by_cases hsmall : k ≤ 22
  · exact htable k hsmall
  · obtain ⟨hlow, hhigh, hup⟩ := hround k hk
    rw [unpack_powerOfTen (Nat.lt_of_not_le hsmall) hk]
    generalize 1 <<< 53 * 10 ^ k = m at hlow hhigh hup ⊢
    have hlog : m.log2 = 53 + k * 217706 / 65536 :=
      (Nat.log2_eq_iff (Nat.ne_of_gt (Nat.lt_of_lt_of_le (Nat.two_pow_pos _) hlow))).mpr
        ⟨hlow, hhigh⟩
    rw [← hlog] at hup
    obtain ⟨r, hpos, hr, heq⟩ :=
      roundWithAccuracy_of_full (by omega) (by omega : -1074 ≤ -53 + _) hup
    rw [heq]
    exact atLeastOne_unpack_pack _ hr (by omega) (by omega) hpos

/-- What scaling gives is finite. -/
theorem isFinite_of_scale? {coefficient : Nat} {exponent : Int} {x : Float}
    (h : scale? coefficient exponent = some x) : isFinite x = true := by
  have hcoefficient := below_toFloat (UInt64.ofNat coefficient)
  rw [scale?] at h
  dsimp only at h
  generalize (UInt64.ofNat coefficient).toFloat = y at hcoefficient h
  generalize exponent.natAbs = k at h
  split_ifs at h with hpositive hlarge hzero hinfinite hsmall hsmaller
  · cases h
    exact isFinite_of_below hcoefficient
  · cases h
    refine isFinite_mul (isFinite_of_below hcoefficient) ?_ (Bool.eq_false_iff.mpr hinfinite)
    exact (isFinite_iff_unpack _).mpr
      (atLeastOne_powerOfTen (Nat.le_of_not_lt hlarge)).isFinite
  · cases h
    exact isFinite_of_below
      (below_unpack_div hcoefficient (by decide) (by decide) (atLeastOne_powerOfTen hsmall))
  · cases h
    have hlast := @atLeastOne_powerOfTen (k - 308) (by omega)
    have htop := atLeastOne_powerOfTen (Nat.le_refl 308)
    generalize powerOfTen 308 = p at htop ⊢
    have hfirst := below_unpack_div hcoefficient (by decide) (by decide) htop
    exact isFinite_of_below (below_unpack_div hfirst (by decide) (by decide) hlast)
  · cases h
    decide +kernel

theorem isFinite_of_magnitude? {n : Numeral} {x : Float} (h : n.magnitude? = some x) :
    isFinite x = true := by
  rw [magnitude?] at h
  dsimp only at h
  split at h
  · exact isFinite_of_scale? h
  · split_ifs at h
    · exact isFinite_of_scale? h
    · cases h
      decide +kernel

/-- The value of a numeral is finite. -/
theorem isFinite_of_quantity? {n : Numeral} {q : Quantity} (h : n.quantity? = some q) :
    isFinite q.toFloat = true := by
  have hword : ∀ w : UInt64, isFinite w.toFloat = true :=
    fun w => isFinite_of_below (below_toFloat w)
  cases q with
  | natural w => exact hword w
  | negative w => exact isFinite_neg (hword w)
  | real x =>
    rw [quantity?] at h
    split at h
    · next hinteger =>
      cases h
      rw [integer?] at hinteger
      dsimp only at hinteger
      split_ifs at hinteger
      all_goals cases hinteger
    · obtain ⟨y, hy, heq⟩ := Option.map_eq_some_iff.mp h
      cases heq
      have hfinite := isFinite_of_magnitude? hy
      show isFinite (if n.negative then -y else y) = true
      split_ifs
      · exact isFinite_neg hfinite
      · exact hfinite

end Treewalk.Numeral
