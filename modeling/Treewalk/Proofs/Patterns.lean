import Mathlib
import Treewalk.Proofs.Finiteness
import Treewalk.Proofs.Nearest

/-!
# Patterns of finite numbers

A finite number is taken apart in two ways: into a dyadic number by its bit pattern, and into an
unpacked number by the logical model of `Float`.  Both tell the same, and a dyadic number whose
significand is stored as it should be is what the pattern of it is taken apart into, unless its
exponent is too large; then the pattern is that of an infinity.

## Main definitions

* `Dyadic.pattern`, `Dyadic.unpacked`, `Dyadic.packed` — the forms of a finite number.
* `Number.ofFloat_eq_finite_iff` — the numbers that are taken apart into a dyadic number.
* `Number.ofFloat_packed`, `Number.ofFloat_packed_of_lt` — what packing gives.
-/

namespace Treewalk

open Float.Model Float.Model.UnpackedFloat

namespace Dyadic

/-- The sign in an unpacked number. -/
def sign (d : Dyadic) : Sign := if d.negative then .negative else .positive

/-- The bits of a number. -/
def pattern (d : Dyadic) : Nat :=
  (if d.negative then 2 ^ 63 else 0) +
    if d.significand < 2 ^ 52 then d.significand
    else (d.exponent + 1075).toNat * 2 ^ 52 + (d.significand - 2 ^ 52)

/-- The exponent in the pattern. -/
def biased (d : Dyadic) : Nat :=
  if d.significand < 2 ^ 52 then 0 else (d.exponent + 1075).toNat

/-- The unpacked number. -/
def unpacked (d : Dyadic) : UnpackedFloat :=
  if h : 0 < d.significand then .finite d.sign d.significand d.exponent h else .zero d.sign

/-- The number that is packed, or an infinity if the exponent is too large. -/
def packed (d : Dyadic) : Float := .ofModel (.pack d.unpacked)

end Dyadic

namespace Number

variable {x y : Float} {d : Dyadic}

/-- The sign bit is above all others. -/
theorem fields_add_sign (negative : Bool) {w : Nat} (hw : w < 2 ^ 63) :
    let bits := (if negative then 2 ^ 63 else 0) + w
    decide (2 ^ 63 ≤ bits) = negative ∧ bits / 2 ^ 52 % 2048 = w / 2 ^ 52 ∧
      bits % 2 ^ 52 = w % 2 ^ 52 := by
  cases negative with
  | false =>
    refine ⟨decide_eq_false ?_, ?_, ?_⟩ <;> simp only [Bool.false_eq_true, if_false] <;> omega
  | true =>
    refine ⟨decide_eq_true ?_, ?_, ?_⟩ <;> simp only [if_true] <;> omega

/-- A number is taken apart into a dyadic number exactly if it has the pattern of it. -/
theorem ofFloat_eq_finite_iff :
    Binary64.ofFloat x = .finite d ↔
      d.Canonical ∧ d.exponent ≤ 971 ∧ x.toBits.toNat = d.pattern := by
  have hbits : x.toBits.toNat < 2 ^ 64 := x.toBits.toNat_lt
  have hhidden : Binary64.hiddenBit = 2 ^ 52 := rfl
  have hsignBit : Binary64.signBit = 2 ^ 63 := rfl
  rw [Binary64.ofFloat, hhidden, hsignBit]
  generalize x.toBits.toNat = bits at hbits
  constructor
  · intro h
    split_ifs at h with hinfinite hzero
    · cases h
      refine ⟨⟨?_, le_rfl, .inr rfl⟩, ?_, ?_⟩
      · exact Nat.lt_of_lt_of_le (Nat.mod_lt _ (by decide)) (by decide)
      · exact Int.le_of_lt (by decide : (-1074 : Int) < 971)
      · rw [Dyadic.pattern, if_pos (Nat.mod_lt _ (Nat.two_pow_pos 52))]
        dsimp only
        split <;> next hnegative => rw [decide_eq_true_iff] at hnegative; omega
    · cases h
      refine ⟨⟨?_, ?_, .inl (Nat.le_add_left _ _)⟩, ?_, ?_⟩
      · dsimp only
        omega
      · dsimp only
        omega
      · dsimp only
        omega
      · rw [Dyadic.pattern, if_neg (Nat.not_lt.mpr (Nat.le_add_left _ _))]
        dsimp only
        split <;> next hnegative => rw [decide_eq_true_iff] at hnegative; omega
  · rintro ⟨⟨hlt, hle, hfull⟩, hexponent, rfl⟩
    obtain ⟨negative, significand, exponent⟩ := d
    dsimp only at hlt hle hfull hexponent
    rw [Dyadic.pattern]
    dsimp only
    obtain ⟨hsign, hbiased, hfraction⟩ := fields_add_sign negative
      (w := if significand < 2 ^ 52 then significand
        else (exponent + 1075).toNat * 2 ^ 52 + (significand - 2 ^ 52)) (by split <;> omega)
    rw [hsign, hbiased, hfraction]
    by_cases hsmall : significand < 2 ^ 52
    · obtain rfl : exponent = -1074 := hfull.resolve_left (Nat.not_le.mpr hsmall)
      rw [if_pos hsmall, Nat.div_eq_of_lt hsmall, Nat.mod_eq_of_lt hsmall, if_neg (by decide),
        if_pos rfl]
    · have hbiased : ((exponent + 1075).toNat * 2 ^ 52 + (significand - 2 ^ 52)) / 2 ^ 52 =
          (exponent + 1075).toNat := by omega
      have hfraction : ((exponent + 1075).toNat * 2 ^ 52 + (significand - 2 ^ 52)) % 2 ^ 52 =
          significand - 2 ^ 52 := by omega
      have hexponent : (((exponent + 1075).toNat : Nat) : Int) - 1075 = exponent := by omega
      rw [if_neg hsmall, hbiased, hfraction, if_neg (by omega), if_neg (by omega), hexponent,
        Nat.sub_add_cancel (Nat.le_of_not_lt hsmall)]

theorem eq_of_ofFloat (hx : Binary64.ofFloat x = .finite d) (hy : Binary64.ofFloat y = .finite d) :
    x = y := by
  have hbits : x.toBits = y.toBits := by
    rw [← UInt64.toNat_inj, (ofFloat_eq_finite_iff.mp hx).2.2, (ofFloat_eq_finite_iff.mp hy).2.2]
  obtain ⟨⟨_, _⟩⟩ := x
  obtain ⟨⟨_, _⟩⟩ := y
  cases hbits
  rfl

/-! ## Packing -/

theorem unpackSign_packComponents {spec : Format} (s : Sign) (exponent : BitVec spec.exponentBits)
    (fraction : BitVec spec.mantissaBitsWithoutImplicit) :
    Sign.ofBitVec (unpackSign (packComponents spec s exponent fraction)) = s := by
  have hsign : unpackSign (packComponents spec s exponent fraction) = s.toBitVec := by
    ext i hi
    obtain rfl : i = 0 := Nat.lt_one_iff.mp hi
    simp [unpackSign, packComponents, BitVec.getLsbD_append, BitVec.getElem_append]
  rw [hsign]
  cases s <;> rfl

theorem toNat_toBitVec_sign (d : Dyadic) :
    d.sign.toBitVec.toNat * 2 ^ 63 = if d.negative then 2 ^ 63 else 0 := by
  rw [Dyadic.sign]
  cases d.negative <;> rfl

theorem biased_lt (he : d.exponent ≤ 971) : d.biased < 2047 := by
  unfold Dyadic.biased
  split <;> omega

theorem pack_unpacked (hd : d.Canonical) (he : d.exponent ≤ 971) :
    UnpackedFloat.pack Format.binary64 d.unpacked =
      packComponents Format.binary64 d.sign (BitVec.ofNat 11 d.biased)
        (BitVec.ofNat 52 d.significand) := by
  have hlt := hd.lt
  have hle := hd.le
  rw [Dyadic.biased, Dyadic.unpacked]
  by_cases hpos : 0 < d.significand
  · have hfinite : ¬ 2 ^ 11 ≤ (d.exponent + 1075).toNat + 1 := by omega
    rw [dif_pos hpos, UnpackedFloat.pack]
    simp only [biased_eq]
    rw [if_neg hfinite]
    by_cases hfull : 2 ^ 52 ≤ d.significand
    · have hlog : d.significand.log2 = 52 := (Nat.log2_eq_iff hpos.ne').mpr ⟨hfull, hlt⟩
      have hnormal : d.significand.log2 + 1 = Format.binary64.mantissaBits := by
        rw [hlog]
        rfl
      rw [if_pos hnormal, if_neg (Nat.not_lt.mpr hfull)]
    · have hlog : d.significand.log2 < 52 := (Nat.log2_lt hpos.ne').mpr (Nat.lt_of_not_le hfull)
      have hsubnormal : ¬ d.significand.log2 + 1 = Format.binary64.mantissaBits := by
        have hbits : Format.binary64.mantissaBits = 53 := rfl
        omega
      rw [if_neg hsubnormal, if_pos (Nat.lt_of_not_le hfull)]
  · rw [dif_neg hpos, Nat.eq_zero_of_not_pos hpos, if_pos (Nat.two_pow_pos 52)]
    rfl

theorem toNat_pack (hd : d.Canonical) (he : d.exponent ≤ 971) :
    (UnpackedFloat.pack Format.binary64 d.unpacked).toNat = d.pattern := by
  have hbiased := Nat.lt_succ_of_lt (biased_lt he)
  rw [pack_unpacked hd he, toNat_packComponents _ hbiased (Nat.mod_lt _ (Nat.two_pow_pos 52)) rfl,
    toNat_toBitVec_sign, Dyadic.pattern, Dyadic.biased]
  have hlt := hd.lt
  by_cases hsmall : d.significand < 2 ^ 52
  · rw [if_pos hsmall, if_pos hsmall, Nat.mod_eq_of_lt hsmall, Nat.zero_mul, Nat.zero_add]
  · rw [if_neg hsmall, if_neg hsmall]
    omega

/-- What is packed is taken apart again. -/
theorem ofFloat_packed (hd : d.Canonical) (he : d.exponent ≤ 971) :
    Binary64.ofFloat d.packed = .finite d :=
  ofFloat_eq_finite_iff.mpr ⟨hd, he, toNat_pack hd he⟩

/-- With an exponent that is too large an infinity is packed. -/
theorem ofFloat_packed_of_lt (hd : d.Canonical) (he : 971 < d.exponent) :
    Binary64.ofFloat d.packed = .infinite d.negative := by
  have hpos : 0 < d.significand := by
    have hfull := hd.full.resolve_right (by omega)
    omega
  have hinfinite : 2 ^ 11 ≤ (d.exponent + 1075).toNat + 1 := by omega
  have hpack : UnpackedFloat.pack Format.binary64 d.unpacked =
      packedInfinity Format.binary64 d.sign := by
    rw [Dyadic.unpacked, dif_pos hpos, UnpackedFloat.pack]
    simp only [biased_eq]
    rw [if_pos hinfinite]
  have hpacked : d.packed = .ofModel (.pack (.infinity d.sign)) := by
    rw [Dyadic.packed, Float.Model.pack]
    simp only [hpack]
    rfl
  rw [hpacked, Dyadic.sign]
  cases d.negative <;> decide

theorem finite_congr {s : Sign} {m m' : Nat} {e e' : Int} {h : 0 < m} {h' : 0 < m'} (hm : m = m')
    (he : e = e') : UnpackedFloat.finite s m e h = .finite s m' e' h' := by
  subst hm he
  rfl

theorem unpack_pack (hd : d.Canonical) (he : d.exponent ≤ 971) :
    UnpackedFloat.unpack Format.binary64 (UnpackedFloat.pack Format.binary64 d.unpacked) =
      d.unpacked := by
  have hlt := hd.lt
  have hle := hd.le
  have hbiased := biased_lt he
  have hvalue : (BitVec.ofNat 11 d.biased).toNat = d.biased := by
    rw [BitVec.toNat_ofNat]
    omega
  have hinfinite : BitVec.ofNat 11 d.biased ≠ -1#_ := by
    rw [Ne, ← BitVec.toNat_inj, hvalue]
    exact Nat.ne_of_lt hbiased
  have hzero : BitVec.ofNat 11 d.biased = 0#_ ↔ d.significand < 2 ^ 52 := by
    rw [← BitVec.toNat_inj, hvalue, Dyadic.biased]
    show _ = 0 ↔ _
    split <;> omega
  have hexponent : ((BitVec.ofNat 11 d.biased).toNat : Int) -
      ((Format.binary64.exponentBias : Int) + (52 : Nat)) = d.biased - 1075 := by
    rw [hvalue]
    rfl
  rw [pack_unpacked hd he, UnpackedFloat.unpack]
  simp only [unpackExponent_packComponents, unpackMantissa_packComponents,
    unpackSign_packComponents, hexponent]
  rw [if_neg hinfinite, Dyadic.unpacked]
  by_cases hfull : 2 ^ 52 ≤ d.significand
  · have hpos : 0 < d.significand := Nat.lt_of_lt_of_le (Nat.two_pow_pos 52) hfull
    have hsignificand : (1#1 ++ BitVec.ofNat 52 d.significand).toNat = d.significand := by
      rw [toNat_implicit_append, BitVec.toNat_ofNat]
      omega
    have hexact : (d.biased : Int) - 1075 = d.exponent := by
      rw [Dyadic.biased, if_neg (Nat.not_lt.mpr hfull)]
      omega
    rw [if_neg (mt hzero.mp (Nat.not_lt.mpr hfull)), dif_pos hpos]
    exact finite_congr hsignificand hexact
  · have hsmall := Nat.lt_of_not_le hfull
    have hsignificand : (BitVec.ofNat 52 d.significand).toNat = d.significand := by
      rw [BitVec.toNat_ofNat, Nat.mod_eq_of_lt hsmall]
    have hexact : (d.biased : Int) - 1075 + 1 = d.exponent := by
      rw [Dyadic.biased, if_pos hsmall, hd.full.resolve_left hfull]
      rfl
    rw [if_pos (hzero.mpr hsmall)]
    by_cases hpos : 0 < d.significand
    · have hfraction : BitVec.ofNat 52 d.significand ≠ 0#_ := by
        rw [Ne, ← BitVec.toNat_inj, hsignificand]
        exact hpos.ne'
      rw [dif_neg hfraction, dif_pos hpos]
      exact finite_congr hsignificand hexact
    · rw [Nat.eq_zero_of_not_pos hpos]
      rfl

/-- What is taken apart in one way is taken apart in the other. -/
theorem unpack_of_ofFloat (h : Binary64.ofFloat x = .finite d) :
    x.toModel.unpack = d.unpacked := by
  obtain ⟨hd, he, -⟩ := ofFloat_eq_finite_iff.mp h
  rw [eq_of_ofFloat h (ofFloat_packed hd he)]
  exact unpack_pack hd he

theorem isInf_of_ofFloat (h : Binary64.ofFloat x = .finite d) : x.isInf = false := by
  have hunpack : x.isInf = x.toModel.unpack.isInf := rfl
  rw [hunpack, unpack_of_ofFloat h, Dyadic.unpacked]
  split <;> rfl

theorem exists_of_isFinite (h : Number.isFinite x = true) :
    ∃ d, Binary64.ofFloat x = .finite d := by
  rw [Number.isFinite] at h
  split at h
  · next d hd => exact ⟨d, hd⟩
  · cases h

/-! ## Signs -/

theorem ofFloat_neg (h : Binary64.ofFloat x = .finite d) :
    Binary64.ofFloat (-x) = .finite { d with negative := !d.negative } := by
  obtain ⟨hd, he, -⟩ := ofFloat_eq_finite_iff.mp h
  have hneg : -x = .ofModel (.pack x.toModel.unpack.neg) := rfl
  have hunpacked : d.unpacked.neg =
      (Dyadic.mk (!d.negative) d.significand d.exponent).unpacked := by
    rw [Dyadic.unpacked, Dyadic.unpacked, Dyadic.sign, Dyadic.sign]
    split
    · cases d.negative <;> rfl
    · cases d.negative <;> rfl
  rw [hneg, unpack_of_ofFloat h, hunpacked]
  exact ofFloat_packed (d := ⟨!d.negative, d.significand, d.exponent⟩) ⟨hd.lt, hd.le, hd.full⟩ he

theorem neg_neg_of_ofFloat (h : Binary64.ofFloat x = .finite d) : - -x = x := by
  have htwice := ofFloat_neg (ofFloat_neg h)
  rw [Bool.not_not] at htwice
  exact eq_of_ofFloat htwice h

end Number

end Treewalk
