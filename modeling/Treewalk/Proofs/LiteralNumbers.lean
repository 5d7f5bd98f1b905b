import Mathlib
import Treewalk.Proofs.PrintedNumerals
import Treewalk.Proofs.RoundTrip

/-!
# Which numbers of literals survive

The number of a literal is printed as a decimal that is rounded to it, so that nothing is lost in
the text.  The reader does not round the decimal, though.  It rounds the digits, it rounds the power
of ten, and it rounds what both make.  The literal comes back as it was exactly if this gives its
number again.  It does whenever the digits have fifty-three bits and the power of ten is one of
those that are exact, since then only one rounding is left.  It does not always: of
`9007199254740991.0` the digits have a bit too many.

## Main definitions

* `readsBack_iff_scaled` — the numbers that are read back.
* `Literal.decode_iff_readsBack` — a literal comes back if its number is read back.
* `literal_survives_iff` — the literals that come back from their texts.
-/

namespace Treewalk

open Json (Doc Spells)
open Number
open Numeral (Scaled)

variable {x : Float} {d : Dyadic}

/-! ## Numbers -/

theorem numeral?_document (hx : Binary64.ofFloat x = .finite d) :
    NumberStyle.document.numeral? x = some (NumberStyle.document.finite d) := by
  rw [NumberStyle.numeral?, hx]

theorem leaf_document (hx : Binary64.ofFloat x = .finite d) :
    (Doc.number (NumberStyle.document.finite d)).Leaf := by
  obtain ⟨hd, he, -⟩ := ofFloat_eq_finite_iff.mp hx
  exact .number _ (NumberStyle.decimal_of_numeral? (numeral?_document hx))
    (NumberStyle.scalable_finite hd he).whole

/-- A number is read back if the steps of scaling its digits give its magnitude. -/
theorem readsBack_iff_scaled (hx : Binary64.ofFloat x = .finite d) :
    ReadsBack x ↔ Scaled (NumberStyle.document.finite d).coefficient d.magnitude
      (NumberStyle.document.finite d).exponent := by
  obtain ⟨hd, he, -⟩ := ofFloat_eq_finite_iff.mp hx
  have hscalable := NumberStyle.scalable_finite hd he
  rw [readsBack_iff (numeral?_document hx),
    hscalable.reads_iff hx (NumberStyle.negative_finite d)]
  exact and_iff_right hscalable.whole

theorem ofDoc_of_quantity? {n : Numeral} {q : Quantity} (h : n.quantity? = some q) :
    Item.literalValue.ofDoc (.number n) = .ok (.number q.toFloat) := by
  have hread : Item.literalValue.ofDoc (.number n) =
      Read.literalValue nestingLimit (.number n) := rfl
  simp only [hread, Read.literalValue, h]
  rfl

/-! ## Literals -/

namespace Literal

variable {n : Numeral}

/-- Both texts of a literal spell it, be its number in range or not. -/
theorem spells_texts (l : Literal) (hleaf : l.value.toDoc.Leaf) :
    Spells (.value l.toDoc) l.toDoc.compactText.toList [] ∧
      Spells (.value l.toDoc) l.toDoc.prettyText.toList [] := by
  have hcompact : l.toDoc.compactText.toList = l.toDoc.compact [] := String.toList_ofList
  have hpretty : l.toDoc.prettyText.toList = l.toDoc.pretty 0 [] := String.toList_ofList
  have hmembers : ∀ m ∈ l.members, m.2.Leaf ∨ m.2.Whole := by
    intro m hm
    simp only [members, List.mem_cons, List.not_mem_nil, or_false] at hm
    rcases hm with rfl | rfl | rfl
    · exact .inl hleaf
    · exact .inr (reads_text _).whole
    · exact .inr l.location.reads.whole
  rw [hcompact, hpretty]
  constructor
  · refine .object (Json.skipBlank_cons rfl _)
      (Json.spells_compactMembers (fun m hm rest hrest => ?_) (List.cons_ne_nil _ _) [])
    rcases hmembers m hm with hleaf | hwhole
    · rw [hleaf.compact_eq]
      exact .leaf hleaf hrest (hleaf.skipBlank_eq rest)
    · exact Json.spells_compact hwhole hrest
  · have hpieces : ∀ m ∈ l.members, ∀ rest, Numeral.Stops rest →
        Spells (.value m.2) (m.2.pretty 1 rest) rest := by
      intro m hm rest hrest
      rcases hmembers m hm with hleaf | hwhole
      · rw [hleaf.pretty_eq]
        exact .leaf hleaf hrest (hleaf.skipBlank_eq rest)
      · exact Json.spells_pretty hwhole 1 hrest
    exact .object (Json.skipBlank_cons rfl _)
      ((Json.spells_prettyMembers 0 hpieces []).of_skipBlank (Json.skipBlank_newline _ _))

/-- The fields of a literal after its value. -/
def otherFields : List Field := Record.literal.fields.tail

/-- The members of a literal after its value. -/
def otherMembers (l : Literal) : List (String × Doc) :=
  [("raw", .ofString l.raw), ("location", l.location.toDoc)]

/-- What the members after the value are read as. -/
def others (l : Literal) : Filled otherFields := (l.raw, l.location, ())

theorem readMembers_others (l : Literal) {room : Nat} (hroom : 1 ≤ room) :
    readMembers (Item.read room .streaming) otherFields .closed (Partial.empty otherFields)
      (Doc.keyed l.otherMembers) = .ok l.others := by
  have hread : FieldsRead otherFields l.otherMembers l.others :=
    .cons (reads_text _) (.cons l.location.reads .nil)
  have hdistinct : Distinct otherFields := by
    rw [Distinct, otherFields]
    decide
  have hdepth : Doc.depthMembers (Doc.keyed l.otherMembers) ≤ room := hroom
  exact (readMembers_fields hread hdistinct room .streaming).trans (within_of_le hdepth _)

/-- The value of a literal is read first, and all else is read as it was. -/
theorem read_number (l : Literal) (hvalue : l.value.toDoc = .number n) (room : Nat)
    (hroom : 1 ≤ room) :
    Item.read (room + 1) .streaming (.record .literal) l.toDoc =
      (Item.read room .streaming .literalValue (.number n)).map fun v =>
        ({ l with value := v } : Literal) := by
  have hlater : ∀ m ∈ Doc.keyed l.otherMembers, ∀ key, m.1 = some key →
      (Field.required "value" .literalValue).answersTo key = false := by
    intro m hm key hkey
    simp only [otherMembers, Doc.keyed_cons, Doc.keyed_nil, List.mem_cons, List.not_mem_nil,
      or_false] at hm
    rcases hm with rfl | rfl <;> cases hkey <;> decide
  have hfirst := @readMembers_first (Item.read room .streaming) _ otherFields _ (.number n) hlater
  rw [l.readMembers_others hroom] at hfirst
  have hdoc : l.toDoc =
      .object ((some "value", .number n) :: Doc.keyed l.otherMembers) .closed := by
    rw [toDoc, Doc.ofMembers_eq, members, hvalue]
    rfl
  rw [hdoc]
  refine (congrArg (Except.map (Filled.build .literal)) hfirst).trans ?_
  have hnumber : Read.shape (Item.read room .streaming)
      (Field.required "value" .literalValue).shape (.number n) =
      Item.read room .streaming .literalValue (.number n) := rfl
  rw [hnumber]
  cases Item.read room .streaming .literalValue (.number n) <;> rfl

theorem ofDoc_number (l : Literal) (hvalue : l.value.toDoc = .number n) :
    (Item.record .literal).ofDoc l.toDoc =
      (Item.literalValue.ofDoc (.number n)).map fun v => ({ l with value := v } : Literal) :=
  l.read_number hvalue 126 (by decide)

/-- What either text of a literal is read as, if its number is finite. -/
theorem decode_texts (l : Literal) (hvalue : l.value = .number x)
    (hx : Binary64.ofFloat x = .finite d) :
    let read : Except DecodeError Literal :=
      (Item.literalValue.ofDoc (.number (NumberStyle.document.finite d))).map
        fun v => { l with value := v }
    (Item.record .literal).decode l.toDoc.compactText.toList = read ∧
      (Item.record .literal).decode l.toDoc.prettyText.toList = read := by
  have hdoc : l.value.toDoc = .number (NumberStyle.document.finite d) := by
    rw [hvalue, LiteralValue.toDoc, numberDoc, numeral?_document hx]
  obtain ⟨hcompact, hpretty⟩ := l.spells_texts (hdoc ▸ leaf_document hx)
  exact ⟨(decode_eq_ofDoc hcompact).trans (l.ofDoc_number hdoc),
    (decode_eq_ofDoc hpretty).trans (l.ofDoc_number hdoc)⟩

/-- A literal comes back from either text exactly if its number is read back. -/
theorem decode_iff_readsBack (l : Literal) (hvalue : l.value = .number x)
    (hx : Binary64.ofFloat x = .finite d) :
    ((Item.record .literal).decode l.toDoc.compactText.toList = .ok l ↔ ReadsBack x) ∧
      ((Item.record .literal).decode l.toDoc.prettyText.toList = .ok l ↔ ReadsBack x) := by
  obtain ⟨hcompact, hpretty⟩ := l.decode_texts hvalue hx
  have hleaf := leaf_document hx
  have hback : ReadsBack x ↔ Item.literalValue.ofDoc (.number (NumberStyle.document.finite d)) =
      .ok (.number x) := by
    have htext : (numberDoc x).compactText.toList =
        (Doc.number (NumberStyle.document.finite d)).scalarChars [] := by
      rw [numberDoc, numeral?_document hx, Doc.compactText, String.toList_ofList]
      exact hleaf.compact_eq []
    rw [ReadsBack, htext, decode_eq_ofDoc
      (.leaf hleaf Numeral.stops_nil (hleaf.skipBlank_eq []))]
  rw [hcompact, hpretty, hback, and_self]
  obtain ⟨value, raw, location⟩ := l
  obtain rfl : value = .number x := hvalue
  cases Item.literalValue.ofDoc (.number (NumberStyle.document.finite d)) with
  | error e => exact iff_of_false (fun h => by cases h) fun h => by cases h
  | ok v =>
    constructor
    · intro h
      exact congrArg (fun l => Except.ok l.value) (Except.ok.inj h)
    · intro h
      exact congrArg (fun v => Except.ok (Literal.mk v raw location)) (Except.ok.inj h)

end Literal

/-- The text of a finite number is a decimal that is rounded to it.  A literal of the number comes
back from either text if and only if the steps that the decimal is scaled by give the number, and
they do if the digits have fifty-three bits and the power of ten is no more than the
twenty-second. -/
theorem literal_survives_iff (l : Literal) (hvalue : l.value = .number x)
    (hx : Binary64.ofFloat x = .finite d) :
    let n := NumberStyle.document.finite d
    RoundsTo n.value d.magnitude ∧
      ((Item.record .literal).decode l.toDoc.compactText.toList = .ok l ↔
        Scaled n.coefficient d.magnitude n.exponent) ∧
      ((Item.record .literal).decode l.toDoc.prettyText.toList = .ok l ↔
        Scaled n.coefficient d.magnitude n.exponent) ∧
      (n.coefficient < 2 ^ 53 → n.exponent.natAbs ≤ 22 →
        Scaled n.coefficient d.magnitude n.exponent) := by
  obtain ⟨hd, he, -⟩ := ofFloat_eq_finite_iff.mp hx
  have hnearest := NumberStyle.nearest_finite hd he
  have hrounds : RoundsTo (NumberStyle.document.finite d).value d.magnitude :=
    ⟨d, hd, hnearest, rfl⟩
  obtain ⟨hcompact, hpretty⟩ := l.decode_iff_readsBack hvalue hx
  have hscaled := readsBack_iff_scaled hx
  exact ⟨hrounds, hcompact.trans hscaled, hpretty.trans hscaled,
    fun hc he => (Numeral.scaled_iff_of_exact hc he).mpr hrounds⟩

/-- A number with two digits. -/
def threeHalves : Literal := { value := .number 1.5 }

/-- Zero with a sign. -/
def negativeZero : Literal := { value := .number (-0.0) }

/-- Two digits come back, and so does the sign of zero. -/
theorem threeHalves_survives :
    (Item.record .literal).decode threeHalves.toDoc.prettyText.toList = .ok threeHalves ∧
      (Item.record .literal).decode negativeZero.toDoc.compactText.toList = .ok negativeZero := by
  have hthree : Binary64.ofFloat 1.5 = .finite ⟨false, 3 * 2 ^ 51, -52⟩ := by decide +kernel
  have hzero : Binary64.ofFloat (-0.0) = .finite ⟨true, 0, -1074⟩ := by decide +kernel
  obtain ⟨-, -, hpretty, hsmall⟩ := literal_survives_iff threeHalves rfl hthree
  obtain ⟨-, hcompact, -, hsmall'⟩ := literal_survives_iff negativeZero rfl hzero
  exact ⟨hpretty.mpr (hsmall (by decide +kernel) (by decide +kernel)),
    hcompact.mpr (hsmall' (by decide +kernel) (by decide +kernel))⟩

/-- The largest integer of fifty-three bits. -/
def largestOdd : Literal := { value := .number 9007199254740991 }

/-- An integer is printed with a zero after the point, and with that zero it has a bit too many: the
digits are rounded before they are divided by ten, and another literal is read. -/
theorem largestOdd_changes :
    Number.isFinite 9007199254740991 = true ∧
      (Item.record .literal).decode largestOdd.toDoc.compactText.toList =
        .ok { largestOdd with value := .number 9007199254740990 } ∧
      (9007199254740991 : Float) ≠ 9007199254740990 := by
  have hx : Binary64.ofFloat 9007199254740991 = .finite ⟨false, 9007199254740991, 0⟩ := by
    decide +kernel
  have hquantity : (NumberStyle.document.finite ⟨false, 9007199254740991, 0⟩).quantity? =
      some (.real 9007199254740990) := by
    decide +kernel
  refine ⟨by decide +kernel, ?_, by decide +kernel⟩
  rw [(largestOdd.decode_texts rfl hx).1, ofDoc_of_quantity? hquantity]
  rfl

end Treewalk
