import Mathlib.Data.List.Forall2
import Mathlib.Data.List.Pairwise
import Treewalk.Tree.Decode

/-!
# Members of objects and what readers accept of them

The reader takes the members of an object one after the other and remembers which fields were given.
Which members it accepts does not depend on that: a record needs one value for every field that has
no fallback, wherever it stands and whatever key of the field it stands under, and nothing else of
it matters but that unknown members are JSON.  Likewise a node needs one tag, wherever it stands,
and nothing else of it matters before its parts are read but that it can be kept.

## Main definitions

* `Json.Doc.WellFormed` — documents that can be kept if there is room for them.
* `valuesUnder`, `tagValues` — what is given for a field and for the tag.
* `Given`, `Sequence` — the two written forms of a record, in terms of the parts.
* `readMembers_eq_ok_iff`, `readSequence_eq_ok_iff`, `readTagged_none_iff` — the readers.
-/

namespace Treewalk

open Json (Doc Ending)

/-! ## Documents that can be kept -/

namespace Json.Doc

section Parts

variable {room : Nat} {ds : List Doc} {ms : List (Option String × Doc)}

theorem soundItems_iff : soundItems room ds = true ↔ ∀ d ∈ ds, d.sound room = true := by
  induction ds with
  | nil => simp [soundItems]
  | cons d ds ih => simp [soundItems, ih]

theorem soundMembers_iff :
    soundMembers room ms = true ↔ ∀ m ∈ ms, m.1.isSome = true ∧ m.2.sound room = true := by
  induction ms with
  | nil => simp [soundMembers]
  | cons m ms ih => simp [soundMembers, ih]

theorem depthItems_le_iff : depthItems ds ≤ room ↔ ∀ d ∈ ds, d.depth ≤ room := by
  induction ds with
  | nil => simp [depthItems]
  | cons d ds ih => rw [depthItems, Nat.max_le, ih, List.forall_mem_cons]

theorem depthMembers_le_iff : depthMembers ms ≤ room ↔ ∀ m ∈ ms, m.2.depth ≤ room := by
  induction ms with
  | nil => simp [depthMembers]
  | cons m ms ih => rw [depthMembers, Nat.max_le, ih, List.forall_mem_cons]

theorem completeItems_iff : completeItems ds = true ↔ ∀ d ∈ ds, d.complete = true := by
  induction ds with
  | nil => simp [completeItems]
  | cons d ds ih => simp [completeItems, ih]

theorem completeMembers_iff : completeMembers ms = true ↔ ∀ m ∈ ms, m.2.complete = true := by
  induction ms with
  | nil => simp [completeMembers]
  | cons m ms ih => simp [completeMembers, ih]

theorem depth_list_le_iff {ending : Ending} :
    (Doc.list ds ending).depth ≤ room + 1 ↔ ∀ d ∈ ds, d.depth ≤ room := by
  rw [depth, Nat.add_le_add_iff_right, depthItems_le_iff]

theorem depth_object_le_iff {ending : Ending} :
    (Doc.object ms ending).depth ≤ room + 1 ↔ ∀ m ∈ ms, m.2.depth ≤ room := by
  rw [depth, Nat.add_le_add_iff_right, depthMembers_le_iff]

end Parts

/-- A document that is JSON throughout: with numbers in range, and with strings and keys that have
values, so that no half of a surrogate pair is left alone. -/
inductive WellFormed : Doc → Prop where
  | null : WellFormed .null
  | boolean (b : Bool) : WellFormed (.boolean b)
  | number {n : Numeral} : n.quantity?.isSome = true → WellFormed (.number n)
  | text (s : String) : WellFormed (.text (some s))
  | list {ds : List Doc} : (∀ d ∈ ds, WellFormed d) → WellFormed (.list ds .closed)
  | object {ms : List (Option String × Doc)} : (∀ m ∈ ms, m.1.isSome = true) →
    (∀ m ∈ ms, WellFormed m.2) → WellFormed (.object ms .closed)

theorem WellFormed.complete {d : Doc} (h : d.WellFormed) : d.complete = true := by
  induction h with
  | list _ ih => simpa [Doc.complete] using completeItems_iff.mpr ih
  | object _ _ ih => simpa [Doc.complete] using completeMembers_iff.mpr ih
  | _ => rfl

theorem WellFormed.sound {d : Doc} (h : d.WellFormed) {room : Nat} (hroom : d.depth ≤ room) :
    d.sound room = true := by
  induction h generalizing room with
  | null | boolean | text => rfl
  | number hn => exact hn
  | list _ ih =>
    obtain ⟨room, rfl⟩ : ∃ r, room = r + 1 := ⟨room - 1, by rw [depth] at hroom; omega⟩
    rw [depth_list_le_iff] at hroom
    simpa [Doc.sound] using soundItems_iff.mpr fun d hd => ih d hd (hroom d hd)
  | object hkeys _ ih =>
    obtain ⟨room, rfl⟩ : ∃ r, room = r + 1 := ⟨room - 1, by rw [depth] at hroom; omega⟩
    rw [depth_object_le_iff] at hroom
    simpa [Doc.sound] using soundMembers_iff.mpr fun m hm => ⟨hkeys m hm, ih m hm (hroom m hm)⟩

/-- Only the depth of a document decides whether there is room for it. -/
theorem sound_iff {d : Doc} {room : Nat} :
    d.sound room = true ↔ d.WellFormed ∧ d.depth ≤ room := by
  refine ⟨fun h => ?_, fun h => h.1.sound h.2⟩
  induction room generalizing d with
  | zero =>
    cases d with
    | null => exact ⟨.null, Nat.le_refl _⟩
    | boolean b => exact ⟨.boolean b, Nat.le_refl _⟩
    | number n => exact ⟨.number h, Nat.le_refl _⟩
    | text s =>
      cases s with
      | none => cases h
      | some s => exact ⟨.text s, Nat.le_refl _⟩
    | list | object | broken => cases h
  | succ room ih =>
    cases d with
    | null => exact ⟨.null, Nat.zero_le _⟩
    | boolean b => exact ⟨.boolean b, Nat.zero_le _⟩
    | number n => exact ⟨.number h, Nat.zero_le _⟩
    | text s =>
      cases s with
      | none => cases h
      | some s => exact ⟨.text s, Nat.zero_le _⟩
    | list ds ending =>
      simp only [Doc.sound, Bool.and_eq_true, beq_iff_eq, soundItems_iff] at h
      obtain ⟨hds, rfl⟩ := h
      exact ⟨.list fun d hd => (ih (hds d hd)).1,
        depth_list_le_iff.mpr fun d hd => (ih (hds d hd)).2⟩
    | object ms ending =>
      simp only [Doc.sound, Bool.and_eq_true, beq_iff_eq, soundMembers_iff] at h
      obtain ⟨hms, rfl⟩ := h
      exact ⟨.object (fun m hm => (hms m hm).1) fun m hm => (ih (hms m hm).2).1,
        depth_object_le_iff.mpr fun m hm => (ih (hms m hm).2).2⟩
    | broken => cases h

end Json.Doc

/-! ## Keys -/

/-- The values under the keys that are picked out. -/
def valuesUnder (pick : String → Bool) (ms : List (Option String × Doc)) : List Doc :=
  ms.filterMap fun m => if m.1.any pick then some m.2 else none

section Values

variable {pick : String → Bool} {key : String} {d : Doc} {ms : List (Option String × Doc)}

theorem valuesUnder_cons_of_pos (h : pick key = true) :
    valuesUnder pick ((some key, d) :: ms) = d :: valuesUnder pick ms := by
  simp [valuesUnder, h]

theorem valuesUnder_cons_of_neg (h : pick key = false) :
    valuesUnder pick ((some key, d) :: ms) = valuesUnder pick ms := by
  simp [valuesUnder, h]

theorem mem_of_mem_valuesUnder (h : d ∈ valuesUnder pick ms) : ∃ m ∈ ms, m.2 = d := by
  obtain ⟨m, hm, hd⟩ := List.mem_filterMap.mp h
  split at hd
  · exact ⟨m, hm, Option.some.inj hd⟩
  · cases hd

end Values

/-- The keys of a field. -/
def Field.keys (f : Field) : List String := f.name :: f.aliases

theorem Field.answersTo_iff {f : Field} {key : String} : f.answersTo key = true ↔ key ∈ f.keys := by
  simp [answersTo, keys]

/-- No two fields have a key in common. -/
def Exclusive (fs : List Field) : Prop := fs.Pairwise fun f g => ∀ key ∈ f.keys, key ∉ g.keys

theorem Record.exclusive_fields (r : Record) : Exclusive r.fields := by
  rw [Exclusive]
  cases r <;> decide

/-- The key of the tag is no key of a field. -/
theorem Record.type_notMem_keys (r : Record) : ∀ f ∈ r.fields, "type" ∉ f.keys := by
  cases r <;> decide

/-- A key of one field is no key of any other. -/
theorem Exclusive.answersTo_eq_false {fs : List Field} (h : Exclusive fs) {f g : Field}
    (hf : f ∈ fs) (hg : g ∈ fs) (hne : g ≠ f) {key : String} (hkey : f.answersTo key = true) :
    g.answersTo key = false := by
  have hsymm : Std.Symm fun f g : Field => ∀ key ∈ f.keys, key ∉ g.keys :=
    ⟨fun _ _ h key hk hk' => h key hk' hk⟩
  rw [Bool.eq_false_iff, Ne, Field.answersTo_iff]
  exact h.forall hf hg hne.symm key (Field.answersTo_iff.mp hkey)

theorem Record.ne_type_of_answersTo (r : Record) {f : Field} (hf : f ∈ r.fields) {key : String}
    (hkey : f.answersTo key = true) : key ≠ "type" := by
  rintro rfl
  exact r.type_notMem_keys f hf (Field.answersTo_iff.mp hkey)

/-! ## The fields of a record -/

/-- A relation between documents and what they stand for. -/
abbrev Meaning := (s : Shape) → Doc → s.Carrier → Prop

/-- The value of a field, told by the documents that are given for it. -/
def FieldGiven (R : Meaning) (f : Field) : List Doc → f.shape.Carrier → Prop
  | [], x => f.fallback = some x
  | [d], x => R f.shape d x
  | _ :: _ :: _, _ => False

theorem fieldGiven_cons {R : Meaning} {f : Field} {d : Doc} {ds : List Doc} {x : f.shape.Carrier} :
    FieldGiven R f (d :: ds) x ↔ ds = [] ∧ R f.shape d x := by
  cases ds with
  | nil => exact (and_iff_right rfl).symm
  | cons => simp [FieldGiven]

theorem FieldGiven.perm {R : Meaning} {f : Field} {ds ds' : List Doc} {x : f.shape.Carrier}
    (h : FieldGiven R f ds x) (hds : ds.Perm ds') : FieldGiven R f ds' x := by
  match ds with
  | [] => exact List.nil_perm.mp hds ▸ h
  | [d] => exact List.singleton_perm.mp hds ▸ h
  | _ :: _ :: _ => exact h.elim

/-- The values of fields, told by the members of an object in any order. -/
def Given (R : Meaning) (ms : List (Option String × Doc)) : (fs : List Field) → Filled fs → Prop
  | [], _ => True
  | f :: fs, (x, xs) => FieldGiven R f (valuesUnder f.answersTo ms) x ∧ Given R ms fs xs

/-- All keys have values, and the values of unknown members are JSON. -/
def Admissible (fs : List Field) (ms : List (Option String × Doc)) : Prop :=
  ∀ m ∈ ms, ∃ key, m.1 = some key ∧ ((∀ f ∈ fs, f.answersTo key = false) → m.2.complete = true)

theorem admissible_cons {fs : List Field} {key : String} {d : Doc}
    {ms : List (Option String × Doc)} :
    Admissible fs ((some key, d) :: ms) ↔
      ((∀ f ∈ fs, f.answersTo key = false) → d.complete = true) ∧ Admissible fs ms := by
  simp [Admissible]

/-- The values of fields, told by the items of a list in their order.  Only the last fields may be
left out. -/
def Sequence (R : Meaning) : (fs : List Field) → List Doc → Filled fs → Prop
  | [], ds, _ => ds = []
  | f :: fs, d :: ds, (x, xs) => R f.shape d x ∧ Sequence R fs ds xs
  | f :: fs, [], (x, xs) => f.fallback = some x ∧ Sequence R fs [] xs

section Monotone

variable {R R' : Meaning} {fs : List Field}

theorem Given.imp {ms ms' : List (Option String × Doc)} {xs : Filled fs}
    (hfield : ∀ f ∈ fs, ∀ x, FieldGiven R f (valuesUnder f.answersTo ms) x →
      FieldGiven R' f (valuesUnder f.answersTo ms') x) (h : Given R ms fs xs) :
    Given R' ms' fs xs := by
  induction fs with
  | nil => trivial
  | cons f fs ih =>
    rw [List.forall_mem_cons] at hfield
    exact ⟨hfield.1 _ h.1, ih hfield.2 h.2⟩

theorem FieldGiven.imp {f : Field} {ds : List Doc} {x : f.shape.Carrier}
    (hR : ∀ d ∈ ds, R f.shape d x → R' f.shape d x) (h : FieldGiven R f ds x) :
    FieldGiven R' f ds x := by
  match ds with
  | [] => exact h
  | [d] => exact hR d (.head _) h
  | _ :: _ :: _ => exact h.elim

/-- Only what the members mean matters to the fields. -/
theorem Given.mono {ms : List (Option String × Doc)} {xs : Filled fs}
    (hR : ∀ m ∈ ms, ∀ s x, R s m.2 x → R' s m.2 x) (h : Given R ms fs xs) :
    Given R' ms fs xs := by
  refine h.imp fun f _ x hx => hx.imp fun d hd => ?_
  obtain ⟨m, hm, rfl⟩ := mem_of_mem_valuesUnder hd
  exact hR m hm _ x

theorem Sequence.mono {ds : List Doc} {xs : Filled fs}
    (hR : ∀ d ∈ ds, ∀ s x, R s d x → R' s d x) (h : Sequence R fs ds xs) :
    Sequence R' fs ds xs := by
  induction fs generalizing ds with
  | nil => exact h
  | cons f fs ih =>
    cases ds with
    | nil => exact ⟨h.1, ih hR h.2⟩
    | cons d ds =>
      rw [List.forall_mem_cons] at hR
      exact ⟨hR.1 _ _ h.1, ih hR.2 h.2⟩

end Monotone

/-! ## What readers of records accept -/

section Readers

theorem map_eq_ok_iff {α β : Type} {f : α → β} {r : Except DecodeError α} {b : β} :
    r.map f = .ok b ↔ ∃ a, r = .ok a ∧ f a = b := by
  cases r <;> simp [Except.map]

theorem bind_eq_ok_iff {α β : Type} {f : α → Except DecodeError β} {r : Except DecodeError α}
    {b : β} : (r >>= f) = .ok b ↔ ∃ a, r = .ok a ∧ f a = .ok b := by
  cases r <;> simp [bind, Except.bind]

/-- What a reader of items makes of the places in a record. -/
def Reader.meaning (read : Reader) : Meaning := fun s d x => Read.shape read s d = .ok x

variable {read : Reader} {fs : List Field} {ms : List (Option String × Doc)}

/-- The value of a field that may have been given before. -/
private def FieldAfter (R : Meaning) (f : Field) :
    Option f.shape.Carrier → List Doc → f.shape.Carrier → Prop
  | some y, ds, x => ds = [] ∧ y = x
  | none, ds, x => FieldGiven R f ds x

/-- The values of fields some of which were given before. -/
private def GivenAfter (R : Meaning) (ms : List (Option String × Doc)) :
    (fs : List Field) → Partial fs → Filled fs → Prop
  | [], _, _ => True
  | f :: fs, (given, p), (x, xs) =>
    FieldAfter R f given (valuesUnder f.answersTo ms) x ∧ GivenAfter R ms fs p xs

private theorem givenAfter_empty (R : Meaning) (xs : Filled fs) :
    GivenAfter R ms fs (Partial.empty fs) xs ↔ Given R ms fs xs := by
  induction fs with
  | nil => exact Iff.rfl
  | cons f fs ih => exact and_congr Iff.rfl (ih xs.2)

/-- Only the values that are given for the fields matter to them. -/
private theorem givenAfter_congr {R : Meaning} {ms' : List (Option String × Doc)}
    (h : ∀ f ∈ fs, valuesUnder f.answersTo ms = valuesUnder f.answersTo ms') (p : Partial fs)
    (xs : Filled fs) : GivenAfter R ms fs p xs ↔ GivenAfter R ms' fs p xs := by
  induction fs with
  | nil => exact Iff.rfl
  | cons f fs ih =>
    obtain ⟨given, p⟩ := p
    obtain ⟨x, xs⟩ := xs
    rw [List.forall_mem_cons] at h
    rw [GivenAfter, GivenAfter, h.1, ih h.2]

private theorem complete_iff (p : Partial fs) (xs : Filled fs) :
    p.complete fs = .ok xs ↔ GivenAfter read.meaning [] fs p xs := by
  induction fs with
  | nil => exact ⟨fun _ => trivial, fun _ => rfl⟩
  | cons f fs ih =>
    obtain ⟨given, p⟩ := p
    obtain ⟨x, xs⟩ := xs
    have hrest : ∀ y, ((p.complete fs).map fun ys => (y, ys)) = .ok (x, xs) ↔
        y = x ∧ GivenAfter read.meaning [] fs p xs := by
      intro y
      rw [map_eq_ok_iff]
      constructor
      · rintro ⟨ys, hys, heq⟩
        cases heq
        exact ⟨rfl, (ih p _).mp hys⟩
      · rintro ⟨rfl, hxs⟩
        exact ⟨xs, (ih p xs).mpr hxs, rfl⟩
    cases given with
    | some y => exact (hrest y).trans (and_congr_left fun _ => (and_iff_right rfl).symm)
    | none =>
      have hgiven : FieldAfter read.meaning f none [] x ↔ f.fallback = some x := Iff.rfl
      rw [Partial.complete, GivenAfter, show valuesUnder f.answersTo [] = [] from rfl, hgiven]
      cases f.fallback with
      | some y => exact (hrest y).trans (and_congr_left fun _ => Option.some_inj.symm)
      | none => simp

/-- A field in front of others. -/
private def Partial.cons {f : Field} (given : Option f.shape.Carrier) (p : Partial fs) :
    Partial (f :: fs) := (given, p)

private theorem fill?_cons {f : Field} {key : String} {d : Doc} (given : Option f.shape.Carrier)
    (p : Partial fs) :
    Partial.fill? read key d (f :: fs) (Partial.cons given p) =
      if f.answersTo key then
        some <|
          match given with
          | some _ => .error (.duplicateField f.name)
          | none => (Read.shape read f.shape d).map fun x => Partial.cons (some x) p
      else (p.fill? read key d fs).map fun r => r.map (Partial.cons given) :=
  rfl

private theorem fill?_eq_none_iff {key : String} {d : Doc} {p : Partial fs} :
    p.fill? read key d fs = none ↔ ∀ f ∈ fs, f.answersTo key = false := by
  induction fs with
  | nil => simp [Partial.fill?]
  | cons f fs ih =>
    obtain ⟨given, p⟩ := p
    refine (fill?_cons given p).congr_left.trans ?_
    rw [List.forall_mem_cons]
    cases f.answersTo key with
    | true => simp
    | false =>
      rw [if_neg Bool.false_ne_true, Option.map_eq_none_iff, ih]
      exact (and_iff_right rfl).symm

/-- A member fills the field that answers to its key, which must not have been given before. -/
private theorem givenAfter_of_fill? (hfs : Exclusive fs) {key : String} {d : Doc} {p : Partial fs}
    {r : Except DecodeError (Partial fs)} (hr : p.fill? read key d fs = some r) (xs : Filled fs) :
    GivenAfter read.meaning ((some key, d) :: ms) fs p xs ↔
      ∃ p', r = .ok p' ∧ GivenAfter read.meaning ms fs p' xs := by
  induction fs with
  | nil => cases hr
  | cons f fs ih =>
    obtain ⟨hf, hfs⟩ := List.pairwise_cons.mp hfs
    obtain ⟨given, p⟩ := p
    obtain ⟨x, xs⟩ := xs
    replace hr := (fill?_cons given p).symm.trans hr
    cases hkey : f.answersTo key with
    | true =>
      rw [hkey, if_pos rfl] at hr
      obtain rfl := Option.some.inj hr
      have hlater : ∀ g ∈ fs, valuesUnder g.answersTo ((some key, d) :: ms) =
          valuesUnder g.answersTo ms := by
        intro g hg
        refine valuesUnder_cons_of_neg (Bool.eq_false_iff.mpr fun hkg => ?_)
        exact hf g hg key (Field.answersTo_iff.mp hkey) (Field.answersTo_iff.mp hkg)
      cases given with
      | some y => simp [GivenAfter, FieldAfter, valuesUnder_cons_of_pos hkey]
      | none =>
        rw [GivenAfter, valuesUnder_cons_of_pos hkey, givenAfter_congr hlater, FieldAfter,
          fieldGiven_cons]
        constructor
        · rintro ⟨⟨hnone, hx⟩, hxs⟩
          exact ⟨Partial.cons (some x) p, by rw [hx]; rfl, ⟨hnone, rfl⟩, hxs⟩
        · rintro ⟨p', hp', hxs⟩
          obtain ⟨y, hy, rfl⟩ := map_eq_ok_iff.mp hp'
          obtain ⟨⟨hnone, rfl⟩, hxs⟩ := hxs
          exact ⟨⟨hnone, hy⟩, hxs⟩
    | false =>
      rw [hkey, if_neg Bool.false_ne_true] at hr
      obtain ⟨r, hrest, rfl⟩ := Option.map_eq_some_iff.mp hr
      rw [GivenAfter, valuesUnder_cons_of_neg hkey, ih hfs hrest xs]
      constructor
      · rintro ⟨hx, p', rfl, hxs⟩
        exact ⟨Partial.cons given p', rfl, hx, hxs⟩
      · rintro ⟨p', hp', hx, hxs⟩
        obtain ⟨p'', rfl, rfl⟩ := map_eq_ok_iff.mp hp'
        exact ⟨hx, p'', rfl, hxs⟩

/-- The order of the members has no influence on what is accepted. -/
theorem readMembers_eq_ok_iff (hfs : Exclusive fs) {ending : Ending} {xs : Filled fs} :
    readMembers read fs ending (Partial.empty fs) ms = .ok xs ↔
      ending = .closed ∧ Admissible fs ms ∧ Given read.meaning ms fs xs := by
  rw [← givenAfter_empty]
  generalize Partial.empty fs = p
  induction ms generalizing p with
  | nil =>
    rw [readMembers, ← complete_iff]
    cases ending <;> simp [Admissible]
  | cons m ms ih =>
    obtain ⟨key, d⟩ := m
    cases key with
    | none => simp [readMembers, Admissible]
    | some key =>
      rw [readMembers]
      cases hfill : p.fill? read key d fs with
      | none =>
        have hunknown := fill?_eq_none_iff.mp hfill
        have hvalues : ∀ f ∈ fs, valuesUnder f.answersTo ((some key, d) :: ms) =
            valuesUnder f.answersTo ms := fun f hf => valuesUnder_cons_of_neg (hunknown f hf)
        have hadmissible : Admissible fs ((some key, d) :: ms) ↔
            d.complete = true ∧ Admissible fs ms := by
          rw [admissible_cons, forall_prop_of_true hunknown]
        rw [givenAfter_congr hvalues, hadmissible, and_assoc, and_left_comm, ← ih p]
        cases d.complete <;> simp
      | some r =>
        have hadmissible : Admissible fs ((some key, d) :: ms) ↔ Admissible fs ms := by
          refine admissible_cons.trans (and_iff_right fun hunknown => ?_)
          rw [fill?_eq_none_iff.mpr hunknown] at hfill
          cases hfill
        rw [givenAfter_of_fill? hfs hfill, hadmissible]
        cases r with
        | error e => simp
        | ok p => simpa using ih p

theorem readFields_eq_ok_iff {record : Expected} {position : Nat} {ds : List Doc}
    {xs : Filled fs} :
    readFields read record .closed position fs ds = .ok (xs, []) ↔
      Sequence read.meaning fs ds xs := by
  induction fs generalizing position ds with
  | nil =>
    cases ds with
    | nil => exact ⟨fun _ => rfl, fun _ => rfl⟩
    | cons d ds => exact ⟨nofun, nofun⟩
  | cons f fs ih =>
    obtain ⟨x, xs⟩ := xs
    -- What is left to do once a field has its value.
    have hrest : ∀ y ds, (readFields read record .closed (position + 1) fs ds >>= fun r =>
        pure ((y, r.1), r.2)) = .ok ((x, xs), []) ↔ y = x ∧ Sequence read.meaning fs ds xs := by
      intro y ds
      have hfields : readFields read record .closed (position + 1) fs ds = .ok (xs, []) ↔
          Sequence read.meaning fs ds xs := ih
      rw [bind_eq_ok_iff, ← hfields]
      constructor
      · rintro ⟨⟨ys, rest⟩, hys, heq⟩
        cases heq
        exact ⟨rfl, hys⟩
      · rintro ⟨rfl, hxs⟩
        exact ⟨(xs, []), hxs, rfl⟩
    cases ds with
    | nil =>
      show (match f.fallback with
        | some y => readFields read record .closed (position + 1) fs [] >>= fun r =>
          pure ((y, r.1), r.2)
        | none => .error (.invalidLength position record)) = .ok ((x, xs), []) ↔
          f.fallback = some x ∧ _
      cases f.fallback with
      | some y => exact (hrest y []).trans (and_congr_left fun _ => Option.some_inj.symm)
      | none => simp
    | cons d ds =>
      refine bind_eq_ok_iff.trans ?_
      constructor
      · rintro ⟨y, hy, h⟩
        obtain ⟨rfl, hxs⟩ := (hrest y ds).mp h
        exact ⟨hy, hxs⟩
      · rintro ⟨hx, hxs⟩
        exact ⟨x, hx, (hrest x ds).mpr ⟨rfl, hxs⟩⟩

/-- A record as a list. -/
theorem readSequence_eq_ok_iff {mode : Mode} {r : Record} {ds : List Doc} {ending : Ending}
    {xs : Filled r.fields} :
    readSequence mode read r ds ending = .ok xs ↔
      ending = .closed ∧ Sequence read.meaning r.fields ds xs := by
  rw [readSequence, bind_eq_ok_iff]
  constructor
  · rintro ⟨⟨ys, rest⟩, hys, h⟩
    dsimp only at h
    split at h
    · cases h
    · split at h
      · cases h
      · next hend =>
        rw [not_or, not_not, not_not] at hend
        obtain ⟨rfl, rfl⟩ := hend
        obtain rfl := Except.ok.inj h
        exact ⟨rfl, readFields_eq_ok_iff.mp hys⟩
  · rintro ⟨rfl, h⟩
    exact ⟨(xs, []), readFields_eq_ok_iff.mpr h, by simp⟩

/-- The items of a list. -/
theorem items_eq_ok_iff {α : Type} {readItem : Doc → Except DecodeError α} {ending : Ending}
    {ds : List Doc} {xs : List α} :
    Read.items readItem ending ds = .ok xs ↔
      ending = .closed ∧ List.Forall₂ (fun d x => readItem d = .ok x) ds xs := by
  induction ds generalizing xs with
  | nil =>
    cases ending <;> simp [Read.items, eq_comm]
  | cons d ds ih =>
    rw [Read.items, bind_eq_ok_iff]
    constructor
    · rintro ⟨x, hx, h⟩
      obtain ⟨xs', hxs, heq⟩ := bind_eq_ok_iff.mp h
      cases heq
      exact ⟨(ih.mp hxs).1, .cons hx (ih.mp hxs).2⟩
    · rintro ⟨rfl, h⟩
      cases h with
      | cons hx hxs => exact ⟨_, hx, bind_eq_ok_iff.mpr ⟨_, ih.mpr ⟨rfl, hxs⟩, rfl⟩⟩

end Readers

/-! ## What readers of nodes accept -/

/-- The documents that are given for the tag of a node. -/
def tagValues (ms : List (Option String × Doc)) : List Doc := valuesUnder (· == "type") ms

/-- The members of a node apart from its tag. -/
def untagged (ms : List (Option String × Doc)) : List (Option String × Doc) :=
  ms.filter fun m => m.1 != some "type"

/-- All keys have values, and all members apart from the tag can be kept in some room. -/
def KeptMembers (room : Nat) (ms : List (Option String × Doc)) : Prop :=
  ∀ m ∈ ms, m.1.isSome = true ∧ (m.1 ≠ some "type" → m.2.sound room = true)

section Tags

variable {f : Family} {mode : Mode} {room : Nat} {key : String} {d : Doc}
  {ms others : List (Option String × Doc)} {v w : Variant f}

private theorem keptMembers_cons_of_ne (hkey : key ≠ "type") :
    KeptMembers room ((some key, d) :: ms) ↔ d.sound room = true ∧ KeptMembers room ms := by
  simp [KeptMembers, hkey]

private theorem untagged_cons_of_ne (hkey : key ≠ "type") :
    untagged ((some key, d) :: ms) = (some key, d) :: untagged ms := by
  simp [untagged, hkey]

theorem tagValues_cons_of_ne (hkey : key ≠ "type") :
    tagValues ((some key, d) :: ms) = tagValues ms :=
  valuesUnder_cons_of_neg (by simpa using hkey)

private theorem readTagged_cons_of_ne (hkey : key ≠ "type") {tag tag' : Option (Variant f)} :
    readTagged mode room tag ((some key, d) :: ms) = .ok (tag', others) ↔
      d.sound room = true ∧ ∃ others', others = (some key, d) :: others' ∧
        readTagged mode room tag ms = .ok (tag', others') := by
  simp only [readTagged, if_neg hkey]
  cases d.sound room with
  | false => simp
  | true =>
    rw [if_pos rfl, bind_eq_ok_iff, and_iff_right rfl]
    constructor
    · rintro ⟨⟨tag'', others'⟩, hrest, heq⟩
      cases heq
      exact ⟨others', rfl, hrest⟩
    · rintro ⟨others', rfl, hrest⟩
      exact ⟨(tag', others'), hrest, rfl⟩

private theorem readTagged_some_iff :
    readTagged mode room (some v) ms = .ok (some w, others) ↔
      KeptMembers room ms ∧ others = untagged ms ∧ tagValues ms = [] ∧ v = w := by
  induction ms generalizing others with
  | nil =>
    constructor
    · intro h
      cases h
      exact ⟨nofun, rfl, rfl, rfl⟩
    · rintro ⟨-, rfl, -, rfl⟩
      rfl
  | cons m ms ih =>
    obtain ⟨key, d⟩ := m
    cases key with
    | none => simp [readTagged, KeptMembers]
    | some key =>
      by_cases hkey : key = "type"
      · simp [readTagged, hkey, tagValues, valuesUnder]
      · rw [readTagged_cons_of_ne hkey, keptMembers_cons_of_ne hkey, untagged_cons_of_ne hkey,
          tagValues_cons_of_ne hkey]
        constructor
        · rintro ⟨hd, others', rfl, hrest⟩
          obtain ⟨hkept, rfl, htags⟩ := ih.mp hrest
          exact ⟨⟨hd, hkept⟩, rfl, htags⟩
        · rintro ⟨⟨hd, hkept⟩, rfl, htags⟩
          exact ⟨hd, untagged ms, rfl, ih.mpr ⟨hkept, rfl, htags⟩⟩

/-- The place of the tag has no influence on what is accepted. -/
theorem readTagged_none_iff :
    readTagged mode room none ms = .ok (some v, others) ↔
      KeptMembers room ms ∧ others = untagged ms ∧
        ∃ t, tagValues ms = [t] ∧ readTag mode f t = .ok v := by
  induction ms generalizing others with
  | nil => simp [readTagged, tagValues, valuesUnder]
  | cons m ms ih =>
    obtain ⟨key, d⟩ := m
    cases key with
    | none => simp [readTagged, KeptMembers]
    | some key =>
      by_cases hkey : key = "type"
      · subst hkey
        have htags : tagValues ((some "type", d) :: ms) = d :: tagValues ms :=
          valuesUnder_cons_of_pos rfl
        have hkept : KeptMembers room ((some "type", d) :: ms) ↔ KeptMembers room ms := by
          simp [KeptMembers]
        have huntagged : untagged ((some "type", d) :: ms) = untagged ms := by simp [untagged]
        rw [readTagged, if_pos rfl, htags, hkept, huntagged]
        refine bind_eq_ok_iff.trans ?_
        simp only [readTagged_some_iff, List.cons.injEq]
        constructor
        · rintro ⟨v', hv, hms, rfl, hnone, rfl⟩
          exact ⟨hms, rfl, d, ⟨rfl, hnone⟩, hv⟩
        · rintro ⟨hms, rfl, t, ⟨rfl, hnone⟩, hv⟩
          exact ⟨v, hv, hms, rfl, hnone, rfl⟩
      · rw [readTagged_cons_of_ne hkey, keptMembers_cons_of_ne hkey, untagged_cons_of_ne hkey,
          tagValues_cons_of_ne hkey]
        constructor
        · rintro ⟨hd, others', rfl, hrest⟩
          obtain ⟨hkept, rfl, htags⟩ := ih.mp hrest
          exact ⟨⟨hd, hkept⟩, rfl, htags⟩
        · rintro ⟨⟨hd, hkept⟩, rfl, htags⟩
          exact ⟨hd, untagged ms, rfl, ih.mpr ⟨hkept, rfl, htags⟩⟩

end Tags

end Treewalk
