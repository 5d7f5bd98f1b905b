import Mathlib.Logic.Relation
import Treewalk.Proofs.Acceptance
import Treewalk.Proofs.RoundTrip
import Treewalk.Tree.Build

/-!
# Presentation does not matter

A tree can be written in many ways.  The members of an object may stand in any order, a field may
have its other key, a field with its fallback may be left out, members that nothing is known of may
come and go, and a kind of node may have its other tag.  Whatever is changed in these ways, at any
node and as often as one likes, the text stays a text of the same tree, if only it does not nest too
deep for the reader.  On the way it may: a document is followed through its changes with all the
room that it needs.

What stands under an unknown key has to be JSON in a record, and has to be kept in a node, where all
members are put aside until the tag is found.  So a new member must be well-formed, and one that is
taken out or changed may be anything that was accepted.

## Main definitions

* `Edit` — changes of the members of an object.
* `Restyled` — a change at some node of a document.
* `Preserved` — what a change leaves as it is.
* `Json.Doc.HasText` — texts of a document.
* `decode_restyled` — texts of documents that were changed.
-/

namespace Treewalk

open Json (Doc Ending)

/-! ## Changes -/

/-- A key that no field answers to and that is not set aside. -/
def Unknown (fs : List Field) (aside : List String) (key : String) : Prop :=
  key ∉ aside ∧ ∀ f ∈ fs, f.answersTo key = false

/-- A change of the members of an object with given fields.  Since the members may be put in any
order, the other changes are told of the first one. -/
inductive Edit (mode : Mode) (fs : List Field) (aside : List String) :
    List (Option String × Doc) → List (Option String × Doc) → Prop where
  | permute {ms ms' : List (Option String × Doc)} : ms.Perm ms' → Edit mode fs aside ms ms'
  | add {key : String} {d : Doc} {ms : List (Option String × Doc)} : Unknown fs aside key →
    d.WellFormed → Edit mode fs aside ms ((some key, d) :: ms)
  | remove {key : String} {d : Doc} {ms : List (Option String × Doc)} : Unknown fs aside key →
    Edit mode fs aside ((some key, d) :: ms) ms
  /-- Write another value of an unknown member, for which it is enough that it is no worse than the
  one before. -/
  | change {key : String} {d d' : Doc} {ms : List (Option String × Doc)} : Unknown fs aside key →
    (d.complete = true → d'.complete = true) → (d.WellFormed → d'.WellFormed) →
    Edit mode fs aside ((some key, d) :: ms) ((some key, d') :: ms)
  /-- Write another key of the same field. -/
  | rename {f : Field} {key key' : String} {d : Doc} {ms : List (Option String × Doc)} : f ∈ fs →
    f.answersTo key = true → f.answersTo key' = true →
    Edit mode fs aside ((some key, d) :: ms) ((some key', d) :: ms)
  /-- Leave a field out that has its fallback. -/
  | drop {f : Field} {key : String} {d : Doc} {x : f.shape.Carrier}
    {ms : List (Option String × Doc)} : f ∈ fs → f.answersTo key = true → f.fallback = some x →
    Accepts mode f.shape d x → Edit mode fs aside ((some key, d) :: ms) ms
  /-- Write a field out that was left to its fallback. -/
  | write {f : Field} {key : String} {d : Doc} {x : f.shape.Carrier}
    {ms : List (Option String × Doc)} : f ∈ fs → f.answersTo key = true → f.fallback = some x →
    Accepts mode f.shape d x → d.WellFormed → valuesUnder f.answersTo ms = [] →
    Edit mode fs aside ms ((some key, d) :: ms)

/-- The item in a place of a record. -/
def Shape.item : Shape → Item
  | .plain i | .optional i => i

/-- A change at one node of a document for an item. -/
inductive Restyled : Mode → Item → Doc → Doc → Prop where
  /-- Change the members of a record. -/
  | record {mode : Mode} {r : Record} {ms ms' : List (Option String × Doc)} {ending : Ending} :
    Edit mode r.fields [] ms ms' →
    Restyled mode (.record r) (.object ms ending) (.object ms' ending)
  /-- Change the members of a node apart from its tag, which may be put elsewhere. -/
  | node {mode : Mode} {f : Family} {v : Variant f} {t : Doc}
    {ms ms' : List (Option String × Doc)} {ending : Ending} : t ∈ tagValues ms →
    readTag mode f t = .ok v → Edit .kept v.record.fields ["type"] ms ms' →
    Restyled mode (.node f) (.object ms ending) (.object ms' ending)
  /-- Write another tag of the same kind of node. -/
  | tag {mode : Mode} {f : Family} {v : Variant f} {s s' : String}
    {ms : List (Option String × Doc)} {ending : Ending} : v ∈ f.variants → s ∈ v.tags →
    s' ∈ v.tags →
    Restyled mode (.node f) (.object ((some "type", .text (some s)) :: ms) ending)
      (.object ((some "type", .text (some s')) :: ms) ending)
  | listTag {mode : Mode} {f : Family} {v : Variant f} {s s' : String} {ds : List Doc}
    {ending : Ending} : v ∈ f.variants → s ∈ v.tags → s' ∈ v.tags →
    Restyled mode (.node f) (.list (.text (some s) :: ds) ending)
      (.list (.text (some s') :: ds) ending)
  /-- A change inside an item of a list. -/
  | item {mode : Mode} {i : Item} {d d' : Doc} (before after : List Doc) {ending : Ending} :
    Restyled mode i d d' →
    Restyled mode (.list i) (.list (before ++ d :: after) ending)
      (.list (before ++ d' :: after) ending)
  /-- A change inside a field of a record. -/
  | member {mode : Mode} {r : Record} {f : Field} {key : String} {d d' : Doc}
    {ms : List (Option String × Doc)} {ending : Ending} : f ∈ r.fields →
    f.answersTo key = true → Restyled mode f.shape.item d d' →
    Restyled mode (.record r) (.object ((some key, d) :: ms) ending)
      (.object ((some key, d') :: ms) ending)
  | position {mode : Mode} {r : Record} {f : Field} {d d' : Doc} (before after : List Doc)
    {ending : Ending} : r.fields[before.length]? = some f → Restyled mode f.shape.item d d' →
    Restyled mode (.record r) (.list (before ++ d :: after) ending)
      (.list (before ++ d' :: after) ending)
  /-- A change inside a field of a node. -/
  | nodeMember {mode : Mode} {f : Family} {v : Variant f} {t : Doc} {g : Field} {key : String}
    {d d' : Doc} {ms : List (Option String × Doc)} {ending : Ending} : t ∈ tagValues ms →
    readTag mode f t = .ok v → g ∈ v.record.fields → g.answersTo key = true →
    Restyled .kept g.shape.item d d' →
    Restyled mode (.node f) (.object ((some key, d) :: ms) ending)
      (.object ((some key, d') :: ms) ending)
  | nodePosition {mode : Mode} {f : Family} {v : Variant f} {t : Doc} {g : Field} {d d' : Doc}
    (before after : List Doc) {ending : Ending} : readTag mode f t = .ok v →
    v.record.fields[before.length]? = some g → Restyled .kept g.shape.item d d' →
    Restyled mode (.node f) (.list (t :: (before ++ d :: after)) ending)
      (.list (t :: (before ++ d' :: after)) ending)

/-! ## What a change preserves -/

/-- Whatever the first document is accepted as, the second one is too, and it can be kept if the
first one can. -/
structure Preserved (mode : Mode) (i : Item) (d d' : Doc) : Prop where
  accepts : ∀ x : i.Carrier, Accepts mode (.plain i) d x → Accepts mode (.plain i) d' x
  wellFormed : d.WellFormed → d'.WellFormed
  ne_null : d ≠ .null
  ne_null' : d' ≠ .null

/-- A change inside a place of a record. -/
theorem Preserved.shape {mode : Mode} {s : Shape} {d d' : Doc} (h : Preserved mode s.item d d')
    {x : s.Carrier} (hx : Accepts mode s d x) : Accepts mode s d' x := by
  cases s with
  | plain i => exact h.accepts x hx
  | optional i =>
    obtain ⟨y, rfl, hy⟩ := (accepts_optional_iff h.ne_null).mp hx
    exact (accepts_optional_iff h.ne_null').mpr ⟨y, rfl, h.accepts y hy⟩

/-! ## Members -/

namespace Edit

variable {mode : Mode} {fs : List Field} {aside : List String}
  {ms ms' : List (Option String × Doc)}

/-- What holds of all members holds after a change, if it holds of well-formed new ones, is kept by
unknown ones that change for no worse, and holds whatever key a field has. -/
theorem forall_members (h : Edit mode fs aside ms ms') {P : Option String × Doc → Prop}
    (hnew : ∀ key d, d.WellFormed → P (some key, d))
    (hchange : ∀ key d d', (d.complete = true → d'.complete = true) →
      (d.WellFormed → d'.WellFormed) → P (some key, d) → P (some key, d'))
    (hrename : ∀ f ∈ fs, ∀ key key' d, f.answersTo key = true → f.answersTo key' = true →
      P (some key, d) → P (some key', d))
    (hms : ∀ m ∈ ms, P m) : ∀ m ∈ ms', P m := by
  cases h with
  | permute hperm => exact fun m hm => hms m (hperm.mem_iff.mpr hm)
  | add _ hd => exact List.forall_mem_cons.mpr ⟨hnew _ _ hd, hms⟩
  | remove => exact (List.forall_mem_cons.mp hms).2
  | change _ hcomplete hwell =>
    rw [List.forall_mem_cons] at hms ⊢
    exact ⟨hchange _ _ _ hcomplete hwell hms.1, hms.2⟩
  | rename hf hkey hkey' =>
    rw [List.forall_mem_cons] at hms
    exact List.forall_mem_cons.mpr ⟨hrename _ hf _ _ _ hkey hkey' hms.1, hms.2⟩
  | drop => exact (List.forall_mem_cons.mp hms).2
  | write _ _ _ _ hd => exact List.forall_mem_cons.mpr ⟨hnew _ _ hd, hms⟩

/-- A field that has its value keeps it. -/
theorem given (h : Edit mode fs aside ms ms') (hfs : Exclusive fs) {xs : Filled fs}
    (hms : Given (Accepts mode) ms fs xs) : Given (Accepts mode) ms' fs xs := by
  refine hms.imp fun g hg y hy => ?_
  cases h with
  | permute hperm => exact hy.perm (hperm.filterMap _)
  | add hkey => rwa [valuesUnder_cons_of_neg (hkey.2 g hg)]
  | remove hkey => rwa [valuesUnder_cons_of_neg (hkey.2 g hg)] at hy
  | change hkey => rwa [valuesUnder_cons_of_neg (hkey.2 g hg)] at hy ⊢
  | @rename f _ _ _ _ hf hkey hkey' =>
    by_cases heq : g = f
    · subst heq
      rw [valuesUnder_cons_of_pos hkey] at hy
      rwa [valuesUnder_cons_of_pos hkey']
    · rw [valuesUnder_cons_of_neg (hfs.answersTo_eq_false hf hg heq hkey)] at hy
      rwa [valuesUnder_cons_of_neg (hfs.answersTo_eq_false hf hg heq hkey')]
  | @drop f _ _ _ _ hf hkey hfallback hd =>
    by_cases heq : g = f
    · subst heq
      rw [valuesUnder_cons_of_pos hkey] at hy
      obtain ⟨hnone, hy⟩ := fieldGiven_cons.mp hy
      rw [hnone, FieldGiven, hfallback, hd.unique hy]
    · rwa [valuesUnder_cons_of_neg (hfs.answersTo_eq_false hf hg heq hkey)] at hy
  | @write f _ _ _ _ hf hkey hfallback hd _ hnone =>
    by_cases heq : g = f
    · subst heq
      rw [hnone, FieldGiven, hfallback] at hy
      obtain rfl := Option.some.inj hy
      rw [valuesUnder_cons_of_pos hkey]
      exact fieldGiven_cons.mpr ⟨hnone, hd⟩
    · rwa [valuesUnder_cons_of_neg (hfs.answersTo_eq_false hf hg heq hkey)]

theorem keyed (h : Edit mode fs aside ms ms') (hms : ∀ m ∈ ms, m.1.isSome = true) :
    ∀ m ∈ ms', m.1.isSome = true :=
  h.forall_members (P := fun m => m.1.isSome = true) (fun _ _ _ => rfl) (fun _ _ _ _ _ _ => rfl)
    (fun _ _ _ _ _ _ _ _ => rfl) hms

/-- All members can still be kept. -/
theorem wellFormed (h : Edit mode fs aside ms ms') (hms : ∀ m ∈ ms, m.2.WellFormed) :
    ∀ m ∈ ms', m.2.WellFormed :=
  h.forall_members (P := fun m => m.2.WellFormed) (fun _ _ hd => hd) (fun _ _ _ _ hwell => hwell)
    (fun _ _ _ _ _ _ _ hd => hd) hms

theorem admissible (h : Edit mode fs aside ms ms') (hms : Admissible fs ms) :
    Admissible fs ms' := by
  refine h.forall_members (fun key d hd => ⟨key, rfl, fun _ => hd.complete⟩) ?_ ?_ hms
  · rintro key d d' hcomplete _ ⟨_, heq, hd⟩
    cases heq
    exact ⟨key, rfl, fun hunknown => hcomplete (hd hunknown)⟩
  · intro f hf key key' d _ hkey' _
    refine ⟨key', rfl, fun hunknown => ?_⟩
    rw [hunknown f hf] at hkey'
    cases hkey'

variable {r : Record}

/-- The tag is not touched. -/
theorem tagValues_eq (h : Edit mode r.fields ["type"] ms ms') {t : Doc}
    (ht : tagValues ms = [t]) : tagValues ms' = [t] := by
  cases h with
  | permute hperm => exact List.perm_singleton.mp (ht ▸ (hperm.filterMap _).symm)
  | add hkey => rwa [tagValues_cons_of_ne (List.ne_of_not_mem_cons hkey.1)]
  | remove hkey => rwa [tagValues_cons_of_ne (List.ne_of_not_mem_cons hkey.1)] at ht
  | change hkey => rwa [tagValues_cons_of_ne (List.ne_of_not_mem_cons hkey.1)] at ht ⊢
  | rename hf hkey hkey' =>
    rw [tagValues_cons_of_ne (r.ne_type_of_answersTo hf hkey)] at ht
    rwa [tagValues_cons_of_ne (r.ne_type_of_answersTo hf hkey')]
  | drop hf hkey => rwa [tagValues_cons_of_ne (r.ne_type_of_answersTo hf hkey)] at ht
  | write hf hkey => rwa [tagValues_cons_of_ne (r.ne_type_of_answersTo hf hkey)]

theorem untagged_wellFormed (h : Edit mode r.fields ["type"] ms ms')
    (hms : ∀ m ∈ ms, m.1 ≠ some "type" → m.2.WellFormed) :
    ∀ m ∈ ms', m.1 ≠ some "type" → m.2.WellFormed := by
  refine h.forall_members (P := fun m => m.1 ≠ some "type" → m.2.WellFormed)
    (fun _ _ hd _ => hd) (fun _ _ _ _ hwell hd hkey => hwell (hd hkey)) ?_ hms
  intro f hf key key' d hkey _ hd _
  exact hd fun heq => r.ne_type_of_answersTo hf hkey (Option.some.inj heq)

end Edit

/-! ## Parts -/

/-- Something accepted as more takes the place of one item. -/
theorem forall₂_replace {α β : Type} {R : α → β → Prop} {a a' : α} (h : ∀ b, R a b → R a' b)
    {before after : List α} {bs : List β} (hbs : List.Forall₂ R (before ++ a :: after) bs) :
    List.Forall₂ R (before ++ a' :: after) bs := by
  induction before generalizing bs with
  | nil =>
    cases hbs with
    | cons hb hrest => exact .cons (h _ hb) hrest
  | cons _ _ ih =>
    cases hbs with
    | cons hb hrest => exact .cons hb (ih hrest)

theorem Sequence.replace {R : Meaning} {f : Field} {d d' : Doc}
    (h : ∀ x, R f.shape d x → R f.shape d' x) {before after : List Doc} {fs : List Field}
    (hf : fs[before.length]? = some f) {xs : Filled fs}
    (hxs : Sequence R fs (before ++ d :: after) xs) : Sequence R fs (before ++ d' :: after) xs := by
  induction before generalizing fs with
  | nil =>
    cases fs with
    | nil => cases hf
    | cons g fs =>
      obtain rfl := Option.some.inj hf
      exact ⟨h _ hxs.1, hxs.2⟩
  | cons e before ih =>
    cases fs with
    | nil => cases hf
    | cons g fs => exact ⟨hxs.1, ih hf hxs.2⟩

theorem Given.replace {R : Meaning} {f : Field} {key : String} {d d' : Doc}
    (h : ∀ x, R f.shape d x → R f.shape d' x) {fs : List Field} (hfs : Exclusive fs) (hf : f ∈ fs)
    (hkey : f.answersTo key = true) {ms : List (Option String × Doc)} {xs : Filled fs}
    (hxs : Given R ((some key, d) :: ms) fs xs) : Given R ((some key, d') :: ms) fs xs := by
  refine hxs.imp fun g hg y hy => ?_
  by_cases heq : g = f
  · subst heq
    rw [valuesUnder_cons_of_pos hkey, fieldGiven_cons] at hy ⊢
    exact ⟨hy.1, h y hy.2⟩
  · have hother := hfs.answersTo_eq_false hf hg heq hkey
    rwa [valuesUnder_cons_of_neg hother] at hy ⊢

/-- A tag finds the kind of node that has it. -/
theorem Family.variant?_of_mem {f : Family} {v : Variant f} (hv : v ∈ f.variants) {s : String}
    (hs : s ∈ v.tags) : f.variant? s = some v := by
  have hall : ∀ f : Family, ∀ v ∈ f.variants, ∀ s ∈ v.tags, f.variant? s = some v := by
    intro f
    cases f <;> simp [variants, variant?]
  exact hall f v hv s hs

theorem readTag_of_mem {mode : Mode} {f : Family} {v : Variant f} (hv : v ∈ f.variants)
    {s : String} (hs : s ∈ v.tags) : readTag mode f (.text (some s)) = .ok v := by
  rw [readTag, Family.variant?_of_mem hv hs]

/-! ## One change -/

namespace Preserved

variable {mode : Mode} {ending : Ending}

theorem of_object {i : Item} {ms ms' : List (Option String × Doc)}
    (haccepts : ∀ x : i.Carrier, Accepts mode (.plain i) (.object ms ending) x →
      Accepts mode (.plain i) (.object ms' ending) x)
    (hkeys : (∀ m ∈ ms, m.1.isSome = true) → ∀ m ∈ ms', m.1.isSome = true)
    (hwell : (∀ m ∈ ms, m.2.WellFormed) → ∀ m ∈ ms', m.2.WellFormed) :
    Preserved mode i (.object ms ending) (.object ms' ending) where
  accepts := haccepts
  wellFormed h := by
    cases h with
    | object hms hds => exact .object (hkeys hms) (hwell hds)
  ne_null := nofun
  ne_null' := nofun

theorem of_list {i : Item} {ds ds' : List Doc}
    (haccepts : ∀ x : i.Carrier, Accepts mode (.plain i) (.list ds ending) x →
      Accepts mode (.plain i) (.list ds' ending) x)
    (hwell : (∀ d ∈ ds, d.WellFormed) → ∀ d ∈ ds', d.WellFormed) :
    Preserved mode i (.list ds ending) (.list ds' ending) where
  accepts := haccepts
  wellFormed h := by
    cases h with
    | list hds => exact .list (hwell hds)
  ne_null := nofun
  ne_null' := nofun

theorem wellFormed_items {i : Item} {d d' : Doc} (h : Preserved mode i d d')
    {before after : List Doc} (hds : ∀ e ∈ before ++ d :: after, e.WellFormed) :
    ∀ e ∈ before ++ d' :: after, e.WellFormed := by
  rw [List.forall_mem_append, List.forall_mem_cons] at hds ⊢
  exact ⟨hds.1, h.wellFormed hds.2.1, hds.2.2⟩

theorem wellFormed_members {i : Item} {d d' : Doc} (h : Preserved mode i d d') {key : String}
    {ms : List (Option String × Doc)} (hms : ∀ m ∈ (some key, d) :: ms, m.2.WellFormed) :
    ∀ m ∈ (some key, d') :: ms, m.2.WellFormed := by
  rw [List.forall_mem_cons] at hms ⊢
  exact ⟨h.wellFormed hms.1, hms.2⟩

theorem record {r : Record} {ms ms' : List (Option String × Doc)}
    (h : Edit mode r.fields [] ms ms') :
    Preserved mode (.record r) (.object ms ending) (.object ms' ending) := by
  refine of_object (fun x hx => ?_) h.keyed h.wellFormed
  cases accepts_record_iff.mp hx with
  | object hadmissible hgiven =>
    exact accepts_record_iff.mpr
      (.object (h.admissible hadmissible) (h.given r.exclusive_fields hgiven))

theorem member {r : Record} {f : Field} {key : String} {d d' : Doc}
    {ms : List (Option String × Doc)} (hf : f ∈ r.fields) (hkey : f.answersTo key = true)
    (h : Preserved mode f.shape.item d d') :
    Preserved mode (.record r) (.object ((some key, d) :: ms) ending)
      (.object ((some key, d') :: ms) ending) := by
  refine of_object (fun x hx => ?_) (by simp) h.wellFormed_members
  cases accepts_record_iff.mp hx with
  | object hadmissible hgiven =>
    have hvalues := hgiven.replace (fun _ hy => h.shape hy) r.exclusive_fields hf hkey
    refine accepts_record_iff.mpr (.object (admissible_cons.mpr ⟨fun hunknown => ?_, ?_⟩) hvalues)
    · rw [hunknown f hf] at hkey
      cases hkey
    · exact (admissible_cons.mp hadmissible).2

theorem position {r : Record} {f : Field} {d d' : Doc} {before after : List Doc}
    (hf : r.fields[before.length]? = some f) (h : Preserved mode f.shape.item d d') :
    Preserved mode (.record r) (.list (before ++ d :: after) ending)
      (.list (before ++ d' :: after) ending) := by
  refine of_list (fun x hx => ?_) h.wellFormed_items
  cases accepts_record_iff.mp hx with
  | list hsequence =>
    exact accepts_record_iff.mpr (.list (hsequence.replace (fun _ hy => h.shape hy) hf))

theorem item {i : Item} {d d' : Doc} {before after : List Doc} (h : Preserved mode i d d') :
    Preserved mode (.list i) (.list (before ++ d :: after) ending)
      (.list (before ++ d' :: after) ending) := by
  refine of_list (fun xs hxs => ?_) h.wellFormed_items
  obtain ⟨ds, heq, hds⟩ := accepts_list_iff.mp hxs
  cases heq
  exact accepts_list_iff.mpr ⟨_, rfl, forall₂_replace h.accepts hds⟩

section Node

variable {f : Family} {v : Variant f} {t : Doc}

/-- A change of a node whose kind is known.  Its tag may change with it. -/
theorem of_tagged {t' : Doc} {ms ms' : List (Option String × Doc)} (hmem : t ∈ tagValues ms)
    (hv : readTag mode f t = .ok v) (hv' : readTag mode f t' = .ok v)
    (htags : tagValues ms = [t] → tagValues ms' = [t'])
    (hkeys : (∀ m ∈ ms, m.1.isSome = true) → ∀ m ∈ ms', m.1.isSome = true)
    (huntagged : (∀ m ∈ ms, m.1 ≠ some "type" → m.2.WellFormed) →
      ∀ m ∈ ms', m.1 ≠ some "type" → m.2.WellFormed)
    (hwell : (∀ m ∈ ms, m.2.WellFormed) → ∀ m ∈ ms', m.2.WellFormed)
    (hgiven : ∀ xs, Given (Accepts .kept) ms v.record.fields xs →
      Given (Accepts .kept) ms' v.record.fields xs) :
    Preserved mode (.node f) (.object ms ending) (.object ms' ending) := by
  refine of_object (fun x hx => ?_) hkeys hwell
  cases accepts_node_iff.mp hx with
  | @object _ u w xs hms hds hu hw hxs =>
    obtain rfl : t = u := by rwa [hu, List.mem_singleton] at hmem
    obtain rfl : v = w := Except.ok.inj (hv.symm.trans hw)
    exact accepts_node_iff.mpr
      (.object (hkeys hms) (huntagged hds) (htags hu) hv' (hgiven xs hxs))

theorem node {ms ms' : List (Option String × Doc)} (ht : t ∈ tagValues ms)
    (hv : readTag mode f t = .ok v) (h : Edit .kept v.record.fields ["type"] ms ms') :
    Preserved mode (.node f) (.object ms ending) (.object ms' ending) :=
  of_tagged ht hv hv h.tagValues_eq h.keyed h.untagged_wellFormed h.wellFormed
    fun _ hxs => h.given v.record.exclusive_fields hxs

theorem tag {s s' : String} {ms : List (Option String × Doc)} (hv : v ∈ f.variants)
    (hs : s ∈ v.tags) (hs' : s' ∈ v.tags) :
    Preserved mode (.node f) (.object ((some "type", .text (some s)) :: ms) ending)
      (.object ((some "type", .text (some s')) :: ms) ending) := by
  have hcons : ∀ s : String, tagValues ((some "type", .text (some s)) :: ms) =
      .text (some s) :: tagValues ms := fun s => valuesUnder_cons_of_pos rfl
  refine of_tagged (hcons s ▸ .head _) (readTag_of_mem hv hs) (readTag_of_mem hv hs')
    (fun htags => ?_) (by simp) (by simp) (fun hms => ?_) fun xs hxs => hxs.imp fun g hg y hy => ?_
  · rw [hcons] at htags ⊢
    rw [(List.cons.inj htags).2]
  · rw [List.forall_mem_cons] at hms ⊢
    exact ⟨.text s', hms.2⟩
  · have htype : g.answersTo "type" = false :=
      Bool.eq_false_iff.mpr fun htype => v.record.ne_type_of_answersTo hg htype rfl
    rwa [valuesUnder_cons_of_neg htype] at hy ⊢

theorem nodeMember {g : Field} {key : String} {d d' : Doc} {ms : List (Option String × Doc)}
    (ht : t ∈ tagValues ms) (hv : readTag mode f t = .ok v) (hg : g ∈ v.record.fields)
    (hkey : g.answersTo key = true) (h : Preserved .kept g.shape.item d d') :
    Preserved mode (.node f) (.object ((some key, d) :: ms) ending)
      (.object ((some key, d') :: ms) ending) := by
  have hne := v.record.ne_type_of_answersTo hg hkey
  refine of_tagged (by rwa [tagValues_cons_of_ne hne]) hv hv (fun htags => ?_) (by simp)
    (fun hms => ?_) h.wellFormed_members fun xs hxs =>
      hxs.replace (fun _ hy => h.shape hy) v.record.exclusive_fields hg hkey
  · rwa [tagValues_cons_of_ne hne] at htags ⊢
  · rw [List.forall_mem_cons] at hms ⊢
    exact ⟨fun hkey => h.wellFormed (hms.1 hkey), hms.2⟩

/-- A change of a node that is written as a list. -/
theorem of_listed {t' : Doc} {ds ds' : List Doc} (hv : readTag mode f t = .ok v)
    (hv' : readTag mode f t' = .ok v) (ht : t.WellFormed → t'.WellFormed)
    (hwell : (∀ d ∈ ds, d.WellFormed) → ∀ d ∈ ds', d.WellFormed)
    (hsequence : ∀ xs, Sequence (Accepts .kept) v.record.fields ds xs →
      Sequence (Accepts .kept) v.record.fields ds' xs) :
    Preserved mode (.node f) (.list (t :: ds) ending) (.list (t' :: ds') ending) := by
  refine of_list (fun x hx => ?_) fun hds => ?_
  · cases accepts_node_iff.mp hx with
    | @list _ _ w xs hds hw hxs =>
      obtain rfl : v = w := Except.ok.inj (hv.symm.trans hw)
      exact accepts_node_iff.mpr (.list (hwell hds) hv' (hsequence xs hxs))
  · rw [List.forall_mem_cons] at hds ⊢
    exact ⟨ht hds.1, hwell hds.2⟩

theorem listTag {s s' : String} {ds : List Doc} (hv : v ∈ f.variants) (hs : s ∈ v.tags)
    (hs' : s' ∈ v.tags) :
    Preserved mode (.node f) (.list (.text (some s) :: ds) ending)
      (.list (.text (some s') :: ds) ending) :=
  of_listed (readTag_of_mem hv hs) (readTag_of_mem hv hs') (fun _ => .text s') id fun _ => id

theorem nodePosition {g : Field} {d d' : Doc} {before after : List Doc}
    (hv : readTag mode f t = .ok v) (hg : v.record.fields[before.length]? = some g)
    (h : Preserved .kept g.shape.item d d') :
    Preserved mode (.node f) (.list (t :: (before ++ d :: after)) ending)
      (.list (t :: (before ++ d' :: after)) ending) :=
  of_listed hv hv id h.wellFormed_items fun _ hxs => hxs.replace (fun _ hy => h.shape hy) hg

end Node

end Preserved

/-- One change, at any depth. -/
theorem Restyled.preserved {mode : Mode} {i : Item} {d d' : Doc} (h : Restyled mode i d d') :
    Preserved mode i d d' := by
  induction h with
  | record hedit => exact .record hedit
  | node ht hv hedit => exact .node ht hv hedit
  | tag hv hs hs' => exact .tag hv hs hs'
  | listTag hv hs hs' => exact .listTag hv hs hs'
  | item _ _ _ ih => exact ih.item
  | member hf hkey _ ih => exact .member hf hkey ih
  | position _ _ hf _ ih => exact .position hf ih
  | nodeMember ht hv hg hkey _ ih => exact .nodeMember ht hv hg hkey ih
  | nodePosition _ _ hv hg _ ih => exact .nodePosition hv hg ih

/-! ## Any number of changes -/

/-- What is accepted stays accepted as the same, whatever is changed on the way. -/
theorem Accepts.restyled {mode : Mode} {i : Item} {d d' : Doc} {x : i.Carrier}
    (hx : Accepts mode (.plain i) d x) (h : Relation.ReflTransGen (Restyled mode i) d d') :
    Accepts mode (.plain i) d' x := by
  induction h with
  | refl => exact hx
  | tail _ hstep ih => exact hstep.preserved.accepts x ih

/-- What was written in a place is accepted there. -/
theorem Reads.accepts {mode : Mode} {s : Shape} {d : Doc} {x : s.Carrier} (h : Reads s d x) :
    Accepts mode s d x :=
  ⟨d.depth, (h.read d.depth mode).trans (within_of_le (Nat.le_refl _) x)⟩

/-- A text that is a document, spaces at its ends apart. -/
def Json.Doc.HasText (d : Doc) (cs : List Char) : Prop :=
  ∃ rest, Json.scan cs = (d, some rest) ∧ (Json.skipBlank rest).isEmpty = true

theorem Json.Doc.HasText.unique {d d' : Doc} {cs : List Char} (h : d.HasText cs)
    (h' : d'.HasText cs) : d = d' := by
  obtain ⟨rest, hscan, -⟩ := h
  obtain ⟨rest', hscan', -⟩ := h'
  exact congrArg Prod.fst (hscan.symm.trans hscan')

/-- A printed document has its text. -/
theorem Json.Doc.hasText_compact {d : Doc} (h : d.Whole) : d.HasText (d.compact []) :=
  ⟨[], Json.scan_of_spells (Json.spells_compact h Numeral.stops_nil), rfl⟩

theorem decode_eq_ok_iff {i : Item} {cs : List Char} {x : i.Carrier} :
    i.decode cs = .ok x ↔ ∃ d : Doc, d.HasText cs ∧ i.ofDoc d = .ok x := by
  rw [Item.decode]
  rcases hscan : Json.scan cs with ⟨d, rest⟩
  refine bind_eq_ok_iff.trans ⟨?_, ?_⟩
  · rintro ⟨y, hy, h⟩
    cases rest with
    | none => cases h
    | some rest =>
      dsimp only at h
      split at h
      · next hrest =>
        obtain rfl := Except.ok.inj h
        exact ⟨d, ⟨rest, hscan, hrest⟩, hy⟩
      · cases h
  · rintro ⟨d', ⟨rest', hscan', hrest⟩, hx⟩
    rw [hscan] at hscan'
    cases hscan'
    exact ⟨x, hx, if_pos hrest⟩

/-- Changes of how a text presents a tree do not change the tree. -/
theorem decode_restyled {i : Item} {d d' : Doc} {cs cs' : List Char} {x : i.Carrier}
    (hcs : d.HasText cs) (hcs' : d'.HasText cs')
    (hsteps : Relation.ReflTransGen (Restyled .streaming i) d d') (hdepth : d'.depth ≤ nestingLimit)
    (hx : i.decode cs = .ok x) : i.decode cs' = .ok x := by
  obtain ⟨d₀, hcs₀, hd₀⟩ := decode_eq_ok_iff.mp hx
  obtain rfl : d = d₀ := hcs.unique hcs₀
  have haccepts := (accepts_of_read hd₀).restyled hsteps
  exact decode_eq_ok_iff.mpr ⟨d', hcs', haccepts.read hdepth⟩

/-- A program that declares a name. -/
def letOnly (name : String) : Program := ⟨[.letVariable name none]⟩

/-- A short document of the program: with the other tag, without the fields that have their
fallbacks, and with a member that nothing is known of. -/
def shortLetOnly (name : String) : Doc :=
  .ofMembers [("body", .ofList [.ofMembers
    [("note", .ofList [.boolean true]),
     ("declarations", .ofList [(⟨.named name, none⟩ : Declarator).toDoc]),
     ("type", .ofString "VariableDeclaration")]])]

theorem shortLetOnly_steps (name : String) :
    Relation.ReflTransGen (Restyled .streaming (.record .program)) (letOnly name).toDoc
      (shortLetOnly name) := by
  let variant : Variant .statement :=
    ⟨["VariableDeclaration", "VariableDeclarationStatement"], .variableDeclaration, fun s => s⟩
  have hvariant : variant ∈ Family.variants .statement := by simp [Family.variants, variant]
  have hv : readTag .streaming .statement (.ofString "VariableDeclaration") = .ok variant :=
    readTag_of_mem hvariant (.head _)
  let document (ms : List (Option String × Doc)) : Doc :=
    .ofMembers [("body", .ofList [.object ms .closed])]
  have hinside : ∀ ms ms', Restyled .streaming (.node .statement) (.object ms .closed)
      (.object ms' .closed) → Restyled .streaming (.record .program) (document ms) (document ms') :=
    fun _ _ h => .member (f := .required "body" (.list (.node .statement))) (.head _) rfl
      (.item [] [] h)
  have hmembers : ∀ ms ms', .ofString "VariableDeclaration" ∈ tagValues ms →
      Edit .kept variant.record.fields ["type"] ms ms' →
      Restyled .streaming (.record .program) (document ms) (document ms') :=
    fun _ _ ht h => hinside _ _ (.node ht hv h)
  let tag : Option String × Doc := (some "type", .ofString "VariableDeclaration")
  let kind : Option String × Doc := (some "kind", DeclarationKind.letKind.toDoc)
  let declarations : Option String × Doc :=
    (some "declarations", .ofList [(⟨.named name, none⟩ : Declarator).toDoc])
  let location : Option String × Doc := (some "location", Location.toDoc {})
  have hlocation : Edit .kept variant.record.fields ["type"] [location, declarations, kind, tag]
      [declarations, kind, tag] :=
    .drop (f := .location) (by simp [Record.fields, variant]) rfl rfl (Location.reads {}).accepts
  have hkind : Edit .kept variant.record.fields ["type"] [kind, declarations, tag]
      [declarations, tag] :=
    .drop (.head _) rfl rfl (reads_declarationKind .letKind).accepts
  have hnote : Edit .kept variant.record.fields ["type"] [declarations, tag]
      [(some "note", .ofList [.boolean true]), declarations, tag] :=
    .add ⟨by decide, by decide⟩ (.list (by simpa using .boolean true))
  refine .head (hinside _ _ (.tag hvariant (.tail _ (.head _)) (.head _))) ?_
  refine .head (hmembers [tag, kind, declarations, location] _ (.head _)
    (.permute (List.reverse_perm _).symm)) ?_
  refine .head (hmembers _ _ ?_ hlocation) ?_
  · simp [tagValues, valuesUnder, tag]
  refine .head (hmembers _ _ ?_ (.permute (.swap kind declarations [tag]))) ?_
  · simp [tagValues, valuesUnder, tag]
  refine .head (hmembers _ _ ?_ hkind) ?_
  · simp [tagValues, valuesUnder, tag]
  exact .single (hmembers _ _ (by simp [tagValues, valuesUnder, tag]) hnote)

/-- A declaration is read from its short document. -/
theorem decode_shortLetOnly :
    Program.decode (shortLetOnly "x").compactText = .ok (letOnly "x") := by
  have hreads := Program.reads (letOnly "x") nofun
  have hshort : (shortLetOnly "x").Whole := by
    refine .ofMembers _ (List.forall_mem_singleton.mpr (.ofList _ (List.forall_mem_singleton.mpr
      (.ofMembers _ ?_))))
    rw [List.forall_mem_cons, List.forall_mem_cons, List.forall_mem_singleton]
    exact ⟨.ofList _ (List.forall_mem_singleton.mpr (.leaf (.boolean true) rfl)),
      .ofList _ (List.forall_mem_singleton.mpr (Declarator.reads ⟨.named "x", none⟩ nofun).whole),
      .leaf (.ofString _) rfl⟩
  have hx : (Item.record .program).decode ((letOnly "x").toDoc.compact []) = .ok (letOnly "x") :=
    (decode_printed hreads).1.trans (within_of_le (by decide) _)
  rw [Program.decode, Json.Doc.compactText, String.toList_ofList]
  exact decode_restyled (Json.Doc.hasText_compact hreads.whole) (Json.Doc.hasText_compact hshort)
    (shortLetOnly_steps "x") (by decide) hx

end Treewalk
