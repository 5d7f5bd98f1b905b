import Mathlib.Data.List.Forall2
import Treewalk.Proofs.Spelling
import Treewalk.Tree.Decode
import Treewalk.Tree.Encode

/-!
# Reading what was written

The reader of a place in a tree gives back what was written there if the document does not nest
deeper than there is room for, and otherwise reports that the text is no JSON.  `Reads` says this of
one document in all modes and for all room, and it is put together from the parts of the document:
there is one lemma for each kind of item, whatever record or node the item is.

## Main definitions

* `within` — a result that needs some room.
* `Reads`, `FieldsRead` — documents that read back.
* `reads_list`, `reads_record`, `reads_node` — from the parts to the whole.
-/

namespace Treewalk

open Json (Doc Ending)

/-! ## Room -/

/-- A result if there is enough room, or else the failure of a text that nests too deep. -/
def within {α : Type} (depth room : Nat) (x : α) : Except DecodeError α :=
  if depth ≤ room then .ok x else .error .notJson

section Within

variable {α β : Type} {a b room : Nat}

theorem within_zero (room : Nat) (x : α) : within 0 room x = .ok x := if_pos (Nat.zero_le room)

theorem within_of_le (h : a ≤ room) (x : α) : within a room x = .ok x := if_pos h

theorem within_of_lt (h : room < a) (x : α) : within a room x = .error .notJson :=
  if_neg (by omega)

theorem within_succ (x : α) : within (a + 1) (room + 1) x = within a room x := by
  simp [within]

theorem map_within (f : α → β) (x : α) : (within a room x).map f = within a room (f x) := by
  simp only [within]
  split <;> rfl

/-- What is read after something else needs the larger room of both. -/
theorem bind_within {x : α} {f : α → Except DecodeError β} {y : β} (h : f x = within b room y) :
    (within a room x >>= f) = within (max a b) room y := by
  by_cases ha : a ≤ room
  · rw [within_of_le ha]
    refine h.trans ?_
    by_cases hb : b ≤ room
    · rw [within_of_le hb, within_of_le (Nat.max_le.mpr ⟨ha, hb⟩)]
    · rw [within_of_lt (by omega), within_of_lt (by omega)]
  · rw [within_of_lt (by omega), within_of_lt (by omega)]
    rfl

end Within

/-! ## What can be kept -/

namespace Json.Doc

theorem depth_leaf {d : Doc} (h : d.Leaf) : d.depth = 0 := by
  cases h <;> rfl

theorem soundItems_eq {ds : List Doc} {room : Nat}
    (h : ∀ d ∈ ds, d.sound room = decide (d.depth ≤ room)) :
    soundItems room ds = decide (depthItems ds ≤ room) := by
  induction ds with
  | nil => simp [soundItems, depthItems]
  | cons d ds ih =>
    rw [soundItems, depthItems, h d (by simp), ih fun e he => h e (List.mem_cons_of_mem _ he)]
    rw [← Bool.decide_and]
    exact decide_eq_decide.mpr Nat.max_le.symm

theorem soundMembers_eq {ms : List (String × Doc)} {room : Nat}
    (h : ∀ m ∈ ms, m.2.sound room = decide (m.2.depth ≤ room)) :
    soundMembers room (keyed ms) =
      decide (depthMembers (keyed ms) ≤ room) := by
  induction ms with
  | nil => simp [soundMembers, depthMembers]
  | cons m ms ih =>
    rw [keyed_cons, soundMembers, depthMembers, h m (by simp),
      ih fun e he => h e (List.mem_cons_of_mem _ he)]
    rw [Option.isSome_some, Bool.true_and, ← Bool.decide_and]
    exact decide_eq_decide.mpr Nat.max_le.symm

/-- A document that was written can be kept if there is room for it. -/
theorem Whole.sound_eq {d : Doc} (h : d.Whole) (room : Nat) :
    d.sound room = decide (d.depth ≤ room) := by
  induction h generalizing room with
  | leaf hd inRange =>
    rw [depth_leaf hd]
    cases hd with
    | number n => simpa [sound, found?] using inRange
    | _ => simp [sound, Doc.ofString]
  | ofList ds _ ih =>
    cases room with
    | zero => simp [Doc.ofList, sound, depth]
    | succ room => simp [Doc.ofList, sound, depth, soundItems_eq fun d hd => ih d hd room]
  | ofMembers ms _ ih =>
    rw [ofMembers_eq]
    cases room with
    | zero => simp [sound, depth]
    | succ room => simp [sound, depth, soundMembers_eq fun m hm => ih m hm room]

end Json.Doc

/-! ## Records -/

/-- What was written in a place is read back in either mode, if there is room for it. -/
structure Reads (s : Shape) (d : Doc) (x : s.Carrier) : Prop where
  whole : d.Whole
  read : ∀ room mode, Read.shape (Item.read room mode) s d = within d.depth room x

/-- The members of a record are its fields in their order, and each of them is read back. -/
inductive FieldsRead : (fs : List Field) → List (String × Doc) → Filled fs → Prop where
  | nil : FieldsRead [] [] ()
  | cons {f : Field} {fs : List Field} {d : Doc} {ms : List (String × Doc)} {x : f.shape.Carrier}
    {xs : Filled fs} : Reads f.shape d x → FieldsRead fs ms xs →
    FieldsRead (f :: fs) ((f.name, d) :: ms) (x, xs)

/-- No field answers to the name of a later one. -/
def Distinct (fs : List Field) : Prop := fs.Pairwise fun f g => f.answersTo g.name = false

theorem Record.distinct_fields (r : Record) : Distinct r.fields := by
  rw [Distinct]
  cases r <;> decide

theorem Record.name_ne_type (r : Record) : ∀ f ∈ r.fields, f.name ≠ "type" := by
  cases r <;> decide

namespace FieldsRead

variable {fs : List Field} {ms : List (String × Doc)} {xs : Filled fs}

theorem keys (h : FieldsRead fs ms xs) : ms.map Prod.fst = fs.map Field.name := by
  induction h with
  | nil => rfl
  | cons _ _ ih => rw [List.map_cons, List.map_cons, ih]

theorem whole (h : FieldsRead fs ms xs) : ∀ m ∈ ms, m.2.Whole := by
  induction h with
  | nil => exact fun m hm => by cases hm
  | cons hd _ ih =>
    intro m hm
    rcases List.mem_cons.mp hm with rfl | hm
    · exact hd.whole
    · exact ih m hm

end FieldsRead

variable {read : Reader}

/-- A field that was given stays as it is while members with other keys are read. -/
theorem readMembers_given {f : Field} (x : f.shape.Carrier) {fs : List Field} (p : Partial fs)
    (ending : Ending) {ms : List (Option String × Doc)}
    (h : ∀ m ∈ ms, ∀ key, m.1 = some key → f.answersTo key = false) :
    readMembers read (f :: fs) ending (some x, p) ms =
      (readMembers read fs ending p ms).map fun xs => (x, xs) := by
  induction ms generalizing p with
  | nil =>
    simp only [readMembers]
    split
    · rfl
    · rfl
  | cons m ms ih =>
    obtain ⟨key, d⟩ := m
    have ih := fun p => ih p fun m hm => h m (List.mem_cons_of_mem _ hm)
    cases key with
    | none => rfl
    | some key =>
      have hkey := h (some key, d) (by simp) key rfl
      simp only [readMembers, Partial.fill?, hkey, Bool.false_eq_true, if_false]
      cases Partial.fill? read key d fs p with
      | none =>
        simp only [Option.map_none]
        split
        · exact ih p
        · rfl
      | some r =>
        cases r with
        | error e => rfl
        | ok p => exact ih p

theorem readMembers_first {f : Field} {fs : List Field} {ms : List (Option String × Doc)} (d : Doc)
    (h : ∀ m ∈ ms, ∀ key, m.1 = some key → f.answersTo key = false) :
    readMembers read (f :: fs) .closed (Partial.empty (f :: fs)) ((some f.name, d) :: ms) =
      (Read.shape read f.shape d >>= fun x =>
        (readMembers read fs .closed (Partial.empty fs) ms).map fun xs => (x, xs)) := by
  have hanswers : f.answersTo f.name = true := by simp [Field.answersTo]
  simp only [readMembers, Partial.empty, Partial.fill?, hanswers]
  cases Read.shape read f.shape d with
  | error e => rfl
  | ok x => exact readMembers_given x (Partial.empty fs) .closed h

/-- The members of a record are read back if there is room for the deepest of them. -/
theorem readMembers_fields {fs : List Field} {ms : List (String × Doc)} {xs : Filled fs}
    (h : FieldsRead fs ms xs) (hdistinct : Distinct fs) (room : Nat) (mode : Mode) :
    readMembers (Item.read room mode) fs .closed (Partial.empty fs) (Doc.keyed ms) =
      within (Doc.depthMembers (Doc.keyed ms)) room xs := by
  induction h with
  | nil => exact (within_zero room ()).symm
  | @cons f fs d ms x xs hd hms ih =>
    obtain ⟨hf, hfs⟩ := List.pairwise_cons.mp hdistinct
    have hlater : ∀ m ∈ Doc.keyed ms, ∀ key, m.1 = some key → f.answersTo key = false := by
      intro m hm key hkey
      obtain ⟨⟨name, e⟩, hmem, rfl⟩ := List.mem_map.mp hm
      obtain rfl : name = key := Option.some.inj hkey
      have hname : name ∈ fs.map Field.name := hms.keys ▸ List.mem_map_of_mem hmem
      obtain ⟨g, hg, rfl⟩ := List.mem_map.mp hname
      exact hf g hg
    rw [Doc.keyed_cons, readMembers_first d hlater, hd.read, Doc.depthMembers]
    refine bind_within ?_
    rw [ih hfs, map_within]

/-! ## Items -/

/-- An item without parts is read in the same way whatever room there is. -/
theorem reads_leaf {i : Item} {d : Doc} {x : i.Carrier} (hd : d.Leaf)
    (inRange : d.found?.isSome = true)
    (h : ∀ room mode inner keptInner, readLevel mode room inner keptInner i d = .ok x) :
    Reads (.plain i) d x where
  whole := .leaf hd inRange
  read room mode := by
    have hx : Item.read room mode i d = .ok x := by
      cases room with
      | zero => exact h _ _ _ _
      | succ room => exact h _ _ _ _
    rw [Doc.depth_leaf hd]
    exact hx.trans (within_zero room x).symm

theorem reads_text (s : String) : Reads (.plain .text) (.ofString s) s :=
  reads_leaf (.ofString s) rfl fun _ _ _ _ => rfl

theorem reads_flag (b : Bool) : Reads (.plain .flag) (.boolean b) b :=
  reads_leaf (.boolean b) rfl fun _ _ _ _ => rfl

theorem reads_word (w : UInt64) : Reads (.plain .word) (.ofNat w.toNat) w := by
  have hquantity := Numeral.quantity?_ofNat w
  refine reads_leaf (.number _ (Numeral.decimal_ofNat _) (Digits.isWhole_ofNat _)) ?_ ?_
  · rw [Doc.ofNat, Doc.found?, hquantity]
    rfl
  · intro room mode inner keptInner
    simp only [readLevel, Doc.ofNat, Read.word, hquantity]
    rfl

theorem reads_declarationKind (k : DeclarationKind) :
    Reads (.plain (.choice .declarationKind)) k.toDoc k := by
  cases k <;> exact reads_leaf (.ofString _) rfl fun _ _ _ _ => rfl

theorem reads_propertyKind (k : PropertyKind) :
    Reads (.plain (.choice .propertyKind)) k.toDoc k := by
  cases k <;> exact reads_leaf (.ofString _) rfl fun _ _ _ _ => rfl

theorem items_eq {i : Item} {ds : List Doc} {xs : List i.Carrier}
    (h : List.Forall₂ (Reads (.plain i)) ds xs) (room : Nat) (mode : Mode) :
    Read.items (Item.read room mode i) .closed ds = within (Doc.depthItems ds) room xs := by
  induction h with
  | nil => exact (within_zero room []).symm
  | @cons d x ds xs hd _ ih =>
    have hx : Item.read room mode i d = within d.depth room x := hd.read room mode
    rw [Read.items, hx, ih, Doc.depthItems]
    refine bind_within ?_
    exact map_within (fun xs => x :: xs) xs

theorem reads_list {i : Item} {ds : List Doc} {xs : List i.Carrier}
    (h : List.Forall₂ (Reads (.plain i)) ds xs) : Reads (.plain (.list i)) (.ofList ds) xs where
  whole := by
    refine .ofList ds fun d hd => ?_
    induction h with
    | nil => cases hd
    | cons hx _ ih =>
      rcases List.mem_cons.mp hd with rfl | hd
      · exact hx.whole
      · exact ih hd
  read room mode := by
    cases room with
    | zero => rfl
    | succ room =>
      refine (items_eq h room mode).trans ?_
      exact (within_succ xs).symm

theorem reads_record (r : Record) {ms : List (String × Doc)} {xs : Filled r.fields}
    (h : FieldsRead r.fields ms xs) :
    Reads (.plain (.record r)) (.ofMembers ms) (xs.build r) where
  whole := .ofMembers ms h.whole
  read room mode := by
    cases room with
    | zero => rfl
    | succ room =>
      have hmembers := readMembers_fields h r.distinct_fields room mode
      refine (congrArg (Except.map (Filled.build r)) hmembers).trans ?_
      rw [map_within, Doc.ofMembers_eq, Doc.depth]
      exact (within_succ _).symm

/-- All members after the tag are kept if there is room for them. -/
theorem readTagged_kept {f : Family} (mode : Mode) (room : Nat) (v : Variant f)
    {ms : List (String × Doc)} (hkeys : ∀ m ∈ ms, m.1 ≠ "type") (hms : ∀ m ∈ ms, m.2.Whole) :
    readTagged mode room (some v) (Doc.keyed ms) =
      within (Doc.depthMembers (Doc.keyed ms)) room (some v, Doc.keyed ms) := by
  induction ms with
  | nil => exact (within_zero room _).symm
  | cons m ms ih =>
    have hkey := hkeys m (by simp)
    have hsound := (hms m (by simp)).sound_eq room
    have ih := ih (fun e he => hkeys e (List.mem_cons_of_mem _ he))
      fun e he => hms e (List.mem_cons_of_mem _ he)
    rw [Doc.keyed_cons, readTagged, if_neg hkey, hsound, Doc.depthMembers]
    by_cases hd : m.2.depth ≤ room
    · rw [if_pos (decide_eq_true hd), ih]
      by_cases hrest : Doc.depthMembers (Doc.keyed ms) ≤ room
      · rw [within_of_le hrest, within_of_le (Nat.max_le.mpr ⟨hd, hrest⟩)]
        rfl
      · rw [within_of_lt (by omega), within_of_lt (by omega)]
        rfl
    · rw [if_neg (by simpa using hd), within_of_lt (by omega)]

theorem readTagged_tagged {f : Family} {tag : String} {v : Variant f}
    (htag : f.variant? tag = some v) (mode : Mode) (room : Nat) {ms : List (String × Doc)}
    (hkeys : ∀ m ∈ ms, m.1 ≠ "type") (hms : ∀ m ∈ ms, m.2.Whole) :
    readTagged mode room none (Doc.keyed (("type", .ofString tag) :: ms)) =
      within (Doc.depthMembers (Doc.keyed ms)) room (some v, Doc.keyed ms) := by
  have htag' : readTag mode f (.ofString tag) = .ok v := by
    simp only [readTag, Doc.ofString, htag]
  rw [Doc.keyed_cons, readTagged, if_pos rfl, ← readTagged_kept mode room v hkeys hms, htag']
  rfl

/-- The parts of a node are read from what was kept. -/
theorem readNode_tagged {f : Family} {tag : String} {v : Variant f}
    (htag : f.variant? tag = some v) {ms : List (String × Doc)} {xs : Filled v.record.fields}
    (h : FieldsRead v.record.fields ms xs) (mode : Mode) (room : Nat) :
    readNode mode (room + 1) (Item.read room .kept) f (tagged tag ms) =
      within (Doc.depthMembers (Doc.keyed ms)) room (v.wrap (xs.build v.record)) := by
  have hkeys : ∀ m ∈ ms, m.1 ≠ "type" := by
    intro m hm
    have hname : m.1 ∈ v.record.fields.map Field.name := h.keys ▸ List.mem_map_of_mem hm
    obtain ⟨g, hg, hgm⟩ := List.mem_map.mp hname
    rw [← hgm]
    exact v.record.name_ne_type g hg
  have htagged := readTagged_tagged htag mode room hkeys h.whole
  have hfields := readMembers_fields h v.record.distinct_fields room .kept
  rw [tagged, Doc.ofMembers_eq]
  simp only [readNode, Nat.add_sub_cancel, htagged]
  by_cases hroom : Doc.depthMembers (Doc.keyed ms) ≤ room
  · rw [within_of_le hroom] at hfields
    rw [within_of_le hroom, within_of_le hroom]
    exact congrArg (Except.map fun xs => v.wrap (xs.build v.record)) hfields
  · rw [within_of_lt (by omega), within_of_lt (by omega)]
    rfl

/-- A tagged node, whatever its kind. -/
theorem reads_node (f : Family) (v : Variant f) {tag : String} (htag : f.variant? tag = some v)
    {ms : List (String × Doc)} {xs : Filled v.record.fields}
    (h : FieldsRead v.record.fields ms xs) :
    Reads (.plain (.node f)) (tagged tag ms) (v.wrap (xs.build v.record)) where
  whole := by
    refine .ofMembers _ fun m hm => ?_
    rcases List.mem_cons.mp hm with rfl | hm
    · exact .leaf (.ofString tag) rfl
    · exact h.whole m hm
  read room mode := by
    cases room with
    | zero => rfl
    | succ room =>
      have hdepth : (tagged tag ms).depth = Doc.depthMembers (Doc.keyed ms) + 1 := by
        rw [tagged, Doc.ofMembers_eq, Doc.depth, Doc.keyed_cons, Doc.depthMembers,
          Doc.depth_leaf (.ofString tag), Nat.zero_max]
      rw [hdepth]
      exact (readNode_tagged htag h mode room).trans (within_succ _).symm

/-! ## Items that may be missing -/

theorem reads_none (i : Item) : Reads (.optional i) .null none where
  whole := .leaf .null rfl
  read room _ := (within_zero room none).symm

theorem reads_some {i : Item} {d : Doc} {x : i.Carrier} (h : Reads (.plain i) d x)
    (hd : d ≠ .null) : Reads (.optional i) d (some x) where
  whole := h.whole
  read room mode := by
    have hx : Item.read room mode i d = within d.depth room x := h.read room mode
    have hshape : Read.shape (Item.read room mode) (.optional i) d =
        (Item.read room mode i d).map some := by
      cases d with
      | null => exact absurd rfl hd
      | _ => rfl
    rw [hshape, hx]
    exact map_within some x

/-! ## Whole texts -/

/-- A text that spells a document is read as the document is, spaces at its end apart. -/
theorem decode_eq_ofDoc {i : Item} {d : Doc} {cs : List Char} (hcs : Json.Spells (.value d) cs []) :
    i.decode cs = i.ofDoc d := by
  rw [Item.decode, Json.scan_of_spells hcs]
  dsimp only
  cases i.ofDoc d <;> rfl

theorem decode_of_spells {i : Item} {d : Doc} {x : i.Carrier} (h : Reads (.plain i) d x)
    {cs : List Char} (hcs : Json.Spells (.value d) cs []) :
    i.decode cs = within d.depth nestingLimit x :=
  (decode_eq_ofDoc hcs).trans (h.read nestingLimit .streaming)

/-- Both printed texts of a document are read back. -/
theorem decode_printed {i : Item} {d : Doc} {x : i.Carrier} (h : Reads (.plain i) d x) :
    i.decode (d.compact []) = within d.depth nestingLimit x ∧
      i.decode (d.pretty 0 []) = within d.depth nestingLimit x :=
  ⟨decode_of_spells h (Json.spells_compact h.whole Numeral.stops_nil),
    decode_of_spells h (Json.spells_pretty h.whole 0 Numeral.stops_nil)⟩

end Treewalk
