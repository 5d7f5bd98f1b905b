import Treewalk.Proofs.Members

/-!
# What the reader accepts

The reader goes through a document from left to right, with a bound on the nesting and with failures
that depend on what comes first.  What it accepts does not.  `Accepts` says which documents are
accepted as what if only there is room enough, and it is told for one level of a document at a time.

## Main definitions

* `RecordForm`, `NodeForm`, `ListForm` — one level of a document.
* `read_of_depth_le` — more room than a document needs makes no difference.
* `Accepts` — acceptance with any room.
* `accepts_record_iff`, `accepts_node_iff`, `accepts_list_iff` — acceptance of one level.
-/

namespace Treewalk

open Json (Doc Ending)

/-! ## One level of a document -/

/-- A record in one of its written forms, given what its parts mean. -/
inductive RecordForm (R : Meaning) (r : Record) : Doc → r.Carrier → Prop where
  | object {ms : List (Option String × Doc)} {xs : Filled r.fields} : Admissible r.fields ms →
    Given R ms r.fields xs → RecordForm R r (.object ms .closed) (xs.build r)
  | list {ds : List Doc} {xs : Filled r.fields} : Sequence R r.fields ds xs →
    RecordForm R r (.list ds .closed) (xs.build r)

/-- A node in one of its written forms, given what its parts mean.  All of it is kept but for its
tag. -/
inductive NodeForm (R : Meaning) (mode : Mode) (f : Family) : Doc → f.Carrier → Prop where
  | object {ms : List (Option String × Doc)} {t : Doc} {v : Variant f}
    {xs : Filled v.record.fields} : (∀ m ∈ ms, m.1.isSome = true) →
    (∀ m ∈ ms, m.1 ≠ some "type" → m.2.WellFormed) → tagValues ms = [t] →
    readTag mode f t = .ok v → Given R ms v.record.fields xs →
    NodeForm R mode f (.object ms .closed) (v.wrap (xs.build v.record))
  | list {t : Doc} {ds : List Doc} {v : Variant f} {xs : Filled v.record.fields} :
    (∀ d ∈ ds, d.WellFormed) → readTag mode f t = .ok v → Sequence R v.record.fields ds xs →
    NodeForm R mode f (.list (t :: ds) .closed) (v.wrap (xs.build v.record))

/-- A list, given what its items mean. -/
def ListForm (R : Meaning) (i : Item) (d : Doc) (xs : List i.Carrier) : Prop :=
  ∃ ds, d = .list ds .closed ∧ List.Forall₂ (R (.plain i)) ds xs

theorem RecordForm.depth_pos {R : Meaning} {r : Record} {d : Doc} {x : r.Carrier}
    (h : RecordForm R r d x) : 0 < d.depth := by
  cases h <;> exact Nat.succ_pos _

theorem NodeForm.depth_pos {R : Meaning} {mode : Mode} {f : Family} {d : Doc} {x : f.Carrier}
    (h : NodeForm R mode f d x) : 0 < d.depth := by
  cases h <;> exact Nat.succ_pos _

theorem ListForm.depth_pos {R : Meaning} {i : Item} {d : Doc} {xs : List i.Carrier}
    (h : ListForm R i d xs) : 0 < d.depth := by
  obtain ⟨ds, rfl, -⟩ := h
  exact Nat.succ_pos _

section Forms

variable {R R' : Meaning} {room : Nat}
  (hR : ∀ d s x, d.depth ≤ room → R s d x → R' s d x)

include hR

theorem RecordForm.mono {r : Record} {d : Doc} {x : r.Carrier} (h : RecordForm R r d x)
    (hd : d.depth ≤ room + 1) : RecordForm R' r d x := by
  cases h with
  | object hadmissible hgiven =>
    rw [Doc.depth_object_le_iff] at hd
    exact .object hadmissible (hgiven.mono fun m hm s x => hR m.2 s x (hd m hm))
  | list hsequence =>
    rw [Doc.depth_list_le_iff] at hd
    exact .list (hsequence.mono fun e he s x => hR e s x (hd e he))

theorem NodeForm.mono {mode : Mode} {f : Family} {d : Doc} {x : f.Carrier}
    (h : NodeForm R mode f d x) (hd : d.depth ≤ room + 1) : NodeForm R' mode f d x := by
  cases h with
  | object hkeys hwell htags ht hgiven =>
    rw [Doc.depth_object_le_iff] at hd
    exact .object hkeys hwell htags ht (hgiven.mono fun m hm s x => hR m.2 s x (hd m hm))
  | list hwell ht hsequence =>
    rw [Doc.depth_list_le_iff] at hd
    exact .list hwell ht (hsequence.mono fun e he s x => hR e s x (hd e (.tail _ he)))

theorem ListForm.mono {i : Item} {d : Doc} {xs : List i.Carrier} (h : ListForm R i d xs)
    (hd : d.depth ≤ room + 1) : ListForm R' i d xs := by
  obtain ⟨ds, rfl, hds⟩ := h
  rw [Doc.depth_list_le_iff] at hd
  refine ⟨ds, rfl, ?_⟩
  induction hds with
  | nil => exact .nil
  | cons hx _ ih =>
    rw [List.forall_mem_cons] at hd
    exact .cons (hR _ _ _ hd.1 hx) (ih hd.2)

end Forms

section Levels

variable {room room' : Nat} {mode : Mode} {d : Doc}

theorem depth_of_readTag {f : Family} {v : Variant f} (h : readTag mode f d = .ok v) :
    d.depth = 0 := by
  cases d with
  | list | object => cases h
  | _ => rfl

theorem read_record_iff {r : Record} {x : r.Carrier} :
    Item.read (room + 1) mode (.record r) d = .ok x ↔
      RecordForm (Item.read room mode).meaning r d x := by
  show readRecord mode (room + 1) (Item.read room mode) r d = .ok x ↔ _
  constructor
  · intro h
    cases d with
    | object ms ending =>
      obtain ⟨xs, hxs, rfl⟩ := map_eq_ok_iff.mp h
      obtain ⟨rfl, hadmissible, hgiven⟩ := (readMembers_eq_ok_iff r.exclusive_fields).mp hxs
      exact .object hadmissible hgiven
    | list ds ending =>
      obtain ⟨xs, hxs, rfl⟩ := map_eq_ok_iff.mp h
      obtain ⟨rfl, hsequence⟩ := readSequence_eq_ok_iff.mp hxs
      exact .list hsequence
    | _ => cases h
  · intro h
    cases h with
    | object hadmissible hgiven =>
      exact map_eq_ok_iff.mpr
        ⟨_, (readMembers_eq_ok_iff r.exclusive_fields).mpr ⟨rfl, hadmissible, hgiven⟩, rfl⟩
    | list hsequence =>
      exact map_eq_ok_iff.mpr ⟨_, readSequence_eq_ok_iff.mpr ⟨rfl, hsequence⟩, rfl⟩

/-- The values of the fields do not depend on whether the tag is among the members. -/
theorem given_untagged_iff {R : Meaning} {r : Record} {ms : List (Option String × Doc)}
    {xs : Filled r.fields} : Given R (untagged ms) r.fields xs ↔ Given R ms r.fields xs := by
  have hvalues : ∀ f ∈ r.fields,
      valuesUnder f.answersTo (untagged ms) = valuesUnder f.answersTo ms := by
    intro f hf
    have htype : f.answersTo "type" = false := by
      rw [Bool.eq_false_iff, Ne, Field.answersTo_iff]
      exact r.type_notMem_keys f hf
    rw [valuesUnder, untagged, List.filterMap_filter]
    refine List.filterMap_congr fun m _ => ?_
    by_cases hkey : m.1 = some "type"
    · simp [hkey, htype]
    · simp [hkey]
  constructor
  · exact fun h => h.imp fun f hf x hx => hvalues f hf ▸ hx
  · exact fun h => h.imp fun f hf x hx => (hvalues f hf).symm ▸ hx

/-- The members of a node that are kept, told by the room that there is for them. -/
private theorem keptMembers_iff {ms : List (Option String × Doc)} {t : Doc} {f : Family}
    {v : Variant f} (htags : tagValues ms = [t]) (ht : readTag mode f t = .ok v) :
    KeptMembers room ms ↔ ((∀ m ∈ ms, m.1.isSome = true) ∧
      ∀ m ∈ ms, m.1 ≠ some "type" → m.2.WellFormed) ∧ ∀ m ∈ ms, m.2.depth ≤ room := by
  have htag : ∀ m ∈ ms, m.1 = some "type" → m.2.depth = 0 := by
    intro m hm hkey
    have hmem : m.2 ∈ tagValues ms :=
      List.mem_filterMap.mpr ⟨m, hm, by rw [hkey]; rfl⟩
    rw [htags, List.mem_singleton] at hmem
    rw [hmem]
    exact depth_of_readTag ht
  constructor
  · intro h
    refine ⟨⟨fun m hm => (h m hm).1, fun m hm hkey => (Doc.sound_iff.mp ((h m hm).2 hkey)).1⟩,
      fun m hm => ?_⟩
    by_cases hkey : m.1 = some "type"
    · rw [htag m hm hkey]
      exact Nat.zero_le _
    · exact (Doc.sound_iff.mp ((h m hm).2 hkey)).2
  · rintro ⟨⟨hkeys, hwell⟩, hdepth⟩ m hm
    exact ⟨hkeys m hm, fun hkey => (hwell m hm hkey).sound (hdepth m hm)⟩

/-- Members that are kept are JSON. -/
private theorem KeptMembers.admissible {ms : List (Option String × Doc)} (h : KeptMembers room ms)
    (fs : List Field) : Admissible fs (untagged ms) := by
  intro m hm
  obtain ⟨hm, hkey⟩ := List.mem_filter.mp hm
  obtain ⟨key, hsome⟩ := Option.isSome_iff_exists.mp (h m hm).1
  have hsound := (h m hm).2 (by simpa using hkey)
  exact ⟨key, hsome, fun _ => (Doc.sound_iff.mp hsound).1.complete⟩

theorem read_node_iff {f : Family} {x : f.Carrier} :
    Item.read (room + 1) mode (.node f) d = .ok x ↔
      NodeForm (Item.read room .kept).meaning mode f d x ∧ d.depth ≤ room + 1 := by
  show readNode mode (room + 1) (Item.read room .kept) f d = .ok x ↔ _
  constructor
  · intro h
    cases d with
    | object ms ending =>
      obtain ⟨⟨tag, others⟩, htagged, h⟩ := bind_eq_ok_iff.mp h
      dsimp only at h
      split at h
      · cases h
      · next hending =>
        obtain rfl := not_not.mp hending
        cases tag with
        | none => cases h
        | some v =>
          obtain ⟨hkept, rfl, t, htags, ht⟩ := readTagged_none_iff.mp htagged
          obtain ⟨xs, hxs, rfl⟩ := map_eq_ok_iff.mp h
          obtain ⟨-, -, hgiven⟩ := (readMembers_eq_ok_iff v.record.exclusive_fields).mp hxs
          obtain ⟨⟨hkeys, hwell⟩, hdepth⟩ := (keptMembers_iff htags ht).mp hkept
          exact ⟨.object hkeys hwell htags ht (given_untagged_iff.mp hgiven),
            Doc.depth_object_le_iff.mpr hdepth⟩
    | list ds ending =>
      cases ds with
      | nil => cases ending <;> cases h
      | cons t ds =>
        obtain ⟨v, ht, hrest⟩ := bind_eq_ok_iff.mp h
        split at hrest
        · next hkept =>
          simp only [Bool.and_eq_true, List.all_eq_true, beq_iff_eq, Nat.add_sub_cancel] at hkept
          obtain ⟨hsound, rfl⟩ := hkept
          obtain ⟨xs, hxs, rfl⟩ := map_eq_ok_iff.mp hrest
          refine ⟨.list (fun e he => (Doc.sound_iff.mp (hsound e he)).1) ht
            (readSequence_eq_ok_iff.mp hxs).2, Doc.depth_list_le_iff.mpr ?_⟩
          rw [List.forall_mem_cons, depth_of_readTag ht]
          exact ⟨Nat.zero_le _, fun e he => (Doc.sound_iff.mp (hsound e he)).2⟩
        · cases hrest
    | _ => cases h
  · rintro ⟨h, hd⟩
    cases h with
    | @object ms t v xs hkeys hwell htags ht hgiven =>
      have hkept := (keptMembers_iff htags ht).mpr
        ⟨⟨hkeys, hwell⟩, Doc.depth_object_le_iff.mp hd⟩
      have hmembers := (readMembers_eq_ok_iff v.record.exclusive_fields).mpr
        ⟨rfl, hkept.admissible _, given_untagged_iff.mpr hgiven⟩
      refine bind_eq_ok_iff.mpr
        ⟨(some v, untagged ms), readTagged_none_iff.mpr ⟨hkept, rfl, t, htags, ht⟩, ?_⟩
      exact map_eq_ok_iff.mpr ⟨xs, hmembers, rfl⟩
    | @list t ds v xs hwell ht hsequence =>
      rw [Doc.depth_list_le_iff, List.forall_mem_cons] at hd
      have hsound : (ds.all (Doc.sound room) && Ending.closed == .closed) = true := by
        simpa using fun e he => (hwell e he).sound (hd.2 e he)
      refine bind_eq_ok_iff.mpr ⟨v, ht, (if_pos hsound).trans ?_⟩
      exact map_eq_ok_iff.mpr ⟨xs, readSequence_eq_ok_iff.mpr ⟨rfl, hsequence⟩, rfl⟩

theorem read_list_iff {i : Item} {xs : List i.Carrier} :
    Item.read (room + 1) mode (.list i) d = .ok xs ↔
      ListForm (Item.read room mode).meaning i d xs := by
  constructor
  · intro h
    cases d with
    | list ds ending =>
      obtain ⟨rfl, hds⟩ := items_eq_ok_iff.mp h
      exact ⟨ds, rfl, hds⟩
    | _ => cases h
  · rintro ⟨ds, rfl, hds⟩
    exact items_eq_ok_iff.mpr ⟨rfl, hds⟩

private theorem read_literalValue_of_le {x : LiteralValue}
    (h : Item.read room mode .literalValue d = .ok x) :
    Item.read room' mode .literalValue d = .ok x := by
  have hread : ∀ n, Item.read n mode .literalValue d = Read.literalValue n d := by
    intro n
    cases n <;> rfl
  rw [hread] at h ⊢
  cases d with
  | null | boolean | number => exact h
  | text s =>
    cases s with
    | none => cases h
    | some s => exact h
  | list | object | broken => cases h

private theorem read_choice_of_le {c : Choice} {x : c.Carrier}
    (h : Item.read room mode (.choice c) d = .ok x) (hd : d.depth ≤ room') :
    Item.read room' mode (.choice c) d = .ok x := by
  have hread : ∀ n, Item.read n mode (.choice c) d = Read.choice c mode n d := by
    intro n
    cases n <;> rfl
  rw [hread] at h ⊢
  cases d with
  | text s =>
    cases s with
    | none => cases mode <;> cases h
    | some s => cases mode <;> exact h
  | object ms ending =>
    cases mode with
    | kept => rcases ms with _ | ⟨⟨_ | key, value⟩, _ | ⟨m, ms⟩⟩ <;> exact h
    | streaming =>
      have hroom : room ≠ 0 := by
        rintro rfl
        cases h
      have hroom' : room' ≠ 0 := by
        rintro rfl
        cases hd
      rcases ms with _ | ⟨⟨_ | key, value⟩, ms⟩ <;>
        simp only [Read.choice, if_neg hroom, if_neg hroom'] at h ⊢ <;> exact h
  | null | boolean | number | list | broken => cases mode <;> cases h

/-- A place in a record means what the item in it means. -/
theorem meaning_of_read {read read' : Reader} {s : Shape} {x : s.Carrier}
    (h : ∀ i (y : i.Carrier), read i d = .ok y → read' i d = .ok y)
    (hx : read.meaning s d x) : read'.meaning s d x := by
  cases s with
  | plain i => exact h i x hx
  | optional i =>
    cases d with
    | null => exact hx
    | _ =>
      obtain ⟨y, hy, rfl⟩ := map_eq_ok_iff.mp hx
      exact map_eq_ok_iff.mpr ⟨y, h i y hy, rfl⟩

/-- Room that is large enough for a document makes no difference to what it is accepted as.  The
induction is on the room there was, and each level of the document takes some of both. -/
theorem read_of_depth_le {i : Item} {x : i.Carrier} (h : Item.read room mode i d = .ok x)
    (hd : d.depth ≤ room') : Item.read room' mode i d = .ok x := by
  induction room generalizing room' mode i d with
  | zero =>
    cases i with
    | text | flag | word => cases room' <;> exact h
    | literalValue => exact read_literalValue_of_le h
    | choice c => exact read_choice_of_le h hd
    | record | node | list => cases d <;> cases h
  | succ room ih =>
    have hmeaning : ∀ {mode : Mode} {n : Nat} (d : Doc) (s : Shape) (x : s.Carrier), d.depth ≤ n →
        (Item.read room mode).meaning s d x → (Item.read n mode).meaning s d x :=
      fun d s x hd hx => meaning_of_read (fun i y hy => ih hy hd) hx
    cases i with
    | text | flag | word => cases room' <;> exact h
    | literalValue => exact read_literalValue_of_le h
    | choice c => exact read_choice_of_le h hd
    | record r =>
      have hform := read_record_iff.mp h
      obtain ⟨n, rfl⟩ := Nat.exists_eq_add_of_lt (Nat.lt_of_lt_of_le hform.depth_pos hd)
      rw [Nat.zero_add] at hd ⊢
      exact read_record_iff.mpr (hform.mono hmeaning hd)
    | node f =>
      have hform := (read_node_iff.mp h).1
      obtain ⟨n, rfl⟩ := Nat.exists_eq_add_of_lt (Nat.lt_of_lt_of_le hform.depth_pos hd)
      rw [Nat.zero_add] at hd ⊢
      exact read_node_iff.mpr ⟨hform.mono hmeaning hd, hd⟩
    | list i =>
      have hform := read_list_iff.mp h
      obtain ⟨n, rfl⟩ := Nat.exists_eq_add_of_lt (Nat.lt_of_lt_of_le hform.depth_pos hd)
      rw [Nat.zero_add] at hd ⊢
      exact read_list_iff.mpr (hform.mono hmeaning hd)

end Levels

/-! ## Acceptance -/

/-- A document is accepted as a value in some place if it is with enough room. -/
def Accepts (mode : Mode) : Meaning := fun s d x => ∃ room, (Item.read room mode).meaning s d x

section Acceptance

variable {mode : Mode} {d : Doc} {room : Nat}

theorem Accepts.meaning {s : Shape} {x : s.Carrier} (h : Accepts mode s d x)
    (hd : d.depth ≤ room) : (Item.read room mode).meaning s d x := by
  obtain ⟨n, hn⟩ := h
  exact meaning_of_read (fun i y hy => read_of_depth_le hy hd) hn

/-- With room for its depth a document is read as what it is accepted as. -/
theorem Accepts.read {i : Item} {x : i.Carrier} (h : Accepts mode (.plain i) d x)
    (hd : d.depth ≤ room) : Item.read room mode i d = .ok x :=
  h.meaning hd

theorem accepts_of_read {i : Item} {x : i.Carrier} (h : Item.read room mode i d = .ok x) :
    Accepts mode (.plain i) d x :=
  ⟨room, h⟩

/-- A document is accepted as one value at most. -/
theorem Accepts.unique {s : Shape} {x y : s.Carrier} (hx : Accepts mode s d x)
    (hy : Accepts mode s d y) : x = y := by
  have hx := hx.meaning (Nat.le_refl _)
  have hy := hy.meaning (Nat.le_refl _)
  exact Except.ok.inj (hx.symm.trans hy)

theorem accepts_optional_iff {i : Item} {x : Option i.Carrier} (hd : d ≠ .null) :
    Accepts mode (.optional i) d x ↔ ∃ y, some y = x ∧ Accepts mode (.plain i) d y := by
  have hmeaning : ∀ room, (Item.read room mode).meaning (.optional i) d x ↔
      ∃ y, Item.read room mode i d = .ok y ∧ some y = x := by
    intro room
    rw [← map_eq_ok_iff]
    cases d with
    | null => exact absurd rfl hd
    | _ => exact Iff.rfl
  constructor
  · rintro ⟨room, h⟩
    obtain ⟨y, hy, rfl⟩ := (hmeaning room).mp h
    exact ⟨y, rfl, room, hy⟩
  · rintro ⟨y, rfl, room, hy⟩
    exact ⟨room, (hmeaning room).mpr ⟨y, hy, rfl⟩⟩

/-- What is read with some room is accepted. -/
private theorem accepts_of_meaning (room bound : Nat) (mode : Mode) (d : Doc) (s : Shape)
    (x : s.Carrier) (_ : d.depth ≤ bound) (h : (Item.read room mode).meaning s d x) :
    Accepts mode s d x :=
  ⟨room, h⟩

theorem accepts_record_iff {r : Record} {x : r.Carrier} :
    Accepts mode (.plain (.record r)) d x ↔ RecordForm (Accepts mode) r d x := by
  constructor
  · rintro ⟨room, h⟩
    cases room with
    | zero => cases d <;> cases h
    | succ room =>
      exact (read_record_iff.mp h).mono (accepts_of_meaning room d.depth mode) (Nat.le_succ _)
  · intro h
    obtain ⟨n, hn⟩ := Nat.exists_eq_add_of_lt h.depth_pos
    rw [Nat.zero_add] at hn
    exact ⟨n + 1, read_record_iff.mpr (h.mono (fun _ _ _ hd hx => hx.meaning hd) (Nat.le_of_eq hn))⟩

/-- The parts of a node are accepted from what was kept. -/
theorem accepts_node_iff {f : Family} {x : f.Carrier} :
    Accepts mode (.plain (.node f)) d x ↔ NodeForm (Accepts .kept) mode f d x := by
  constructor
  · rintro ⟨room, h⟩
    cases room with
    | zero => cases d <;> cases h
    | succ room =>
      exact (read_node_iff.mp h).1.mono (accepts_of_meaning room d.depth .kept) (Nat.le_succ _)
  · intro h
    obtain ⟨n, hn⟩ := Nat.exists_eq_add_of_lt h.depth_pos
    rw [Nat.zero_add] at hn
    have hform := h.mono (fun _ _ _ hd hx => hx.meaning hd) (Nat.le_of_eq hn)
    exact ⟨n + 1, read_node_iff.mpr ⟨hform, Nat.le_of_eq hn⟩⟩

theorem accepts_list_iff {i : Item} {xs : List i.Carrier} :
    Accepts mode (.plain (.list i)) d xs ↔ ListForm (Accepts mode) i d xs := by
  constructor
  · rintro ⟨room, h⟩
    cases room with
    | zero => cases d <;> cases h
    | succ room =>
      exact (read_list_iff.mp h).mono (accepts_of_meaning room d.depth mode) (Nat.le_succ _)
  · intro h
    obtain ⟨n, hn⟩ := Nat.exists_eq_add_of_lt h.depth_pos
    rw [Nat.zero_add] at hn
    exact ⟨n + 1, read_list_iff.mpr (h.mono (fun _ _ _ hd hx => hx.meaning hd) (Nat.le_of_eq hn))⟩

end Acceptance

end Treewalk
