import Mathlib.Logic.Relation
import Treewalk.Proofs.Presentation

/-!
# Ambiguous documents

An object may give the value of a field under any of the keys of the field, so it could give two
values.  The reader takes neither of them.  The same key is the name of a field in one record, an
alias in another and unknown in a third, and the parts of a node are only known from its tag; so it
has to be said first which documents inside a document are read, and for which place.

## Main definitions

* `Site`, `Site.Part` — documents with their places, and the ones that are read inside of others.
* `GivenTwice`, `Site.Conflict` — an object with two values for one field, or with two tags.
* `Site.Ambiguous` — a document that holds such an object.
* `decode_of_ambiguous` — a text of an ambiguous document is refused.
-/

namespace Treewalk

open Json (Doc Ending)

/-! ## Two values for one field -/

/-- Two members stand under keys that are picked out. -/
def GivenTwice (pick : String → Bool) (ms : List (Option String × Doc)) : Prop :=
  ∃ key key' d d', pick key = true ∧ pick key' = true ∧
    [(some key, d), (some key', d')].Sublist ms

theorem GivenTwice.two_le_length {pick : String → Bool} {ms : List (Option String × Doc)}
    (h : GivenTwice pick ms) : 2 ≤ (valuesUnder pick ms).length := by
  obtain ⟨key, key', d, d', hkey, hkey', hms⟩ := h
  have hvalues : [d, d'].Sublist (valuesUnder pick ms) := by
    have hmap := hms.filterMap fun m => if m.1.any pick then some m.2 else none
    simpa [valuesUnder, hkey, hkey'] using hmap
  exact hvalues.length_le

theorem FieldGiven.length_le_one {R : Meaning} {f : Field} {ds : List Doc} {x : f.shape.Carrier}
    (h : FieldGiven R f ds x) : ds.length ≤ 1 := by
  match ds with
  | [] | [_] => simp
  | _ :: _ :: _ => exact h.elim

section Fields

variable {R : Meaning} {fs : List Field} {f : Field}

theorem Given.field {ms : List (Option String × Doc)} {xs : Filled fs} (h : Given R ms fs xs)
    (hf : f ∈ fs) : ∃ x, FieldGiven R f (valuesUnder f.answersTo ms) x := by
  induction fs with
  | nil => cases hf
  | cons g fs ih =>
    cases hf with
    | head => exact ⟨xs.1, h.1⟩
    | tail _ hf => exact ih h.2 hf

theorem Given.not_givenTwice {ms : List (Option String × Doc)} {xs : Filled fs}
    (h : Given R ms fs xs) (hf : f ∈ fs) : ¬ GivenTwice f.answersTo ms := by
  intro htwice
  obtain ⟨x, hx⟩ := h.field hf
  exact absurd htwice.two_le_length (Nat.not_le_of_lt (Nat.lt_succ_of_le hx.length_le_one))

/-- A member under a key of a field means a value of the field. -/
theorem Given.member {ms : List (Option String × Doc)} {xs : Filled fs} (h : Given R ms fs xs)
    (hf : f ∈ fs) {key : String} {d : Doc} (hkey : f.answersTo key = true)
    (hd : (some key, d) ∈ ms) : ∃ x, R f.shape d x := by
  obtain ⟨x, hx⟩ := h.field hf
  have hmem : d ∈ valuesUnder f.answersTo ms :=
    List.mem_filterMap.mpr ⟨_, hd, by simp [hkey]⟩
  match hvalues : valuesUnder f.answersTo ms with
  | [] => rw [hvalues] at hmem; cases hmem
  | [d'] =>
    rw [hvalues] at hx hmem
    rw [List.mem_singleton] at hmem
    exact ⟨x, hmem ▸ hx⟩
  | _ :: _ :: _ => rw [hvalues] at hx; exact hx.elim

theorem Sequence.position {ds : List Doc} {xs : Filled fs} (h : Sequence R fs ds xs) {d : Doc}
    (hd : (f, d) ∈ fs.zip ds) : ∃ x, R f.shape d x := by
  induction fs generalizing ds with
  | nil => cases hd
  | cons g fs ih =>
    cases ds with
    | nil => cases hd
    | cons d' ds =>
      cases hd with
      | head => exact ⟨xs.1, h.1⟩
      | tail _ hd => exact ih h.2 hd

theorem ListForm.item {i : Item} {ds : List Doc} {ending : Ending} {xs : List i.Carrier} {d : Doc}
    (h : ListForm R i (.list ds ending) xs) (hd : d ∈ ds) : ∃ x, R (.plain i) d x := by
  obtain ⟨ds, hds, hitems⟩ := h
  cases hds
  induction hitems with
  | nil => cases hd
  | cons hx _ ih =>
    cases hd with
    | head => exact ⟨_, hx⟩
    | tail _ hd => exact ih hd

end Fields

/-! ## The parts that are read -/

/-- A document with the place that it is read for, and how it is read. -/
structure Site where
  mode : Mode
  shape : Shape
  doc : Doc

namespace Site

/-- The second document is read when the first one is.  Unknown members have no such parts. -/
inductive Part : Site → Site → Prop where
  | item {mode : Mode} {s : Shape} {i : Item} {ds : List Doc} {ending : Ending} {d : Doc} :
    s.item = .list i → d ∈ ds → Part ⟨mode, s, .list ds ending⟩ ⟨mode, .plain i, d⟩
  | member {mode : Mode} {s : Shape} {r : Record} {ms : List (Option String × Doc)}
    {ending : Ending} {f : Field} {key : String} {d : Doc} : s.item = .record r → f ∈ r.fields →
    f.answersTo key = true → (some key, d) ∈ ms →
    Part ⟨mode, s, .object ms ending⟩ ⟨mode, f.shape, d⟩
  | position {mode : Mode} {s : Shape} {r : Record} {ds : List Doc} {ending : Ending} {f : Field}
    {d : Doc} : s.item = .record r → (f, d) ∈ r.fields.zip ds →
    Part ⟨mode, s, .list ds ending⟩ ⟨mode, f.shape, d⟩
  | nodeMember {mode : Mode} {s : Shape} {family : Family} {v : Variant family}
    {ms : List (Option String × Doc)} {ending : Ending} {t : Doc} {f : Field} {key : String}
    {d : Doc} : s.item = .node family → t ∈ tagValues ms → readTag mode family t = .ok v →
    f ∈ v.record.fields → f.answersTo key = true → (some key, d) ∈ ms →
    Part ⟨mode, s, .object ms ending⟩ ⟨.kept, f.shape, d⟩
  | nodePosition {mode : Mode} {s : Shape} {family : Family} {v : Variant family}
    {ds : List Doc} {ending : Ending} {t : Doc} {f : Field} {d : Doc} : s.item = .node family →
    readTag mode family t = .ok v → (f, d) ∈ v.record.fields.zip ds →
    Part ⟨mode, s, .list (t :: ds) ending⟩ ⟨.kept, f.shape, d⟩

/-- An object that gives one field twice, or its tag. -/
inductive Conflict : Site → Prop where
  | record {mode : Mode} {s : Shape} {r : Record} {ms : List (Option String × Doc)}
    {ending : Ending} {f : Field} : s.item = .record r → f ∈ r.fields →
    GivenTwice f.answersTo ms → Conflict ⟨mode, s, .object ms ending⟩
  | node {mode : Mode} {s : Shape} {family : Family} {v : Variant family}
    {ms : List (Option String × Doc)} {ending : Ending} {t : Doc} {f : Field} :
    s.item = .node family → t ∈ tagValues ms → readTag mode family t = .ok v →
    f ∈ v.record.fields → GivenTwice f.answersTo ms → Conflict ⟨mode, s, .object ms ending⟩
  | tag {mode : Mode} {s : Shape} {family : Family} {ms : List (Option String × Doc)}
    {ending : Ending} : s.item = .node family → GivenTwice (· == "type") ms →
    Conflict ⟨mode, s, .object ms ending⟩

/-- Somewhere in the document, at any depth, is an object with a conflict that is read. -/
def Ambiguous (p : Site) : Prop := ∃ q, Relation.ReflTransGen Part p q ∧ q.Conflict

/-- The document is accepted for its place. -/
def Accepted (p : Site) : Prop := ∃ x, Accepts p.mode p.shape p.doc x

/-- A document that is not null is accepted for a place as the item in it. -/
theorem Accepted.item {mode : Mode} {s : Shape} {i : Item} {d : Doc} (h : Accepted ⟨mode, s, d⟩)
    (hs : s.item = i) (hd : d ≠ .null) : ∃ y, Accepts mode (.plain i) d y := by
  obtain ⟨x, hx⟩ := h
  cases s with
  | plain j => exact hs ▸ ⟨x, hx⟩
  | optional j =>
    obtain ⟨y, -, hy⟩ := (accepts_optional_iff hd).mp hx
    exact hs ▸ ⟨y, hy⟩

variable {mode : Mode} {s : Shape} {r : Record} {family : Family} {ms : List (Option String × Doc)}
  {ds : List Doc} {ending : Ending}

theorem Accepted.recordForm {d : Doc} (h : Accepted ⟨mode, s, d⟩) (hs : s.item = .record r)
    (hd : d ≠ .null) : ∃ x, RecordForm (Accepts mode) r d x := by
  obtain ⟨x, hx⟩ := h.item hs hd
  exact ⟨x, accepts_record_iff.mp hx⟩

theorem Accepted.nodeForm {d : Doc} (h : Accepted ⟨mode, s, d⟩) (hs : s.item = .node family)
    (hd : d ≠ .null) : ∃ x, NodeForm (Accepts .kept) mode family d x := by
  obtain ⟨x, hx⟩ := h.item hs hd
  exact ⟨x, accepts_node_iff.mp hx⟩

/-- The members of a node that is accepted are the fields of the kind that any tag in it names. -/
theorem Accepted.nodeMembers {v : Variant family} {t : Doc}
    (h : Accepted ⟨mode, s, .object ms ending⟩) (hs : s.item = .node family)
    (ht : t ∈ tagValues ms) (hv : readTag mode family t = .ok v) :
    ∃ xs, Given (Accepts .kept) ms v.record.fields xs := by
  obtain ⟨x, hx⟩ := h.nodeForm hs nofun
  cases hx with
  | object _ _ htags ht' hgiven =>
    rw [htags, List.mem_singleton] at ht
    subst ht
    cases hv.symm.trans ht'
    exact ⟨_, hgiven⟩

/-- What is read inside an accepted document is accepted. -/
theorem Part.accepted {p q : Site} (h : p.Part q) (hp : p.Accepted) : q.Accepted := by
  cases h with
  | item hs hd =>
    obtain ⟨xs, hxs⟩ := hp.item hs nofun
    exact (accepts_list_iff.mp hxs).item hd
  | member hs hf hkey hd =>
    obtain ⟨x, hx⟩ := hp.recordForm hs nofun
    cases hx with
    | object _ hgiven => exact hgiven.member hf hkey hd
  | position hs hd =>
    obtain ⟨x, hx⟩ := hp.recordForm hs nofun
    cases hx with
    | list hsequence => exact hsequence.position hd
  | nodeMember hs ht hv hf hkey hd =>
    obtain ⟨xs, hgiven⟩ := hp.nodeMembers hs ht hv
    exact hgiven.member hf hkey hd
  | nodePosition hs hv hd =>
    obtain ⟨x, hx⟩ := hp.nodeForm hs nofun
    cases hx with
    | list _ hv' hsequence =>
      cases hv.symm.trans hv'
      exact hsequence.position hd

theorem Conflict.not_accepted {p : Site} (h : p.Conflict) : ¬ p.Accepted := by
  intro hp
  cases h with
  | record hs hf htwice =>
    obtain ⟨x, hx⟩ := hp.recordForm hs nofun
    cases hx with
    | object _ hgiven => exact hgiven.not_givenTwice hf htwice
  | node hs ht hv hf htwice =>
    obtain ⟨xs, hgiven⟩ := hp.nodeMembers hs ht hv
    exact hgiven.not_givenTwice hf htwice
  | @tag _ _ _ ms _ hs htwice =>
    obtain ⟨x, hx⟩ := hp.nodeForm hs nofun
    cases hx with
    | object _ _ htags =>
      have htwo : 2 ≤ (tagValues ms).length := htwice.two_le_length
      rw [htags, List.length_singleton] at htwo
      exact Nat.not_succ_le_self 1 htwo

/-- What is read at any depth is accepted, by induction on the way to it. -/
theorem Accepted.of_path {p q : Site} (hp : p.Accepted) (h : Relation.ReflTransGen Part p q) :
    q.Accepted := by
  induction h with
  | refl => exact hp
  | tail _ hpart ih => exact hpart.accepted ih

theorem Ambiguous.not_accepted {p : Site} (h : p.Ambiguous) : ¬ p.Accepted := by
  obtain ⟨q, hpath, hq⟩ := h
  exact fun hp => hq.not_accepted (hp.of_path hpath)

end Site

/-! ## Texts -/

/-- No tree is read from a text with an ambiguous document, whichever item is asked for.  The rest
of the text, before and after the conflict, is of no importance. -/
theorem decode_of_ambiguous {i : Item} {cs : List Char}
    (h : Site.Ambiguous ⟨.streaming, .plain i, (Json.scan cs).1⟩) :
    ∃ e, i.decode cs = .error e := by
  cases hdecode : i.decode cs with
  | error e => exact ⟨e, rfl⟩
  | ok x =>
    obtain ⟨d, ⟨rest, hscan, -⟩, hx⟩ := decode_eq_ok_iff.mp hdecode
    have haccepted : Site.Accepted ⟨.streaming, .plain i, d⟩ := ⟨x, accepts_of_read hx⟩
    rw [hscan] at h
    exact absurd haccepted h.not_accepted

/-- A node without fields. -/
def emptyStatement : Doc := .ofMembers [("type", .ofString "EmptyStatement")]

/-- A conditional with a branch under the name of the field and with another one under its alias,
before its tag. -/
def ifWithTwoBranches : Doc :=
  .ofMembers [("body", .ofList [.ofMembers [("body", emptyStatement),
    ("test", .ofMembers [("name", .ofString "x"), ("type", .ofString "Identifier")]),
    ("consequent", emptyStatement), ("type", .ofString "IfStatement")]])]

theorem ifWithTwoBranches_whole : ifWithTwoBranches.Whole := by
  have htext : ∀ s, (Doc.ofString s).Whole := fun s => .leaf (.ofString s) rfl
  have hempty : emptyStatement.Whole := .ofMembers _ (List.forall_mem_singleton.mpr (htext _))
  refine .ofMembers _ (List.forall_mem_singleton.mpr (.ofList _ (List.forall_mem_singleton.mpr
    (.ofMembers _ ?_))))
  simp only [List.forall_mem_cons, List.not_mem_nil, IsEmpty.forall_iff, implies_true, and_true]
  refine ⟨hempty, .ofMembers _ ?_, hempty, htext _⟩
  rw [List.forall_mem_cons, List.forall_mem_singleton]
  exact ⟨htext _, htext _⟩

/-- The conditional is not read. -/
theorem decode_ifWithTwoBranches :
    Site.Ambiguous ⟨.streaming, .plain (.record .program),
        (Json.scan ifWithTwoBranches.compactText.toList).1⟩ ∧
      ∃ e, Program.decode ifWithTwoBranches.compactText = .error e := by
  obtain ⟨rest, hscan, -⟩ := Json.Doc.hasText_compact ifWithTwoBranches_whole
  let variant : Variant .statement := ⟨["IfStatement"], .ifStatement, fun s => s⟩
  let consequent : Field := .required "consequent" (.node .statement) ["body"]
  have hvariant : readTag .streaming .statement (.ofString "IfStatement") = .ok variant :=
    readTag_of_mem (v := variant) (by simp [Family.variants, variant]) (.head _)
  have hambiguous : Site.Ambiguous ⟨.streaming, .plain (.record .program),
      (Json.scan ifWithTwoBranches.compactText.toList).1⟩ := by
    rw [Json.Doc.compactText, String.toList_ofList, hscan]
    refine ⟨_, .tail (.single (.member (f := .required "body" (.list (.node .statement))) rfl
      (.head _) rfl (.head _))) (.item rfl (.head _)), ?_⟩
    refine .node (f := consequent) rfl (by simp [tagValues, valuesUnder]) hvariant
      (.tail _ (.head _)) ⟨"body", "consequent", emptyStatement, emptyStatement, rfl, rfl, ?_⟩
    exact .cons_cons _ (.cons _ (.cons_cons _ (List.nil_sublist _)))
  exact ⟨hambiguous, decode_of_ambiguous hambiguous⟩

end Treewalk
