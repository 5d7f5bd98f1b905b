import Treewalk.Proofs.Finiteness
import Treewalk.Proofs.Presentation
import Treewalk.Proofs.RoundTrip
import Treewalk.Proofs.Writing

/-!
# Writing again what was read

A text may say less than the document of its tree: fields with fallbacks may be left out, and the
writer writes them all.  So what was read may nest deeper once it is written, but not by much: what
is written for a field that was left out nests one level, and it stands where a field that was given
would stand.  A tree that is read from a text is therefore written at most one level deeper than the
text, and only a text that nests as deep as the reader allows may be refused once it is written
again.

No numbers are lost on the way either, because the reader makes no infinities.

## Main definitions

* `Writable` — values that are written with few levels and without loss.
* `Reencodes` — what a value has to be of the document that it is read from.
* `reencodes_of_read` — all that is read is that.
* `Program.decode_reencoded` — programs that are read, written and read again.
-/

namespace Treewalk

open Json (Doc)

/-- A value that is written with `n + 1` levels at most, and with all its numbers, which are
finite. -/
structure Writable (n : Nat) (s : Shape) (x : s.Carrier) : Prop where
  depth_le : (s.toDoc x).depth ≤ n + 1
  allFinite : AllFinite (s.literals x)

/-- A value that is written at most one level deeper than a document. -/
abbrev Reencodes : Meaning := fun s d x => Writable d.depth s x

theorem allFinite_nil : AllFinite [] := nofun

/-! ## Values without parts -/

namespace Writable

variable {n m : Nat} {s : Shape} {x : s.Carrier}

theorem mono (h : Writable n s x) (hm : n ≤ m) : Writable m s x :=
  ⟨Nat.le_trans h.depth_le (Nat.succ_le_succ hm), h.allFinite⟩

theorem of_scalar (hdepth : (s.toDoc x).depth = 0) (hliterals : AllFinite (s.literals x)) :
    Writable n s x :=
  ⟨hdepth ▸ Nat.zero_le _, hliterals⟩

end Writable

theorem LiteralValue.depth_toDoc (v : LiteralValue) : v.toDoc.depth = 0 := by
  cases v with
  | number x =>
    rw [toDoc, numberDoc]
    split <;> rfl
  | _ => rfl

theorem Choice.depth_toDoc (c : Choice) (x : c.Carrier) : (c.toDoc x).depth = 0 := by
  cases c <;> rfl

/-- The values of literals that are read are finite. -/
theorem reencodes_literalValue {room : Nat} {d : Doc} {v : LiteralValue}
    (h : Read.literalValue room d = .ok v) : Reencodes (.plain .literalValue) d v := by
  refine .of_scalar v.depth_toDoc fun x hx => ?_
  obtain rfl := List.mem_singleton.mp hx
  cases d with
  | number n =>
    rw [Read.literalValue] at h
    split at h
    · next q hq =>
      cases h
      exact Numeral.isFinite_of_quantity? hq
    · cases h
  | text s => cases s <;> cases h
  | null | boolean | list | object | broken => cases h

/-! ## Parts -/

section Parts

variable {R : Meaning} {fs : List Field}

/-- All fields of a record have values with a property. -/
def Filled.Each (Q : (s : Shape) → s.Carrier → Prop) : (fs : List Field) → Filled fs → Prop
  | [], _ => True
  | f :: fs, (x, xs) => Q f.shape x ∧ Each Q fs xs

variable {Q : (s : Shape) → s.Carrier → Prop}

theorem Given.each {ms : List (Option String × Doc)} {xs : Filled fs} (h : Given R ms fs xs)
    (hR : ∀ m ∈ ms, ∀ s x, R s m.2 x → Q s x)
    (hfallback : ∀ f ∈ fs, ∀ x, f.fallback = some x → Q f.shape x) : xs.Each Q fs := by
  induction fs with
  | nil => trivial
  | cons f fs ih =>
    rw [List.forall_mem_cons] at hfallback
    refine ⟨?_, ih h.2 hfallback.2⟩
    have hfield := h.1
    cases hds : valuesUnder f.answersTo ms with
    | nil =>
      rw [hds] at hfield
      exact hfallback.1 _ hfield
    | cons d ds =>
      obtain ⟨m, hm, rfl⟩ := mem_of_mem_valuesUnder (hds ▸ List.mem_cons_self)
      rw [hds, fieldGiven_cons] at hfield
      exact hR m hm _ _ hfield.2

theorem Sequence.each {ds : List Doc} {xs : Filled fs} (h : Sequence R fs ds xs)
    (hR : ∀ d ∈ ds, ∀ s x, R s d x → Q s x)
    (hfallback : ∀ f ∈ fs, ∀ x, f.fallback = some x → Q f.shape x) : xs.Each Q fs := by
  induction fs generalizing ds with
  | nil => trivial
  | cons f fs ih =>
    rw [List.forall_mem_cons] at hfallback
    cases ds with
    | nil => exact ⟨hfallback.1 _ h.1, ih h.2 hR hfallback.2⟩
    | cons d ds =>
      rw [List.forall_mem_cons] at hR
      exact ⟨hR.1 _ _ h.1, ih h.2 hR.2 hfallback.2⟩

end Parts

/-! ## What a part adds to the nesting -/

section Fields

variable {n : Nat} {fs : List Field} {xs : Filled fs}

theorem Record.writable_fallback (r : Record) (n : Nat) :
    ∀ f ∈ r.fields, ∀ x, f.fallback = some x → Writable n f.shape x := by
  intro f hf x hx
  have hall := r.fallback_shallow f hf
  simp only [hx, Option.all_some, Bool.and_eq_true, decide_eq_true_eq, List.isEmpty_iff] at hall
  exact ⟨Nat.le_trans hall.1 (Nat.le_add_left 1 n), hall.2 ▸ allFinite_nil⟩

theorem Filled.Each.depth_le (h : xs.Each (Writable n) fs) :
    ∀ m ∈ xs.members fs, m.2.depth ≤ n + 1 := by
  induction fs with
  | nil => nofun
  | cons f fs ih => exact List.forall_mem_cons.mpr ⟨h.1.depth_le, ih h.2⟩

theorem Filled.Each.allFinite (h : xs.Each (Writable n) fs) : AllFinite (xs.literals fs) := by
  induction fs with
  | nil => exact allFinite_nil
  | cons f fs ih => exact eachNumber_append.mpr ⟨h.1.allFinite, ih h.2⟩

end Fields

theorem Filled.Each.writable_build {n : Nat} {r : Record} {xs : Filled r.fields}
    (h : xs.Each (Writable n) r.fields) : Writable (n + 1) (.plain (.record r)) (xs.build r) where
  depth_le := (r.wrote_build xs).depth_le h.depth_le
  allFinite := by
    show AllFinite (r.literals (xs.build r))
    rw [r.literals_build]
    exact h.allFinite

theorem Filled.Each.writable_wrap {n : Nat} {f : Family} {v : Variant f} (hv : v ∈ f.variants)
    {xs : Filled v.record.fields} (h : xs.Each (Writable n) v.record.fields) :
    Writable (n + 1) (.plain (.node f)) (v.wrap (xs.build v.record)) where
  depth_le := (Variant.wrote_wrap hv xs).depth_le h.depth_le
  allFinite := by
    show AllFinite (f.literals (v.wrap (xs.build v.record)))
    rw [Variant.literals_wrap hv]
    exact h.allFinite

theorem writable_list {n : Nat} {i : Item} {xs : List i.Carrier}
    (h : ∀ x ∈ xs, Writable n (.plain i) x) : Writable (n + 1) (.plain (.list i)) xs where
  depth_le := by
    refine Doc.depth_list_le_iff.mpr fun d hd => ?_
    obtain ⟨x, hx, rfl⟩ := List.mem_map.mp hd
    exact (h x hx).depth_le
  allFinite := eachNumber_flatMap.mpr fun x hx => (h x hx).allFinite

/-! ## One level of a document -/

theorem mem_variants_of_readTag {mode : Mode} {f : Family} {v : Variant f} {t : Doc}
    (h : readTag mode f t = .ok v) : v ∈ f.variants := by
  cases t with
  | text s =>
    cases s with
    | none => cases h
    | some s =>
      rw [readTag] at h
      split at h
      · next hv =>
        cases h
        exact List.mem_of_find?_eq_some hv
      · cases h
  | number n =>
    cases mode with
    | streaming => cases h
    | kept =>
      simp only [readTag] at h
      split at h
      · split at h
        · next hv =>
          cases h
          exact List.mem_of_getElem? hv
        · cases h
      · cases h
  | null | boolean | list | object | broken => cases h

theorem RecordForm.reencodes {r : Record} {d : Doc} {x : r.Carrier}
    (h : RecordForm Reencodes r d x) : Reencodes (.plain (.record r)) d x := by
  cases h with
  | @object ms _ _ hgiven =>
    have hms := Doc.depthMembers_le_iff.mp (Nat.le_refl (Doc.depthMembers ms))
    have heach := hgiven.each (fun m hm _ _ hx => hx.mono (hms m hm)) (r.writable_fallback _)
    exact heach.writable_build
  | @list ds _ hsequence =>
    have hds := Doc.depthItems_le_iff.mp (Nat.le_refl (Doc.depthItems ds))
    have heach := hsequence.each (fun d hd _ _ hx => hx.mono (hds d hd)) (r.writable_fallback _)
    exact heach.writable_build

theorem NodeForm.reencodes {mode : Mode} {f : Family} {d : Doc} {x : f.Carrier}
    (h : NodeForm Reencodes mode f d x) : Reencodes (.plain (.node f)) d x := by
  cases h with
  | @object ms _ v _ _ _ _ ht hgiven =>
    have hms := Doc.depthMembers_le_iff.mp (Nat.le_refl (Doc.depthMembers ms))
    have heach := hgiven.each (fun m hm _ _ hx => hx.mono (hms m hm)) (v.record.writable_fallback _)
    exact heach.writable_wrap (mem_variants_of_readTag ht)
  | @list t ds v _ _ ht hsequence =>
    have hds := Doc.depthItems_le_iff.mp (Nat.le_refl (Doc.depthItems (t :: ds)))
    have heach := hsequence.each (fun d hd _ _ hx => hx.mono (hds d (.tail _ hd)))
      (v.record.writable_fallback _)
    exact heach.writable_wrap (mem_variants_of_readTag ht)

theorem ListForm.reencodes {i : Item} {d : Doc} {xs : List i.Carrier}
    (h : ListForm Reencodes i d xs) : Reencodes (.plain (.list i)) d xs := by
  obtain ⟨ds, rfl, h⟩ := h
  refine writable_list ?_
  have hds := Doc.depthItems_le_iff.mp (Nat.le_refl (Doc.depthItems ds))
  generalize Doc.depthItems ds = n at hds
  induction h with
  | nil => nofun
  | cons hx _ ih =>
    rw [List.forall_mem_cons] at hds
    exact List.forall_mem_cons.mpr ⟨hx.mono hds.1, ih hds.2⟩

/-! ## Acceptance -/

theorem reencodes_of_meaning {read : Reader} {s : Shape} {d : Doc} {x : s.Carrier}
    (h : ∀ i (y : i.Carrier), read i d = .ok y → Reencodes (.plain i) d y)
    (hx : read.meaning s d x) : Reencodes s d x := by
  cases s with
  | plain i => exact h i x hx
  | optional i =>
    cases d with
    | null =>
      obtain rfl := Except.ok.inj hx
      exact .of_scalar rfl allFinite_nil
    | _ =>
      obtain ⟨y, hy, rfl⟩ := map_eq_ok_iff.mp hx
      have hreencodes := h i y hy
      exact ⟨hreencodes.depth_le, hreencodes.allFinite⟩

/-- What is read is written at most one level deeper.  The induction is on the room for nesting;
each level of the document is one of the forms, whose parts are told by the hypothesis. -/
theorem reencodes_of_read {room : Nat} {mode : Mode} {i : Item} {d : Doc} {x : i.Carrier}
    (h : Item.read room mode i d = .ok x) : Reencodes (.plain i) d x := by
  induction room generalizing mode i d with
  | zero =>
    cases i with
    | text | flag | word => exact .of_scalar rfl allFinite_nil
    | choice c => exact .of_scalar (c.depth_toDoc x) allFinite_nil
    | literalValue => exact reencodes_literalValue h
    | record | node | list => cases d <;> cases h
  | succ room ih =>
    have hmeaning : ∀ mode (d' : Doc) s x, d'.depth ≤ d.depth →
        (Item.read room mode).meaning s d' x → Reencodes s d' x :=
      fun mode d' s x _ hx => reencodes_of_meaning (fun i y hy => ih hy) hx
    cases i with
    | text | flag | word => exact .of_scalar rfl allFinite_nil
    | choice c => exact .of_scalar (c.depth_toDoc x) allFinite_nil
    | literalValue => exact reencodes_literalValue h
    | record r => exact ((read_record_iff.mp h).mono (hmeaning mode) (Nat.le_succ _)).reencodes
    | node f => exact ((read_node_iff.mp h).1.mono (hmeaning .kept) (Nat.le_succ _)).reencodes
    | list i => exact ((read_list_iff.mp h).mono (hmeaning mode) (Nat.le_succ _)).reencodes

/-! ## Texts -/

theorem NodeKind.toDoc_item (k : NodeKind) (t : k.Tree) : k.item.toDoc t = k.toDoc t := by
  cases k <;> rfl

theorem NodeKind.literals_item (k : NodeKind) (t : k.Tree) : k.item.literals t = k.literals t := by
  cases k <;> rfl

/-- A tree of any type that is read from a text is written one level deeper at most, and with all
its numbers. -/
theorem NodeKind.reencodes (k : NodeKind) {cs : List Char} {t : k.Tree}
    (h : k.item.decode cs = .ok t) :
    (k.toDoc t).depth ≤ (Json.scan cs).1.depth + 1 ∧ AllFinite (k.literals t) := by
  obtain ⟨d, ⟨rest, hscan, -⟩, hread⟩ := decode_eq_ok_iff.mp h
  have hreencodes := reencodes_of_read hread
  rw [hscan, ← k.toDoc_item, ← k.literals_item]
  exact ⟨hreencodes.depth_le, hreencodes.allFinite⟩

/-- A program that is read from a text is written one level deeper at most.  So if the text nests
at most 126 deep then both texts that are written are read again, as the same program. -/
theorem Program.decode_reencoded {text : String} {p : Program} (h : Program.decode text = .ok p) :
    p.toDoc.depth ≤ (Json.scan text.toList).1.depth + 1 ∧
      (NumbersReadBack (Stmt.allLiterals p.body) → (Json.scan text.toList).1.depth ≤ 126 →
        Program.decode p.compactText = .ok p ∧ Program.decode p.prettyText = .ok p) := by
  obtain ⟨hdepth, hfinite⟩ := NodeKind.reencodes .program h
  refine ⟨hdepth, fun hnumbers hlimit => ?_⟩
  obtain ⟨hread, -, hwritten⟩ := decode_print .program p hnumbers
  rw [hwritten hfinite] at hread
  exact hread (Nat.le_trans hdepth (Nat.succ_le_succ hlimit))

/-- A program that is a number. -/
def numberOnly (w : UInt64) : Program :=
  ⟨[.expression (.literal { value := .number w.toFloat }) {}]⟩

/-- A short document of the program: the statement and the literal are lists, and all that has a
fallback is left out. -/
def shortNumberOnly (w : UInt64) : Doc :=
  .ofMembers [("body", .ofList [.ofList [.ofString "ExpressionStatement",
    .ofList [.ofString "Literal", .ofNat w.toNat]]])]

theorem shortNumberOnly_whole (w : UInt64) : (shortNumberOnly w).Whole := by
  refine .ofMembers _ (List.forall_mem_singleton.mpr (.ofList _ (List.forall_mem_singleton.mpr
    (.ofList _ ?_))))
  rw [List.forall_mem_cons, List.forall_mem_singleton]
  refine ⟨.leaf (.ofString _) rfl, .ofList _ ?_⟩
  rw [List.forall_mem_cons, List.forall_mem_singleton]
  exact ⟨.leaf (.ofString _) rfl, (reads_word w).whole⟩

/-- A text with four levels is written with five, and read again. -/
theorem decode_shortNumberOnly :
    Program.decode (shortNumberOnly 1).compactText = .ok (numberOnly 1) ∧
      NumbersReadBack (Stmt.allLiterals (numberOnly 1).body) ∧
      (Json.scan (shortNumberOnly 1).compactText.toList).1.depth = 4 ∧
      (numberOnly 1).toDoc.depth = 5 ∧
      Program.decode (numberOnly 1).prettyText = .ok (numberOnly 1) := by
  have htext := Json.Doc.hasText_compact (shortNumberOnly_whole 1)
  have haccepts : Accepts .streaming (.plain (.record .program)) (shortNumberOnly 1)
      (numberOnly 1) := ⟨4, rfl⟩
  have hdecode : Program.decode (shortNumberOnly 1).compactText = .ok (numberOnly 1) := by
    rw [Program.decode, Json.Doc.compactText, String.toList_ofList]
    exact decode_eq_ok_iff.mpr ⟨_, htext, haccepts.read (by decide)⟩
  have hdepth : (Json.scan (shortNumberOnly 1).compactText.toList).1.depth = 4 := by
    obtain ⟨rest, hscan, -⟩ := htext
    rw [Json.Doc.compactText, String.toList_ofList, hscan]
    rfl
  have hnumeral : NumberStyle.document.numeral? (UInt64.toFloat 1) =
      some ⟨false, [1], [0], none⟩ := by decide +kernel
  have hnumbers : NumbersReadBack (Stmt.allLiterals (numberOnly 1).body) := by
    intro x hx _
    obtain rfl : x = UInt64.toFloat 1 := by
      simpa [numberOnly, Stmt.allLiterals, Stmt.literals, Expr.literals] using hx
    exact (readsBack_iff hnumeral).mpr ⟨rfl, by decide +kernel⟩
  obtain ⟨-, hagain⟩ := Program.decode_reencoded hdecode
  exact ⟨hdecode, hnumbers, hdepth, rfl, (hagain hnumbers (by rw [hdepth]; decide)).2⟩

end Treewalk
