import Treewalk.Json.Print
import Treewalk.Proofs.Numerals

/-!
# Printed documents are scanned as they are

A document may be spelled in many ways, since spaces may stand between its parts.  `Spells` says
which texts spell a document in front of what else; the scanner gives the document back for all of
them, and both printers write one of them.

Only documents that can be written come back: lists and objects have to be closed, keys and strings
need a value, and numerals have to be proper ones.

## Main definitions

* `Doc.Leaf`, `Doc.Whole` — documents that can be written.
* `Piece`, `Spells` — texts of documents and of their parts.
* `scan_of_spells`, `spells_compact`, `spells_pretty` — the scanner and the printers.
-/

namespace Treewalk.Json

open Numeral (Starts Stops chars_eq_cons)

variable {cs cs' rest : List Char}

/-! ## Strings -/

theorem hexValue?_hexDigit {n : Nat} (h : n < 16) : hexValue? (hexDigit n) = some n := by
  have hall : ∀ n < 16, hexValue? (hexDigit n) = some n := by decide
  exact hall n h

/-- A character that stands for itself in a string. -/
theorem scanString?_plain {c : Char} (hquote : c ≠ '"') (hslash : c ≠ '\\')
    (hlow : ¬ c.toNat < 0x20) (cs : List Char) :
    scanString? none (c :: cs) = .cons c (scanString? none cs) := by
  rw [scanString?.eq_def]
  simp only [if_neg hquote, if_neg hlow, if_neg hslash, StringTail.settle]

/-- A character that is written by a letter. -/
theorem scanString?_letter {c e : Char} (h : escaped? e = some c) (cs : List Char) :
    scanString? none ('\\' :: e :: cs) = .cons c (scanString? none cs) := by
  have hhex : e ≠ 'u' := by
    rintro rfl
    cases h
  rw [scanString?.eq_def]
  simp [hhex, h, StringTail.settle]

/-- A character that is written by its number. -/
theorem scanString?_number {c : Char} (hlow : c.toNat < 0x20) (cs : List Char) :
    scanString? none ('\\' :: 'u' :: '0' :: '0' :: hexDigit (c.toNat / 16) ::
      hexDigit (c.toNat % 16) :: cs) = .cons c (scanString? none cs) := by
  have hvalue : hexValue4? '0' '0' (hexDigit (c.toNat / 16)) (hexDigit (c.toNat % 16)) =
      some c.toNat := by
    have hzero : hexValue? '0' = some 0 := rfl
    have hsum : c.toNat / 16 * 16 + c.toNat % 16 = c.toNat := by omega
    simp [hexValue4?, hzero, hexValue?_hexDigit (by omega : c.toNat / 16 < 16),
      hexValue?_hexDigit (by omega : c.toNat % 16 < 16), hsum]
  have hrange : c.toNat < 0xD800 ∨ 0xDFFF < c.toNat := .inl (by omega)
  rw [scanString?.eq_def]
  simp [hvalue, hrange]

theorem scanString?_escape (c : Char) (cs : List Char) :
    scanString? none (escape c ++ cs) = .cons c (scanString? none cs) := by
  simp only [escape]
  split
  · exact scanString?_letter rfl cs
  · exact scanString?_letter rfl cs
  · exact scanString?_letter rfl cs
  · exact scanString?_letter rfl cs
  · exact scanString?_letter rfl cs
  · exact scanString?_letter rfl cs
  · exact scanString?_letter rfl cs
  · next hquote hslash _ _ _ _ _ =>
    split
    · next hlow => exact scanString?_number hlow cs
    · next hlow => exact scanString?_plain hquote hslash hlow cs

theorem scanString?_escaped (cs rest : List Char) :
    scanString? none (escaped cs rest) = some (some cs, rest) := by
  induction cs with
  | nil =>
    rw [escaped, scanString?.eq_def]
    rfl
  | cons c cs ih =>
    rw [escaped, scanString?_escape, ih]
    rfl

theorem scanText?_quoted (s : String) (rest : List Char) :
    scanText? (quoted s rest) = some (some s, rest) := by
  simp [scanText?, quoted, scanString?_escaped]

theorem length_quoted (s : String) (rest : List Char) : rest.length < (quoted s rest).length := by
  have hescaped : ∀ cs, rest.length ≤ (escaped cs rest).length := by
    intro cs
    induction cs with
    | nil => exact Nat.le_succ _
    | cons c cs ih =>
      rw [escaped, List.length_append]
      omega
  exact Nat.lt_succ_of_le (hescaped _)

/-! ## Documents that can be written -/

namespace Doc

/-- The members of a closed object. -/
def keyed (ms : List (String × Doc)) : List (Option String × Doc) :=
  ms.map fun (k, d) => (some k, d)

@[simp] theorem keyed_nil : keyed [] = [] := rfl

@[simp] theorem keyed_cons (m : String × Doc) (ms : List (String × Doc)) :
    keyed (m :: ms) = (some m.1, m.2) :: keyed ms := rfl

theorem ofMembers_eq (ms : List (String × Doc)) : ofMembers ms = .object (keyed ms) .closed := rfl

/-- Documents without parts. -/
inductive Leaf : Doc → Prop where
  | null : Leaf .null
  | boolean (b : Bool) : Leaf (.boolean b)
  | number (n : Numeral) (digits : n.Decimal) (whole : Digits.isWhole n.whole = true) :
    Leaf (.number n)
  | ofString (s : String) : Leaf (.ofString s)

/-- Documents of which nothing is lost when they are written.  Their numbers are in range. -/
inductive Whole : Doc → Prop where
  | leaf {d : Doc} (h : d.Leaf) (inRange : d.found?.isSome = true) : Whole d
  | ofList (ds : List Doc) (h : ∀ d ∈ ds, Whole d) : Whole (.ofList ds)
  | ofMembers (ms : List (String × Doc)) (h : ∀ m ∈ ms, Whole m.2) : Whole (.ofMembers ms)

variable {d : Doc}

theorem Leaf.compact_eq (h : d.Leaf) (rest : List Char) : d.compact rest = d.scalarChars rest := by
  cases h <;> rfl

theorem Leaf.pretty_eq (h : d.Leaf) (level : Nat) (rest : List Char) :
    d.pretty level rest = d.scalarChars rest := by
  cases h <;> rfl

/-- The first character of a leaf tells that it is no list, no object and no space. -/
theorem Leaf.head (h : d.Leaf) (rest : List Char) :
    ∃ c cs, d.scalarChars rest = c :: cs ∧ isSpace c = false ∧ c ∉ ['[', '{', ']'] := by
  cases h with
  | null => exact ⟨'n', _, rfl, by decide⟩
  | boolean b =>
    cases b with
    | true => exact ⟨'t', _, rfl, by decide⟩
    | false => exact ⟨'f', _, rfl, by decide⟩
  | number n digits whole =>
    obtain ⟨c, cs, hcs, hc⟩ := chars_eq_cons digits whole
    refine ⟨c, cs ++ rest, by rw [scalarChars, hcs, List.cons_append], hc.not_space, ?_⟩
    simp [hc.ne (by decide : ¬ Starts '['), hc.ne (by decide : ¬ Starts '{'),
      hc.ne (by decide : ¬ Starts ']')]
  | ofString s => exact ⟨'"', _, rfl, by decide⟩

theorem Leaf.scanScalar?_eq (h : d.Leaf) (hrest : Stops rest) :
    scanScalar? (d.scalarChars rest) = some (d, rest) := by
  cases h with
  | null => rfl
  | boolean b => cases b <;> rfl
  | number n digits whole =>
    obtain ⟨c, cs, hcs, hc⟩ := chars_eq_cons digits whole
    have hstarts : ∀ e ∈ (n.chars true ++ rest).head?, Starts e := by
      intro e he
      rw [hcs] at he
      exact Option.some.inj he ▸ hc
    rw [scalarChars, scanScalar?_of_starts hstarts, scanNumeral?_chars digits hrest, if_pos whole]
    rfl
  | ofString s => exact congrArg (Option.map _) (scanText?_quoted s rest)

theorem Leaf.length_le (h : d.Leaf) (rest : List Char) :
    rest.length ≤ (d.scalarChars rest).length := by
  cases h with
  | null => exact Nat.le_add_right rest.length 4
  | boolean b =>
    cases b with
    | true => exact Nat.le_add_right rest.length 4
    | false => exact Nat.le_add_right rest.length 5
  | number n => simp [scalarChars]
  | ofString s => exact Nat.le_of_lt (length_quoted s rest)

end Doc

/-! ## Spaces -/

theorem skipBlank_cons {c : Char} (h : isSpace c = false) (cs : List Char) :
    skipBlank (c :: cs) = c :: cs := by
  simp [skipBlank, h]

theorem skipBlank_skipBlank (cs : List Char) : skipBlank (skipBlank cs) = skipBlank cs := by
  induction cs with
  | nil => rfl
  | cons c cs ih =>
    cases h : isSpace c with
    | true => simpa [skipBlank, h] using ih
    | false => rw [skipBlank_cons h, skipBlank_cons h]

theorem length_skipBlank_le (cs : List Char) : (skipBlank cs).length ≤ cs.length :=
  (List.dropWhile_sublist isSpace).length_le

theorem length_lt_of_head {c : Char} (h : skipBlank cs = c :: cs') : cs'.length < cs.length := by
  have hblank := length_skipBlank_le cs
  rw [h, List.length_cons] at hblank
  omega

theorem length_lt_of_key {key : String} (h : skipBlank cs = quoted key cs') :
    cs'.length < cs.length := by
  have hblank := length_skipBlank_le cs
  have hkey := length_quoted key cs'
  rw [h] at hblank
  omega

theorem skipBlank_newline (level : Nat) (rest : List Char) :
    skipBlank (Doc.newline level rest) = skipBlank rest := by
  have hspaces : ∀ c ∈ '\n' :: List.replicate (2 * level) ' ', isSpace c = true := by
    intro c hc
    rcases List.mem_cons.mp hc with rfl | hc
    · rfl
    · rw [List.eq_of_mem_replicate hc]
      rfl
  have happend : Doc.newline level rest = ('\n' :: List.replicate (2 * level) ' ') ++ rest := rfl
  rw [happend, skipBlank, List.dropWhile_append_of_pos hspaces]
  rfl

theorem Doc.Leaf.skipBlank_eq {d : Doc} (h : d.Leaf) (rest : List Char) :
    skipBlank (d.scalarChars rest) = d.scalarChars rest := by
  obtain ⟨c, cs, hcs, hspace, -⟩ := h.head rest
  rw [hcs, skipBlank_cons hspace]

/-! ## Spelling -/

/-- What is scanned in one go: a document, or the items or members from one of them on. -/
inductive Piece where
  | value (d : Doc)
  | items (ds : List Doc)
  | members (ms : List (String × Doc))

/-- A text spells a piece in front of a rest.  Items and members are spelled with the bracket that
closes them. -/
inductive Spells : Piece → List Char → List Char → Prop where
  | leaf {d : Doc} {cs rest : List Char} : d.Leaf → Stops rest →
    skipBlank cs = d.scalarChars rest → Spells (.value d) cs rest
  | emptyList {cs cs' rest : List Char} : skipBlank cs = '[' :: cs' →
    skipBlank cs' = ']' :: rest → Spells (.value (.ofList [])) cs rest
  | list {ds : List Doc} {cs cs' rest : List Char} : skipBlank cs = '[' :: cs' →
    Spells (.items ds) cs' rest → Spells (.value (.ofList ds)) cs rest
  | emptyObject {cs cs' rest : List Char} : skipBlank cs = '{' :: cs' →
    skipBlank cs' = '}' :: rest → Spells (.value (.ofMembers [])) cs rest
  | object {ms : List (String × Doc)} {cs cs' rest : List Char} : skipBlank cs = '{' :: cs' →
    Spells (.members ms) cs' rest → Spells (.value (.ofMembers ms)) cs rest
  | lastItem {d : Doc} {cs cs' rest : List Char} : Spells (.value d) cs cs' →
    skipBlank cs' = ']' :: rest → Spells (.items [d]) cs rest
  | nextItem {d : Doc} {ds : List Doc} {cs cs₁ cs₂ rest : List Char} : Spells (.value d) cs cs₁ →
    skipBlank cs₁ = ',' :: cs₂ → Spells (.items ds) cs₂ rest → Spells (.items (d :: ds)) cs rest
  | lastMember {key : String} {d : Doc} {cs cs₁ cs₂ cs₃ rest : List Char} :
    skipBlank cs = quoted key cs₁ → skipBlank cs₁ = ':' :: cs₂ → Spells (.value d) cs₂ cs₃ →
    skipBlank cs₃ = '}' :: rest → Spells (.members [(key, d)]) cs rest
  | nextMember {key : String} {d : Doc} {ms : List (String × Doc)}
    {cs cs₁ cs₂ cs₃ cs₄ rest : List Char} :
    skipBlank cs = quoted key cs₁ → skipBlank cs₁ = ':' :: cs₂ → Spells (.value d) cs₂ cs₃ →
    skipBlank cs₃ = ',' :: cs₄ → Spells (.members ms) cs₄ rest →
    Spells (.members ((key, d) :: ms)) cs rest

namespace Spells

variable {p : Piece}

/-- Spaces in front of a piece do not matter. -/
theorem of_skipBlank (h : Spells p cs rest) (heq : skipBlank cs' = skipBlank cs) :
    Spells p cs' rest := by
  induction h with
  | leaf hd hrest hcs => exact .leaf hd hrest (heq.trans hcs)
  | emptyList hcs hrest => exact .emptyList (heq.trans hcs) hrest
  | list hcs hds _ => exact .list (heq.trans hcs) hds
  | emptyObject hcs hrest => exact .emptyObject (heq.trans hcs) hrest
  | object hcs hms _ => exact .object (heq.trans hcs) hms
  | lastItem _ hrest ih => exact .lastItem (ih heq) hrest
  | nextItem _ hcomma hds ih _ => exact .nextItem (ih heq) hcomma hds
  | lastMember hkey hcolon hd hrest _ => exact .lastMember (heq.trans hkey) hcolon hd hrest
  | nextMember hkey hcolon hd hcomma hms _ _ =>
    exact .nextMember (heq.trans hkey) hcolon hd hcomma hms

/-- The rest of a text is shorter than the text by what was spelled. -/
theorem length_le (h : Spells p cs rest) : rest.length ≤ cs.length := by
  induction h with
  | leaf hd _ hcs => exact Nat.le_trans (hd.length_le _) (hcs ▸ length_skipBlank_le _)
  | emptyList hcs hrest | emptyObject hcs hrest =>
    have := length_lt_of_head hcs
    have := length_lt_of_head hrest
    omega
  | list hcs _ ih | object hcs _ ih =>
    have := length_lt_of_head hcs
    omega
  | lastItem _ hrest ih =>
    have := length_lt_of_head hrest
    omega
  | nextItem _ hcomma _ ih ih' =>
    have := length_lt_of_head hcomma
    omega
  | lastMember hkey hcolon _ hrest ih =>
    have := length_lt_of_key hkey
    have := length_lt_of_head hcolon
    have := length_lt_of_head hrest
    omega
  | nextMember hkey hcolon _ hcomma _ ih ih' =>
    have := length_lt_of_key hkey
    have := length_lt_of_head hcolon
    have := length_lt_of_head hcomma
    omega

/-- A document does not begin with the bracket that closes a list. -/
theorem value_head {d : Doc} (h : Spells (.value d) cs rest) (cs' : List Char) :
    skipBlank cs ≠ ']' :: cs' := by
  intro heq
  cases h with
  | leaf hd _ hcs =>
    obtain ⟨c, _, hhead, -, hc⟩ := hd.head rest
    rw [hcs, hhead] at heq
    simp [(List.cons.inj heq).1] at hc
  | emptyList hcs | list hcs | emptyObject hcs | object hcs =>
    rw [hcs] at heq
    simp at heq

theorem items_head {ds : List Doc} (h : Spells (.items ds) cs rest) (cs' : List Char) :
    skipBlank cs ≠ ']' :: cs' := by
  cases h with
  | lastItem hd => exact hd.value_head cs'
  | nextItem hd => exact hd.value_head cs'

theorem members_head {ms : List (String × Doc)} (h : Spells (.members ms) cs rest)
    (cs' : List Char) : skipBlank cs ≠ '}' :: cs' := by
  intro heq
  cases h with
  | lastMember hkey | nextMember hkey =>
    rw [hkey, quoted] at heq
    simp at heq

end Spells

/-! ## The scanner -/

theorem scanValue_skipBlank (bound : Nat) (cs : List Char) :
    scanValue bound (skipBlank cs) = scanValue bound cs := by
  cases bound with
  | zero => simp only [scanValue]
  | succ bound => simp only [scanValue, skipBlank_skipBlank]

theorem scanItems_skipBlank (bound : Nat) (cs : List Char) :
    scanItems bound (skipBlank cs) = scanItems bound cs := by
  cases bound with
  | zero => simp only [scanItems]
  | succ bound => simp only [scanItems, scanValue_skipBlank]

theorem scanMembers_skipBlank (bound : Nat) (cs : List Char) :
    scanMembers bound (skipBlank cs) = scanMembers bound cs := by
  cases bound with
  | zero => simp only [scanMembers]
  | succ bound => simp only [scanMembers, skipBlank_skipBlank]

theorem scanValue_leaf {d : Doc} (h : d.Leaf) (hrest : Stops rest)
    (hcs : skipBlank cs = d.scalarChars rest) (bound : Nat) :
    scanValue (bound + 1) cs = (d, some rest) := by
  obtain ⟨c, _, hhead, -, hc⟩ := h.head rest
  rw [scanValue, hcs]
  split
  · next heq =>
    rw [hhead] at heq
    simp [(List.cons.inj heq).1] at hc
  · next heq =>
    rw [hhead] at heq
    simp [(List.cons.inj heq).1] at hc
  · rw [h.scanScalar?_eq hrest]

theorem scanValue_list {ds : List Doc} (hcs : skipBlank cs = '[' :: cs')
    (hhead : ∀ cs, skipBlank cs' ≠ ']' :: cs) {bound : Nat}
    (hds : scanItems bound cs' = (ds, .closed, some rest)) :
    scanValue (bound + 1) cs = (.ofList ds, some rest) := by
  simp only [scanValue, hcs, scanItems_skipBlank, hds]
  rfl

theorem scanValue_object {ms : List (String × Doc)} (hcs : skipBlank cs = '{' :: cs')
    (hhead : ∀ cs, skipBlank cs' ≠ '}' :: cs) {bound : Nat}
    (hms : scanMembers bound cs' = (Doc.keyed ms, .closed, some rest)) :
    scanValue (bound + 1) cs = (.ofMembers ms, some rest) := by
  simp only [scanValue, hcs, scanMembers_skipBlank, hms]
  rfl

namespace Piece

/-- What the scanner gives for a piece. -/
def Scans (bound : Nat) : Piece → List Char → List Char → Prop
  | .value d, cs, rest => scanValue bound cs = (d, some rest)
  | .items ds, cs, rest => scanItems bound cs = (ds, .closed, some rest)
  | .members ms, cs, rest =>
    scanMembers bound cs = (Doc.keyed ms, .closed, some rest)

/-- How many nested steps are enough for a piece in a text of some length. -/
def need : Piece → Nat → Nat
  | .value _, length => 2 * length
  | .items _, length | .members _, length => 2 * length + 1

end Piece

theorem scanMembers_last {key : String} {d : Doc} {cs₁ cs₂ cs₃ : List Char}
    (hkey : skipBlank cs = quoted key cs₁) (hcolon : skipBlank cs₁ = ':' :: cs₂) {bound : Nat}
    (hd : scanValue bound cs₂ = (d, some cs₃)) (hrest : skipBlank cs₃ = '}' :: rest) :
    scanMembers (bound + 1) cs = ([(some key, d)], .closed, some rest) := by
  have htext := scanText?_quoted key cs₁
  rw [quoted] at hkey htext
  simp only [scanMembers, hkey, htext, hcolon, hd, hrest]

theorem scanMembers_next {key : String} {d : Doc} {ms : List (Option String × Doc)}
    {cs₁ cs₂ cs₃ cs₄ : List Char} (hkey : skipBlank cs = quoted key cs₁)
    (hcolon : skipBlank cs₁ = ':' :: cs₂) {bound : Nat}
    (hd : scanValue bound cs₂ = (d, some cs₃)) (hcomma : skipBlank cs₃ = ',' :: cs₄)
    (hms : scanMembers bound cs₄ = (ms, .closed, some rest)) :
    scanMembers (bound + 1) cs = ((some key, d) :: ms, .closed, some rest) := by
  have htext := scanText?_quoted key cs₁
  rw [quoted] at hkey htext
  simp only [scanMembers, hkey, htext, hcolon, hd, hcomma, hms]

/-- Whatever spells a piece is scanned as that piece, if the bound allows for the whole text: every
nested step but one of two takes a character. -/
theorem Spells.scans {p : Piece} (h : Spells p cs rest) (bound : Nat)
    (hbound : p.need cs.length ≤ bound) : p.Scans bound cs rest := by
  induction h generalizing bound with
  | leaf hd hrest hcs =>
    obtain ⟨c, _, hhead, -⟩ := hd.head _
    have hlt := length_lt_of_head (hcs.trans hhead)
    simp only [Piece.need] at hbound
    obtain ⟨bound, rfl⟩ : ∃ b, bound = b + 1 := ⟨bound - 1, by omega⟩
    exact scanValue_leaf hd hrest hcs bound
  | emptyList hcs hrest | emptyObject hcs hrest =>
    have hlt := length_lt_of_head hcs
    simp only [Piece.need] at hbound
    obtain ⟨bound, rfl⟩ : ∃ b, bound = b + 1 := ⟨bound - 1, by omega⟩
    simp only [Piece.Scans, scanValue, hcs, hrest]
    rfl
  | list hcs hds ih =>
    have hlt := length_lt_of_head hcs
    simp only [Piece.need] at hbound ih
    obtain ⟨bound, rfl⟩ : ∃ b, bound = b + 1 := ⟨bound - 1, by omega⟩
    exact scanValue_list hcs hds.items_head (ih bound (by omega))
  | object hcs hms ih =>
    have hlt := length_lt_of_head hcs
    simp only [Piece.need] at hbound ih
    obtain ⟨bound, rfl⟩ : ∃ b, bound = b + 1 := ⟨bound - 1, by omega⟩
    exact scanValue_object hcs hms.members_head (ih bound (by omega))
  | lastItem hd hrest ih =>
    simp only [Piece.need] at hbound ih
    obtain ⟨bound, rfl⟩ : ∃ b, bound = b + 1 := ⟨bound - 1, by omega⟩
    have hvalue := ih bound (by omega)
    simp only [Piece.Scans] at hvalue
    simp only [Piece.Scans, scanItems, hvalue, hrest]
  | nextItem hd hcomma hds ih ih' =>
    have hle := hd.length_le
    have hlt := length_lt_of_head hcomma
    simp only [Piece.need] at hbound ih ih'
    obtain ⟨bound, rfl⟩ : ∃ b, bound = b + 1 := ⟨bound - 1, by omega⟩
    have hvalue := ih bound (by omega)
    have hitems := ih' bound (by omega)
    simp only [Piece.Scans] at hvalue hitems
    simp only [Piece.Scans, scanItems, hvalue, hcomma, hitems]
  | lastMember hkey hcolon hd hrest ih =>
    have hlt := length_lt_of_key hkey
    have hlt' := length_lt_of_head hcolon
    simp only [Piece.need] at hbound ih
    obtain ⟨bound, rfl⟩ : ∃ b, bound = b + 1 := ⟨bound - 1, by omega⟩
    exact scanMembers_last hkey hcolon (ih bound (by omega)) hrest
  | nextMember hkey hcolon hd hcomma hms ih ih' =>
    have hlt := length_lt_of_key hkey
    have hlt' := length_lt_of_head hcolon
    have hle := hd.length_le
    have hlt'' := length_lt_of_head hcomma
    simp only [Piece.need] at hbound ih ih'
    obtain ⟨bound, rfl⟩ : ∃ b, bound = b + 1 := ⟨bound - 1, by omega⟩
    exact scanMembers_next hkey hcolon (ih bound (by omega)) hcomma (ih' bound (by omega))

theorem scan_of_spells {d : Doc} (h : Spells (.value d) cs rest) : scan cs = (d, some rest) :=
  h.scans _ (Nat.le_add_right _ 2)

/-! ## The printers -/

theorem stops_cons {c : Char} (h : Number.isDigit c = false ∧ c ∉ ['-', '.', 'e', 'E'])
    (cs : List Char) : Stops (c :: cs) := fun _ he => Option.some.inj he ▸ h

theorem skipBlank_quoted (key : String) (rest : List Char) :
    skipBlank (quoted key rest) = quoted key rest := skipBlank_cons rfl _

theorem spells_compactItems {ds : List Doc}
    (h : ∀ d ∈ ds, ∀ rest, Stops rest → Spells (.value d) (d.compact rest) rest) (hne : ds ≠ [])
    (rest : List Char) : Spells (.items ds) (Doc.compactItems ds (']' :: rest)) rest := by
  induction ds with
  | nil => exact absurd rfl hne
  | cons d ds ih =>
    have hd := h d (by simp)
    cases ds with
    | nil => exact .lastItem (hd _ (stops_cons (by decide) _)) (skipBlank_cons rfl _)
    | cons d' ds =>
      have hds := ih (fun e he => h e (List.mem_cons_of_mem _ he)) (by simp)
      exact .nextItem (hd _ (stops_cons (by decide) _)) (skipBlank_cons rfl _) hds

theorem spells_compactMembers {ms : List (String × Doc)}
    (h : ∀ m ∈ ms, ∀ rest, Stops rest → Spells (.value m.2) (m.2.compact rest) rest)
    (hne : ms ≠ []) (rest : List Char) :
    Spells (.members ms)
      (Doc.compactMembers (Doc.keyed ms) ('}' :: rest)) rest := by
  induction ms with
  | nil => exact absurd rfl hne
  | cons m ms ih =>
    have hd := h m (by simp)
    cases ms with
    | nil =>
      exact .lastMember (skipBlank_quoted m.1 _) (skipBlank_cons rfl _)
        (hd _ (stops_cons (by decide) _)) (skipBlank_cons rfl _)
    | cons m' ms =>
      have hms := ih (fun e he => h e (List.mem_cons_of_mem _ he)) (by simp)
      exact .nextMember (skipBlank_quoted m.1 _) (skipBlank_cons rfl _)
        (hd _ (stops_cons (by decide) _)) (skipBlank_cons rfl _) hms

/-- The compact text of a document spells it. -/
theorem spells_compact {d : Doc} (h : d.Whole) (hrest : Stops rest) :
    Spells (.value d) (d.compact rest) rest := by
  induction h generalizing rest with
  | leaf hd _ =>
    rw [hd.compact_eq]
    exact .leaf hd hrest (hd.skipBlank_eq rest)
  | ofList ds _ ih =>
    by_cases hne : ds = []
    · subst hne
      exact .emptyList (skipBlank_cons rfl _) (skipBlank_cons rfl _)
    · exact .list (skipBlank_cons rfl _)
        (spells_compactItems (fun d hd _ hrest => ih d hd hrest) hne rest)
  | ofMembers ms _ ih =>
    by_cases hne : ms = []
    · subst hne
      exact .emptyObject (skipBlank_cons rfl _) (skipBlank_cons rfl _)
    · exact .object (skipBlank_cons rfl _)
        (spells_compactMembers (fun m hm _ hrest => ih m hm hrest) hne rest)

theorem spells_prettyItems (outer : Nat) {level : Nat} {d : Doc} {ds : List Doc}
    (h : ∀ e ∈ d :: ds, ∀ rest, Stops rest → Spells (.value e) (e.pretty level rest) rest)
    (rest : List Char) :
    Spells (.items (d :: ds)) (d.pretty level (Doc.prettyItems level ds
      (Doc.newline outer (']' :: rest)))) rest := by
  induction ds generalizing d with
  | nil =>
    exact .lastItem (h d (by simp) _ (stops_cons (by decide) _))
      ((skipBlank_newline outer _).trans (skipBlank_cons rfl _))
  | cons d' ds ih =>
    have hds := ih fun e he => h e (List.mem_cons_of_mem _ he)
    exact .nextItem (h d (by simp) _ (stops_cons (by decide) _)) (skipBlank_cons rfl _)
      (hds.of_skipBlank (skipBlank_newline level _))

theorem spells_prettyMembers (outer : Nat) {level : Nat} {m : String × Doc}
    {ms : List (String × Doc)}
    (h : ∀ e ∈ m :: ms, ∀ rest, Stops rest → Spells (.value e.2) (e.2.pretty level rest) rest)
    (rest : List Char) :
    Spells (.members (m :: ms)) (quoted m.1 (':' :: ' ' :: m.2.pretty level
      (Doc.prettyMembers level (Doc.keyed ms)
        (Doc.newline outer ('}' :: rest))))) rest := by
  have hspace : ∀ cs, skipBlank (' ' :: cs) = skipBlank cs := fun _ => rfl
  induction ms generalizing m with
  | nil =>
    exact .lastMember (skipBlank_quoted m.1 _) (skipBlank_cons rfl _)
      ((h m (by simp) _ (stops_cons (by decide) _)).of_skipBlank (hspace _))
      ((skipBlank_newline outer _).trans (skipBlank_cons rfl _))
  | cons m' ms ih =>
    have hms := ih fun e he => h e (List.mem_cons_of_mem _ he)
    exact .nextMember (skipBlank_quoted m.1 _) (skipBlank_cons rfl _)
      ((h m (by simp) _ (stops_cons (by decide) _)).of_skipBlank (hspace _))
      (skipBlank_cons rfl _) (hms.of_skipBlank (skipBlank_newline level _))

/-- The text of a document with one item or member a line spells it. -/
theorem spells_pretty {d : Doc} (h : d.Whole) (level : Nat) (hrest : Stops rest) :
    Spells (.value d) (d.pretty level rest) rest := by
  induction h generalizing level rest with
  | leaf hd _ =>
    rw [hd.pretty_eq]
    exact .leaf hd hrest (hd.skipBlank_eq rest)
  | ofList ds _ ih =>
    cases ds with
    | nil => exact .emptyList (skipBlank_cons rfl _) (skipBlank_cons rfl _)
    | cons d ds =>
      have hds := spells_prettyItems level
        (fun e he _ hrest => ih e he (level + 1) hrest) rest
      exact .list (skipBlank_cons rfl _) (hds.of_skipBlank (skipBlank_newline _ _))
  | ofMembers ms _ ih =>
    cases ms with
    | nil => exact .emptyObject (skipBlank_cons rfl _) (skipBlank_cons rfl _)
    | cons m ms =>
      have hms := spells_prettyMembers level
        (fun e he _ hrest => ih e he (level + 1) hrest) rest
      exact .object (skipBlank_cons rfl _) (hms.of_skipBlank (skipBlank_newline _ _))

end Treewalk.Json
