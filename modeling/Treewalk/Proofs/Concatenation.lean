import Treewalk.Proofs.Equivalence
import Treewalk.Proofs.Splicing

/-!
# Sums of strings, arrays and objects

A plus sign joins the texts of its operands if one of them is a string, an array or an object.  What
it yields is a string, so that it is joined with whatever is added to it.  As long as all operands
of a sum are of these kinds, it does not matter how the sum is bracketed: its operands are evaluated
from left to right, and their texts follow one another.

## Main definitions

* `Value.Joined` — strings, arrays and objects.
* `Expr.Sums` — a sum of these operands, bracketed in some way.
* `Expr.Shows` — an expression comes to a string, an array or an object with a text.
* `Concatenates` — the texts of operands, one after the other.

## Main results

* `Expr.Sums.endsIn_plus` — a sum comes to the texts of its operands, however it is bracketed.
* `array_texts_concatenate` — texts of arrays, and sums with arrays in them.
-/

namespace Treewalk

/-- A string, an array or an object. -/
inductive Value.Joined : Value → Prop where
  | text (s : String) : Joined (.text s)
  | array (items : List Value) : Joined (.array items)
  | object (entries : List (String × Value)) : Joined (.object entries)

/-! ## Addition of two values -/

namespace Operator

variable {u v w : Value}

theorem joins_iff : joins v = true ↔ v.Joined := by
  cases v with
  | text s => exact iff_of_true rfl (.text s)
  | array items => exact iff_of_true rfl (.array items)
  | object entries => exact iff_of_true rfl (.object entries)
  | absent | null | bool _ | number _ => exact iff_of_false nofun nofun

theorem add_of_joined (h : v.Joined ∨ w.Joined) :
    add.apply v w = .text (v.display ++ w.display) := by
  rw [← joins_iff, ← joins_iff, ← Bool.or_eq_true] at h
  exact if_pos ⟨rfl, h⟩

/-- If one of any two neighbours is joined, the texts of all three follow one another. -/
theorem add_add_of_joined (huv : u.Joined ∨ v.Joined) (hvw : v.Joined ∨ w.Joined) :
    add.apply (add.apply u v) w = .text (u.display ++ v.display ++ w.display) ∧
      add.apply u (add.apply v w) = .text (u.display ++ v.display ++ w.display) := by
  constructor
  · rw [add_of_joined huv, add_of_joined (.inl (.text _)), Value.display]
  · rw [add_of_joined hvw, add_of_joined (.inr (.text _)), Value.display, String.append_assoc]

end Operator

/-! ## Sums of expressions -/

/-- An expression adds up these operands in this order, bracketed in some way. -/
inductive Expr.Sums : Expr → List Expr → Prop where
  | operand (e : Expr) : Sums e [e]
  | plus {left right : Expr} {ls rs : List Expr} (location : Location) : left.Sums ls →
    right.Sums rs → Sums (.binary left "+" right location) (ls ++ rs)

/-- From a machine, an expression comes to a string, an array or an object with this text, and the
machine after that. -/
def Expr.Shows (e : Expr) (m : Machine) (t : String) (m' : Machine) : Prop :=
  ∃ v : Value, e.EndsIn m (.ok v, m') ∧ v.Joined ∧ v.display = t

/-- From a machine, expressions come to strings, arrays or objects one after the other, with these
texts in a row; or one of them stops. -/
inductive Concatenates : List Expr → Machine → Except Stop String × Machine → Prop where
  | nil (m : Machine) : Concatenates [] m (.ok "", m)
  | cons {e : Expr} {es : List Expr} {m m₁ m' : Machine} {t t' : String} :
    e.Shows m t m₁ → Concatenates es m₁ (.ok t', m') → Concatenates (e :: es) m (.ok (t ++ t'), m')
  | stop {e : Expr} {es : List Expr} {m m' : Machine} {s : Stop} :
    e.EndsIn m (.error s, m') → Concatenates (e :: es) m (.error s, m')
  | later {e : Expr} {es : List Expr} {m m₁ m' : Machine} {t : String} {s : Stop} :
    e.Shows m t m₁ → Concatenates es m₁ (.error s, m') → Concatenates (e :: es) m (.error s, m')

section Sums

variable {left right : Expr} {m m₁ m' : Machine} {v w : Value} {s : Stop}

/-- The operands of a sum are evaluated from left to right. -/
theorem endsIn_add (hleft : left.EndsIn m (.ok v, m₁)) (hright : right.EndsIn m₁ (.ok w, m'))
    (location : Location) :
    (Expr.binary left "+" right location).EndsIn m (.ok (Operator.add.apply v w), m') :=
  yields_succ_iff.mp (hleft.bind_ok (hright.bind_ok ((yields_pure_iff _).mpr rfl)))

/-- Two texts are joined to one. -/
theorem endsIn_add_of_shows {t₁ t₂ : String} (hleft : left.Shows m t₁ m₁)
    (hright : right.Shows m₁ t₂ m') (location : Location) :
    (Expr.binary left "+" right location).EndsIn m (.ok (.text (t₁ ++ t₂)), m') := by
  obtain ⟨v, hv, hjoined, rfl⟩ := hleft
  obtain ⟨w, hw, -, rfl⟩ := hright
  rw [← Operator.add_of_joined (.inl hjoined)]
  exact endsIn_add hv hw location

theorem endsIn_add_of_left_stops (hleft : left.EndsIn m (.error s, m')) (location : Location) :
    (Expr.binary left "+" right location).EndsIn m (.error s, m') :=
  yields_succ_iff.mp hleft.bind_error

theorem endsIn_add_of_right_stops (hleft : left.EndsIn m (.ok v, m₁))
    (hright : right.EndsIn m₁ (.error s, m')) (location : Location) :
    (Expr.binary left "+" right location).EndsIn m (.error s, m') :=
  yields_succ_iff.mp (hleft.bind_ok hright.bind_error)

namespace Concatenates

variable {ls rs : List Expr} {t : String}

theorem append_ok (h : Concatenates (ls ++ rs) m (.ok t, m')) :
    ∃ m₁ t₁ t₂, Concatenates ls m (.ok t₁, m₁) ∧ Concatenates rs m₁ (.ok t₂, m') ∧
      t = t₁ ++ t₂ := by
  induction ls generalizing m t with
  | nil => exact ⟨m, "", t, .nil m, h, String.empty_append.symm⟩
  | cons e ls ih =>
    cases h with
    | cons he hrest =>
      obtain ⟨m₁, t₁, t₂, hls, hrs, rfl⟩ := ih hrest
      exact ⟨m₁, _, t₂, .cons he hls, hrs, String.append_assoc.symm⟩

theorem append_error (h : Concatenates (ls ++ rs) m (.error s, m')) :
    Concatenates ls m (.error s, m') ∨
      ∃ m₁ t, Concatenates ls m (.ok t, m₁) ∧ Concatenates rs m₁ (.error s, m') := by
  induction ls generalizing m with
  | nil => exact .inr ⟨m, "", .nil m, h⟩
  | cons e ls ih =>
    cases h with
    | stop hstop => exact .inl (.stop hstop)
    | later he hrest =>
      rcases ih hrest with hls | ⟨m₁, t, hls, hrs⟩
      · exact .inl (.later he hls)
      · exact .inr ⟨m₁, _, .cons he hls, hrs⟩

end Concatenates

namespace Expr.Sums

variable {e : Expr} {es ls rs : List Expr} {t : String}

/-- A sum has the texts of its operands in a row, and can be joined in turn: by induction on its
brackets. -/
theorem shows_texts (h : e.Sums es) (hes : Concatenates es m (.ok t, m')) : e.Shows m t m' := by
  induction h generalizing m m' t with
  | operand e =>
    obtain _ | ⟨he, hrest⟩ := hes
    cases hrest
    rwa [String.append_empty]
  | plus location _ _ ihl ihr =>
    obtain ⟨m₁, t₁, t₂, hls, hrs, rfl⟩ := hes.append_ok
    exact ⟨_, endsIn_add_of_shows (ihl hls) (ihr hrs) location, .text _, rfl⟩

/-- A sum stops as the first of its operands that stops. -/
theorem endsIn_error (h : e.Sums es) (hes : Concatenates es m (.error s, m')) :
    e.EndsIn m (.error s, m') := by
  induction h generalizing m m' with
  | operand e =>
    cases hes with
    | stop hstop => exact hstop
    | later _ hrest => cases hrest
  | plus location hl _ ihl ihr =>
    rcases hes.append_error with hls | ⟨m₁, t, hls, hrs⟩
    · exact endsIn_add_of_left_stops (ihl hls) location
    · obtain ⟨v, hv, -, -⟩ := hl.shows_texts hls
      exact endsIn_add_of_right_stops hv (ihr hrs) location

/-- Brackets in a sum make no difference: it comes to the texts of its operands in a row. -/
theorem endsIn_plus (hl : left.Sums ls) (hr : right.Sums rs) (location : Location)
    {outcome : Except Stop String} (h : Concatenates (ls ++ rs) m (outcome, m')) :
    (Expr.binary left "+" right location).EndsIn m (outcome.map Value.text, m') := by
  cases outcome with
  | error s => exact endsIn_error (hl.plus location hr) h
  | ok t =>
    obtain ⟨m₁, t₁, t₂, hls, hrs, rfl⟩ := h.append_ok
    exact endsIn_add_of_shows (hl.shows_texts hls) (hr.shows_texts hrs) location

end Expr.Sums

end Sums

/-! ## Texts of arrays -/

/-- The text of an array consists of the texts of its items with commas between them, where an
absent item and null have none.  This holds at every level: the innermost items alone, none of which
is an array with items, give the same text.  So an array in an array can make way for its items at
any place, unless it has none and is not alone there, and this can be done at any depth and any
number of times.

A sum with an array for an operand is the texts of its operands, one after the other.  Three values
may be bracketed either way if one of any two neighbours is a string, an array or an object.  If all
operands are, a sum of any number of expressions may be bracketed in any way. -/
theorem array_texts_concatenate :
    (∀ items : List Value, (Value.array items).display =
        ",".intercalate (items.map fun v => if v.isNullish then "" else v.display)) ∧
      (∀ items : List Value,
        (Value.array items).display =
            ",".intercalate ((Value.array items).leaves.map Value.itemText) ∧
          ∀ inner, Value.array inner ∈ (Value.array items).leaves → inner = []) ∧
      (∀ before inner after : List Value,
        (Value.array (before ++ inner ++ after)).display =
            (Value.array (before ++ .array inner :: after)).display ↔
          inner ≠ [] ∨ before = [] ∧ after = []) ∧
      (∀ v v', Relation.ReflTransGen Value.Spliced v v' → v'.display = v.display) ∧
      (∀ (items : List Value) (v : Value),
        Operator.add.apply (.array items) v =
            .text ((Value.array items).display ++ v.display) ∧
          Operator.add.apply v (.array items) =
            .text (v.display ++ (Value.array items).display)) ∧
      (∀ u v w : Value, u.Joined ∨ v.Joined → v.Joined ∨ w.Joined →
        Operator.add.apply (Operator.add.apply u v) w =
            .text (u.display ++ v.display ++ w.display) ∧
          Operator.add.apply u (Operator.add.apply v w) =
            .text (u.display ++ v.display ++ w.display)) ∧
      ∀ (left right : Expr) (ls rs : List Expr) (location : Location) (m m' : Machine)
        (outcome : Except Stop String),
        left.Sums ls → right.Sums rs → Concatenates (ls ++ rs) m (outcome, m') →
          (Expr.binary left "+" right location).EndsIn m (outcome.map Value.text, m') := by
  refine ⟨Value.display_array, ?_, Value.display_splice_iff, ?_, ?_, ?_, ?_⟩
  · intro items
    exact ⟨Value.display_array_leaves items, fun _ h => Value.eq_nil_of_mem_leaves _ h⟩
  · intro v v' h
    exact Value.display_eq_of_spliced h
  · intro items v
    exact ⟨Operator.add_of_joined (.inl (.array items)), Operator.add_of_joined (.inr (.array items))⟩
  · intro u v w huv hvw
    exact Operator.add_add_of_joined huv hvw
  · intro left right ls rs location m m' outcome hl hr h
    exact hl.endsIn_plus hr location h

/-- An array with an empty array, null and an absent item in it, at different depths. -/
def nestedArray : Value :=
  .array [.array [.text "a", .null], .array [], .array [.array [.absent, .text "b"]]]

/-- An array, an object and a string, each written as a literal. -/
def arrayObjectText : List Expr :=
  [.array [.literal { value := .text "a" }] {}, .object [] {}, .literal { value := .text "c" }]

theorem concatenates_arrayObjectText (m : Machine) :
    Concatenates arrayObjectText m (.ok "a[object Object]c", m) := by
  have hshows : ∀ {e : Expr} {v : Value}, m.perform (evaluate 2 e) = (.ok v, m) → v.Joined →
      e.Shows m v.display m :=
    fun hrun hv => ⟨_, yields_of_perform_eq (steady_evaluate _) hrun nofun, hv, rfl⟩
  have harray : arrayObjectText[0].Shows m "a" m := hshows rfl (.array [.text "a"])
  have hobject : arrayObjectText[1].Shows m "[object Object]" m := hshows rfl (.object [])
  have htext : arrayObjectText[2].Shows m "c" m := hshows rfl (.text "c")
  exact .cons harray (.cons hobject (.cons htext (.nil m)))

/-- An array inside and one outside make way for their items, null stands between an array and an
object in a sum, and a sum of three expressions is bracketed in two ways. -/
theorem nestedArray_concatenates :
    let m := Machine.new {}
    let opened : Value := .array [.text "a", .null, .array [], .array [.absent, .text "b"]]
    let first := arrayObjectText[0]
    let second := arrayObjectText[1]
    let third := arrayObjectText[2]
    Relation.ReflTransGen Value.Spliced nestedArray opened ∧ opened.display = nestedArray.display ∧
      Operator.add.apply (Operator.add.apply (.array [.text "a"]) .null) (.object []) =
        .text "anull[object Object]" ∧
      (Expr.binary (.binary first "+" second {}) "+" third {}).EndsIn m
        (.ok (.text "a[object Object]c"), m) ∧
      (Expr.binary first "+" (.binary second "+" third {}) {}).EndsIn m
        (.ok (.text "a[object Object]c"), m) := by
  intro m opened first second third
  obtain ⟨-, -, -, hspliced, -, hadd, hsums⟩ := array_texts_concatenate
  have hinside : Value.Spliced nestedArray
      (.array [.array [.text "a", .null], .array [], .array [.absent, .text "b"]]) :=
    .inside [_, _] [] (.here [] [] (List.cons_ne_nil _ _))
  have houtside : Value.Spliced
      (.array [.array [.text "a", .null], .array [], .array [.absent, .text "b"]]) opened :=
    .here [] _ (List.cons_ne_nil _ _)
  have hopened : Relation.ReflTransGen Value.Spliced nestedArray opened :=
    .tail (.single hinside) houtside
  have hpair : ∀ e e' : Expr, (Expr.binary e "+" e' {}).Sums [e, e'] :=
    fun e e' => .plus {} (.operand e) (.operand e')
  have htexts := concatenates_arrayObjectText m
  refine ⟨hopened, hspliced _ _ hopened, ?_, ?_, ?_⟩
  · exact (hadd _ _ _ (.inl (.array _)) (.inr (.object _))).1
  · exact hsums _ _ _ _ {} m m _ (hpair first second) (.operand third) htexts
  · exact hsums _ _ _ _ {} m m _ (.operand first) (hpair second third) htexts

end Treewalk
