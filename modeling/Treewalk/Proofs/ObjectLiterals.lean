import Treewalk.Proofs.Chains
import Treewalk.Proofs.Insertion
import Treewalk.Proofs.Requests

/-!
# Object literals

An object literal gathers pairs of a text and a value, property by property: first the key, unless
that stands for itself, and then the value.  A method or an accessor has no rule; where that is
permitted, its value is absent, and nothing of it but the key is evaluated.  The object is what is
left of these pairs when they are inserted one after the other.

A reader asks for an entry by the text of a value, which is how the keys were made.  So it does not
matter how a key is written, as a name or as a text, and whether it is computed.

## Main definitions

* `Property.KeyIs`, `Property.ValueIs`, `Gathers` — the pairs of an object literal.
* `Property.requests` — what is asked for a property.
-/

namespace Treewalk

/-! ## Properties -/

/-- From a machine, a property has this key, and the machine after that. -/
inductive Property.KeyIs (p : Property) (m : Machine) : String → Machine → Prop where
  | fixed {key : String} : p.fixedKey? = some key → KeyIs p m key m
  | evaluated {v : Value} {m' : Machine} : p.fixedKey? = none → p.key.EndsIn m (.ok v, m') →
    KeyIs p m v.display m'

/-- From a machine, a property has this value, and the machine after that. -/
inductive Property.ValueIs (p : Property) (m : Machine) : Value → Machine → Prop where
  | plain {v : Value} {m' : Machine} : p.method = false → p.kind = .init →
    p.value.EndsIn m (.ok v, m') → ValueIs p m v m'
  /-- A method or an accessor, which is not evaluated. -/
  | unsupported : p.method = true ∨ p.kind ≠ .init → m.config.policy = .permissive →
    ValueIs p m .absent m

/-- From a machine, properties have these keys and values, one after the other. -/
inductive Gathers : List Property → Machine → List (String × Value) → Machine → Prop where
  | nil (m : Machine) : Gathers [] m [] m
  | cons {p : Property} {ps : List Property} {m m₁ m₂ m' : Machine} {key : String} {v : Value}
    {pairs : List (String × Value)} : p.KeyIs m key m₁ → p.ValueIs m₁ v m₂ →
    Gathers ps m₂ pairs m' → Gathers (p :: ps) m ((key, v) :: pairs) m'

namespace Property

/-- The request for the key of a property, if it needs one. -/
def keyPlan (p : Property) : Plan String :=
  match p.fixedKey? with
  | some key => .done key
  | none => (Plan.one (.evaluate p.key)).bind fun v => .done v.display

/-- What is asked for the key of a property. -/
def keyRequests (p : Property) : List Request :=
  match p.fixedKey? with
  | some _ => []
  | none => [.evaluate p.key]

/-- What is asked for the value of a property of an object literal. -/
def valueRequest (location : Location) (p : Property) : Request :=
  if p.method then .unimplemented "method Property" location
  else
    match p.kind with
    | .init => .evaluate p.value
    | .getter | .setter => .unimplemented "accessor Property" location

/-- What is asked for a property of an object literal. -/
def requests (location : Location) (p : Property) : List Request :=
  p.keyRequests ++ [p.valueRequest location]

end Property

section Plans

variable {P : Request → Prop} {m m' : Machine} {requests : List Request} {location : Location}

theorem plan_entryKey {p : Property} (h : P (.evaluate p.key)) :
    (Planned.entryKey p h).plan = p.keyPlan := by
  rw [Planned.entryKey, Property.keyPlan]
  split <;> simp_all <;> rfl

theorem makes_keyPlan_iff {p : Property} {key : String} :
    p.keyPlan.Makes m requests (.ok key, m') ↔ p.KeyIs m key m' ∧ requests = p.keyRequests := by
  rw [Property.keyPlan, Property.keyRequests]
  cases hfixed : p.fixedKey? with
  | some fixed =>
    constructor
    · intro h
      cases h
      exact ⟨.fixed hfixed, rfl⟩
    · rintro ⟨hkey, rfl⟩
      cases hkey with
      | fixed hfixed' =>
        cases hfixed.symm.trans hfixed'
        exact .done _ _
      | evaluated hnone => cases hfixed.symm.trans hnone
  | none =>
    refine Plan.makes_bind_ok_iff.trans ?_
    constructor
    · rintro ⟨v, m₁, before, after, hmakes, hdone, rfl⟩
      obtain ⟨rfl, hends⟩ := Plan.makes_evaluate_iff.mp hmakes
      cases hdone
      exact ⟨.evaluated hfixed hends, rfl⟩
    · rintro ⟨hkey, rfl⟩
      cases hkey with
      | fixed hfixed' => cases hfixed.symm.trans hfixed'
      | evaluated _ hends =>
        exact ⟨_, _, _, _, Plan.makes_evaluate_iff.mpr ⟨rfl, hends⟩, .done _ _, rfl⟩

/-- A method or an accessor is not evaluated. -/
theorem makes_unsupported_iff {p : Property} (hp : p.method = true ∨ p.kind ≠ .init)
    {kind : String} {v : Value} :
    (Plan.one (.unimplemented kind location)).Makes m requests (.ok v, m') ↔
      p.ValueIs m v m' ∧ requests = [.unimplemented kind location] := by
  refine Plan.makes_one_iff.trans ?_
  rw [Request.endsIn_unimplemented_iff]
  constructor
  · rintro ⟨rfl, hpolicy, rfl, rfl⟩
    exact ⟨.unsupported hp hpolicy, rfl⟩
  · rintro ⟨hvalue, rfl⟩
    cases hvalue with
    | plain hmethod hkind _ =>
      rw [hmethod, hkind] at hp
      simp at hp
    | unsupported _ hpolicy => exact ⟨rfl, hpolicy, rfl, rfl⟩

theorem makes_entryValue_iff {p : Property} (h : P (.evaluate p.value))
    (hmethod : P (.unimplemented "method Property" location))
    (haccessor : P (.unimplemented "accessor Property" location)) {v : Value} :
    (Planned.entryValue location p h hmethod haccessor).plan.Makes m requests (.ok v, m') ↔
      p.ValueIs m v m' ∧ requests = [p.valueRequest location] := by
  obtain ⟨kind, key, value, computed, shorthand, method⟩ := p
  cases method with
  | true => cases kind <;> exact makes_unsupported_iff (.inl rfl)
  | false =>
    cases kind with
    | getter | setter => exact makes_unsupported_iff (.inr (by simp))
    | init =>
      refine Plan.makes_evaluate_iff.trans ?_
      constructor
      · rintro ⟨rfl, hends⟩
        exact ⟨.plain rfl rfl hends, rfl⟩
      · rintro ⟨hvalue, rfl⟩
        cases hvalue with
        | plain _ _ hends => exact ⟨rfl, hends⟩
        | unsupported hp => simp at hp

/-- The entries come from pairs that are gathered: by induction on the properties. -/
theorem makes_evaluateEntries_iff
    (hmethod : P (.unimplemented "method Property" location))
    (haccessor : P (.unimplemented "accessor Property" location)) {ps : List Property}
    (h : ∀ p ∈ ps, P (.evaluate p.key) ∧ P (.evaluate p.value)) {entries entries' : Entries Value} :
    (Planned.evaluateEntries location hmethod haccessor ps h entries).plan.Makes m requests
        (.ok entries', m') ↔
      ∃ pairs, Gathers ps m pairs m' ∧
        entries' = pairs.foldl (fun es (k, v) => Entries.insert k v es) entries ∧
        requests = ps.flatMap (Property.requests location) := by
  induction ps generalizing m requests entries with
  | nil =>
    constructor
    · intro h
      cases h
      exact ⟨[], .nil _, rfl, rfl⟩
    · rintro ⟨pairs, hgathers, rfl, rfl⟩
      cases hgathers
      exact .done _ _
  | cons p ps ih =>
    simp only [Planned.evaluateEntries, Planned.bind, Plan.makes_bind_ok_iff, plan_entryKey,
      makes_keyPlan_iff, makes_entryValue_iff, ih]
    constructor
    · rintro ⟨key, m₁, _, _, ⟨hkey, rfl⟩, ⟨v, m₂, _, _, ⟨hvalue, rfl⟩,
        ⟨pairs, hgathers, rfl, rfl⟩, rfl⟩, rfl⟩
      refine ⟨(key, v) :: pairs, .cons hkey hvalue hgathers, rfl, ?_⟩
      simp [Property.requests]
    · rintro ⟨pairs, hgathers, rfl, rfl⟩
      cases hgathers with
      | cons hkey hvalue hgathers =>
        refine ⟨_, _, _, _, ⟨hkey, rfl⟩, ⟨_, _, _, _, ⟨hvalue, rfl⟩, ⟨_, hgathers, rfl, rfl⟩, rfl⟩, ?_⟩
        simp [Property.requests]

/-- An object literal is gathered from its properties. -/
theorem makes_object_iff {properties : List Property} {v : Value} :
    (Expr.object properties location).Makes m requests (.ok v, m') ↔
      ∃ pairs, Gathers properties m pairs m' ∧ v = .object (Entries.ofPairs pairs) ∧
        requests = properties.flatMap (Property.requests location) := by
  constructor
  · rintro ⟨p, hp, hmakes⟩
    cases hp
    obtain ⟨entries, m₁, before, after, hentries, hdone, rfl⟩ := Plan.makes_bind_ok_iff.mp hmakes
    cases hdone
    obtain ⟨pairs, hgathers, rfl, rfl⟩ := (makes_evaluateEntries_iff _ _ _).mp hentries
    exact ⟨pairs, hgathers, rfl, List.append_nil _⟩
  · rintro ⟨pairs, hgathers, rfl, rfl⟩
    refine ⟨_, rfl, Plan.makes_bind_ok_iff.mpr ?_⟩
    exact ⟨_, m', _, [], (makes_evaluateEntries_iff _ _ _).mpr ⟨pairs, hgathers, rfl, rfl⟩,
      .done _ _, (List.append_nil _).symm⟩

end Plans

/-! ## How keys are written -/

section Keys

variable {eval : Expr → Action Value}

/-- Only the key and the value of a property matter. -/
theorem evaluateEntries_congr {location : Location} {p p' : Property}
    (hkey : entryKey eval p = entryKey eval p')
    (hvalue : entryValue eval location p = entryValue eval location p') (before after : List Property)
    (entries : Entries Value) :
    evaluateEntries eval location entries (before ++ p :: after) =
      evaluateEntries eval location entries (before ++ p' :: after) := by
  induction before generalizing entries with
  | nil => simp only [List.nil_append, evaluateEntries, hkey, hvalue]
  | cons q before ih => simp only [List.cons_append, evaluateEntries, ih]

/-- Only the key of a link matters, and whether it is optional. -/
theorem followLinks_congr {l l' : Link} (hoptional : l.optional = l'.optional)
    (hkey : memberKey eval l.property l.computed = memberKey eval l'.property l'.computed)
    (before after : List Link) (v : Value) :
    followLinks eval v (before ++ l :: after) = followLinks eval v (before ++ l' :: after) := by
  induction before generalizing v with
  | nil => simp only [List.nil_append, followLinks, hoptional, hkey]
  | cons k before ih => simp only [List.cons_append, followLinks, ih]

end Keys

/-- Behind any expression, a link is followed among the links of the expression. -/
theorem evaluate_link (e : Expr) (l : Link) (after : List Link) (levels : Nat) :
    evaluate (levels + 1) ((e.link l).linked after) =
      leftToRight (evaluate levels) e.base (e.links ++ l :: after) := by
  have hchain : Expr.ChainOf e.base (e.links ++ l :: after) _ := .bare
  rw [Expr.linked_append, e.linked_links] at hchain
  exact evaluate_of_course (hchain.course e.isMember_base (by simp)) levels

theorem evaluate_object (properties : List Property) (location : Location) (levels : Nat) :
    evaluate (levels + 1) (.object properties location) =
      evaluateEntries (evaluate levels) location [] properties >>= fun entries =>
        pure (.object entries) := rfl

/-- The key of a literal is its text, computed or not. -/
theorem entryKey_literal (kind : PropertyKind) (node : Literal) (value : Expr)
    (computed shorthand method : Bool) (levels : Nat) :
    entryKey (evaluate (levels + 1)) ⟨kind, .literal node, value, computed, shorthand, method⟩ =
      pure node.value.toValue.display := by
  cases computed <;> rfl

theorem sameEnds_literal (before after : List Property) (kind : PropertyKind) (node : Literal)
    (value : Expr) (computed computed' shorthand method : Bool) (location : Location) (m : Machine) :
    SameEnds
      (fun levels => m.perform (evaluate levels (.object
        (before ++ ⟨kind, .literal node, value, computed, shorthand, method⟩ :: after) location)))
      fun levels => m.perform (evaluate levels (.object
        (before ++ ⟨kind, .literal node, value, computed', shorthand, method⟩ :: after) location)) := by
  refine sameEnds_of_eq 2 fun levels => ?_
  have hkey := (entryKey_literal kind node value computed shorthand method levels).trans
    (entryKey_literal kind node value computed' shorthand method levels).symm
  rw [evaluate_object, evaluate_object, evaluateEntries_congr hkey rfl]

/-- The key of a link is the same if a name is written as a text. -/
theorem memberKey_literal (id : Identifier) (node : Literal) (computed : Bool) (levels : Nat) :
    memberKey (evaluate (levels + 1)) (.identifier id) false =
      memberKey (evaluate (levels + 1)) (.literal { node with value := .text id.name }) computed := by
  cases computed <;> rfl

theorem sameEnds_link (e : Expr) (id : Identifier) (node : Literal) (computed optional : Bool)
    (location location' : Location) (after : List Link) (m : Machine) :
    SameEnds
      (fun levels => m.perform (evaluate levels
        ((e.link ⟨.identifier id, false, optional, location⟩).linked after)))
      fun levels => m.perform (evaluate levels
        ((e.link ⟨.literal { node with value := .text id.name }, computed, optional,
          location'⟩).linked after)) := by
  refine sameEnds_of_eq 2 fun levels => ?_
  simp only [evaluate_link, leftToRight]
  refine congrArg m.perform (congrArg (evaluate (levels + 1) e.base >>= ·) (funext fun v => ?_))
  refine followLinks_congr ?_ ?_ e.links after v
  · rfl
  · exact memberKey_literal id node computed levels

/-- An object literal comes to a value exactly if keys and values can be gathered from its
properties, and the object is what is left when they are inserted one after the other: each key has
the place of its first property and the value of its last one.  Nothing is requested but what each
property asks for, in the order of the properties, and each once.  A reader finds under any value
what was inserted last under its text.

It makes no difference whether a literal for a key is computed, nor whether a member is asked for by
a name or by a literal that is the same text. -/
theorem object_literals_read_back :
    (∀ properties location m v m', (Expr.object properties location).EndsIn m (.ok v, m') ↔
        ∃ pairs, Gathers properties m pairs m' ∧ v = .object (Entries.ofPairs pairs)) ∧
      (∀ properties location m requests v m',
        (Expr.object properties location).Makes m requests (.ok v, m') ↔
          ∃ pairs, Gathers properties m pairs m' ∧ v = .object (Entries.ofPairs pairs) ∧
            requests = properties.flatMap (Property.requests location)) ∧
      (∀ pairs : List (String × Value),
        Entries.keys (Entries.ofPairs pairs) = (pairs.map Prod.fst).eraseDups ∧
        (∀ name, Entries.get? name (Entries.ofPairs pairs) = pairs.reverse.lookup name) ∧
        ∀ key : Value, (Value.object (Entries.ofPairs pairs)).member key =
          (pairs.reverse.lookup key.display).getD .absent) ∧
      (∀ before after kind node value computed computed' shorthand method location (m : Machine),
        SameEnds
          (fun levels => m.perform (evaluate levels (.object
            (before ++ ⟨kind, .literal node, value, computed, shorthand, method⟩ :: after) location)))
          fun levels => m.perform (evaluate levels (.object
            (before ++ ⟨kind, .literal node, value, computed', shorthand, method⟩ :: after)
            location))) ∧
      ∀ (e : Expr) (id : Identifier) (node : Literal) computed optional location location' after
        (m : Machine),
        SameEnds
          (fun levels => m.perform (evaluate levels
            ((e.link ⟨.identifier id, false, optional, location⟩).linked after)))
          fun levels => m.perform (evaluate levels
            ((e.link ⟨.literal { node with value := .text id.name }, computed, optional,
              location'⟩).linked after)) := by
  refine ⟨?_, ?_, ?_, sameEnds_literal, sameEnds_link⟩
  · intro properties location m v m'
    rw [Expr.endsIn_iff ⟨_, rfl⟩]
    simp only [makes_object_iff]
    constructor
    · rintro ⟨requests, pairs, hgathers, hv, -⟩
      exact ⟨pairs, hgathers, hv⟩
    · rintro ⟨pairs, hgathers, hv⟩
      exact ⟨_, pairs, hgathers, hv, rfl⟩
  · intro properties location m requests v m'
    exact makes_object_iff
  · intro pairs
    refine ⟨Entries.keys_ofPairs pairs, fun name => Entries.get?_ofPairs name pairs, ?_⟩
    intro key
    rw [Value.member, Entries.get?_ofPairs]

end Treewalk
