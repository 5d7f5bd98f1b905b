import Mathlib.Data.List.Forall2
import Treewalk.Proofs.Numbering

/-!
# What evaluation leaves behind in scopes

Three bounds on what may have changed in a scope, each wider than the one before.  A call can only
give new values to variables that were bound before it, in any scope.  An expression can also bind
new variables, and a statement can bind functions as well, but only in the scope that it runs in.

Nothing is ever unbound.

## Main definitions

* `Scope.Rebound`, `Scope.Grown`, `Scope.Extended` — the bounds on one scope.
* `Machine.Alters` — a bound on the current scope, with all others at most rebound.
-/

namespace Treewalk

namespace Entries

variable {α : Type}

theorem has_insert (name other : String) (x : α) (es : Entries α) :
    has other (insert name x es) = (decide (other = name) || has other es) := by
  rw [has, get?_insert]
  split
  · next h => simp [h]
  · next h => simp [h, has]

theorem has_insert_of_has {name other : String} {es : Entries α} (h : has other es = true) (x : α) :
    has other (insert name x es) = true := by
  simp [has_insert, h]

end Entries

namespace Scope

/-- Only values of bound variables have changed. -/
structure Rebound (s s' : Scope) : Prop where
  place : s'.place = s.place
  vars : ∀ name, Entries.has name s'.vars = Entries.has name s.vars
  funs : s'.funs = s.funs

/-- Variables have been bound, anew or for the first time. -/
structure Grown (s s' : Scope) : Prop where
  place : s'.place = s.place
  vars : ∀ name, Entries.has name s.vars = true → Entries.has name s'.vars = true
  funs : s'.funs = s.funs

/-- Variables and functions have been bound, anew or for the first time. -/
structure Extended (s s' : Scope) : Prop where
  place : s'.place = s.place
  vars : ∀ name, Entries.has name s.vars = true → Entries.has name s'.vars = true
  funs : ∀ name, Entries.has name s.funs = true → Entries.has name s'.funs = true

variable {s t u : Scope}

theorem Rebound.refl (s : Scope) : Rebound s s := ⟨rfl, fun _ => rfl, rfl⟩

theorem Rebound.trans (h : Rebound s t) (h' : Rebound t u) : Rebound s u :=
  ⟨h'.place.trans h.place, fun name => (h'.vars name).trans (h.vars name), h'.funs.trans h.funs⟩

theorem Rebound.grown (h : Rebound s t) : Grown s t :=
  ⟨h.place, fun name hs => by rw [h.vars name]; exact hs, h.funs⟩

theorem Grown.trans (h : Grown s t) (h' : Grown t u) : Grown s u :=
  ⟨h'.place.trans h.place, fun name hs => h'.vars name (h.vars name hs), h'.funs.trans h.funs⟩

theorem Grown.extended (h : Grown s t) : Extended s t :=
  ⟨h.place, h.vars, fun name hs => by rw [h.funs]; exact hs⟩

theorem Extended.refl (s : Scope) : Extended s s := (Rebound.refl s).grown.extended

theorem Extended.trans (h : Extended s t) (h' : Extended t u) : Extended s u :=
  ⟨h'.place.trans h.place, fun name hs => h'.vars name (h.vars name hs),
    fun name hs => h'.funs name (h.funs name hs)⟩

theorem forall₂_rebound_refl (l : List Scope) : List.Forall₂ Rebound l l :=
  List.forall₂_same.mpr fun s _ => Rebound.refl s

theorem forall₂_rebound_trans {l l' l'' : List Scope} (h : List.Forall₂ Rebound l l')
    (h' : List.Forall₂ Rebound l' l'') : List.Forall₂ Rebound l l'' := by
  induction h generalizing l'' with
  | nil => exact h'
  | cons hs _ ih =>
    cases h' with
    | cons hs' hl' => exact .cons (hs.trans hs') (ih hl')

theorem rebound_bindVariable {name : String} (h : Entries.has name s.vars = true) (v : Value) :
    Rebound s (s.bindVariable name v) where
  place := rfl
  vars other := by
    simp only [bindVariable, Entries.has_insert]
    by_cases heq : other = name
    · simp [heq, h]
    · simp [heq]
  funs := rfl

theorem grown_bindVariable (name : String) (v : Value) (s : Scope) :
    Grown s (s.bindVariable name v) :=
  ⟨rfl, fun _ h => Entries.has_insert_of_has h v, rfl⟩

theorem extended_bindFunction (name : String) (f : Closure) (s : Scope) :
    Extended s (s.bindFunction name f) :=
  ⟨rfl, fun _ h => h, fun _ h => Entries.has_insert_of_has h f⟩

end Scope

/-! ## Bounds on machines -/

/-- The parts of a tree that run in the scope around them. -/
inductive Part where
  | expression
  | statement
  deriving DecidableEq

namespace Part

/-- What a part may do to the scope that it runs in. -/
def Bound : Part → Scope → Scope → Prop
  | .expression => Scope.Grown
  | .statement => Scope.Extended

variable {p : Part} {s t u : Scope}

theorem bound_of_grown (h : s.Grown t) : p.Bound s t := by
  cases p with
  | expression => exact h
  | statement => exact h.extended

theorem bound_refl (s : Scope) : p.Bound s s := bound_of_grown (Scope.Rebound.refl s).grown

theorem bound_trans (h : p.Bound s t) (h' : p.Bound t u) : p.Bound s u := by
  cases p with
  | expression => exact Scope.Grown.trans h h'
  | statement => exact Scope.Extended.trans h h'

end Part

namespace Machine

/-- The current scope has changed within a bound, and the scopes below it have at most been
rebound. -/
structure Alters (bound : Scope → Scope → Prop) (m m' : Machine) : Prop where
  current : bound m.current m'.current
  below : List.Forall₂ Scope.Rebound m.below m'.below

variable {m m' m'' : Machine} {p : Part}

theorem Alters.refl (m : Machine) : Alters p.Bound m m :=
  ⟨Part.bound_refl _, Scope.forall₂_rebound_refl _⟩

theorem Alters.trans (h : Alters p.Bound m m') (h' : Alters p.Bound m' m'') :
    Alters p.Bound m m'' :=
  ⟨Part.bound_trans h.current h'.current, Scope.forall₂_rebound_trans h.below h'.below⟩

theorem alters_of_forall₂ (h : List.Forall₂ Scope.Rebound m.scopes m'.scopes) :
    Alters p.Bound m m' := by
  rw [scopes_eq m, scopes_eq m'] at h
  cases h with
  | cons hcurrent hbelow => exact ⟨Part.bound_of_grown hcurrent.grown, hbelow⟩

/-- A change of the current scope alone. -/
theorem alters_changeCurrent {bound : Scope → Scope → Prop} {f : Scope → Scope}
    (hf : ∀ s, bound s (f s)) (m : Machine) : Alters bound m (m.changeCurrent f) := by
  have hscopes : (m.changeCurrent f).scopes = f m.current :: m.below := by
    rw [changeCurrent, scopes, current, below, scopes]
    split <;> simp [*]
  rw [scopes_eq, List.cons.injEq] at hscopes
  refine ⟨?_, ?_⟩
  · rw [hscopes.1]
    exact hf _
  · rw [hscopes.2]
    exact Scope.forall₂_rebound_refl _

/-- An assignment rebinds a variable that is bound along the links, wherever that is. -/
theorem alters_assign (h : m.WellNumbered) (name : String) (v : Value) :
    Alters p.Bound m (m.assign name v) := by
  cases howner : m.owner? name with
  | none =>
    simp only [assign, howner]
    exact alters_changeCurrent
      (fun s => Part.bound_of_grown (Scope.grown_bindVariable name v s)) m
  | some t =>
    obtain ⟨ht, hbound⟩ := owner?_mem howner
    refine alters_of_forall₂ ?_
    rw [assign_eq h, target, howner, scopes_mapScopes, List.forall₂_map_right_iff,
      List.forall₂_same]
    intro s hs
    rw [Scope.onlyAt]
    split
    · next hid =>
      obtain rfl := h.eq_of_id_eq hs ht hid
      exact Scope.rebound_bindVariable hbound v
    · exact Scope.Rebound.refl s

/-- What was done in the scope of a call is gone with it; all other scopes were below it. -/
theorem rebound_leaveCall {parent : Option Nat} {bound : Scope → Scope → Prop}
    (h : Alters bound (m.enterCall parent) m') :
    List.Forall₂ Scope.Rebound m.scopes m'.leaveCall.scopes := by
  have hbelow : List.Forall₂ Scope.Rebound m.scopes m'.below := h.below
  have hframes : m'.frames ≠ [] := by
    intro hnil
    have hlength := hbelow.length_eq
    simp [scopes, below, hnil] at hlength
  rw [scopes_leaveCall hframes]
  exact hbelow

end Machine

/-- What a part of a tree may have done since it began; the index is the part and the machine at
that time. -/
def footprintInvariant : Invariant (Part × Machine) where
  holds k m := m.WellNumbered ∧ k.2.Alters k.1.Bound m
  binds k := k.1 = .statement
  assign h name v :=
    ⟨h.1.of_sameStack (Machine.sameStack_assign name v _),
      h.2.trans (Machine.alters_assign h.1 name v)⟩
  halt h := ⟨⟨h.1.nodup, h.1.fresh⟩, ⟨h.2.current, h.2.below⟩⟩
  setVariable _ h name v :=
    ⟨h.1.of_sameStack (Machine.sameStack_changeCurrent (Scope.place_bindVariable name v) _),
      h.2.trans (Machine.alters_changeCurrent
        (fun s => Part.bound_of_grown (Scope.grown_bindVariable name v s)) _)⟩
  setFunction := by
    rintro ⟨p, m₀⟩ m rfl h name params body
    exact ⟨h.1.of_sameStack (Machine.sameStack_changeCurrent (Scope.place_bindFunction name _) _),
      h.2.trans (Machine.alters_changeCurrent (Scope.extended_bindFunction name _) _)⟩
  enter := by
    rintro ⟨p, m₀⟩ m h home
    refine ⟨(.statement, m.enterCall (some home)), rfl, ⟨h.1.enterCall _, .refl _⟩, ?_⟩
    rintro m' ⟨hm', halters⟩
    exact ⟨hm'.leaveCall,
      h.2.trans (Machine.alters_of_forall₂ (Machine.rebound_leaveCall halters))⟩

/-- What expressions, statements, programs and calls may leave behind, however they end. -/
theorem evaluation_footprint (levels : Nat) {m : Machine} (h : m.WellNumbered) :
    (∀ e, m.Alters Scope.Grown (m.perform (evaluate levels e)).2) ∧
      (∀ s, m.Alters Scope.Extended (m.perform (execute levels s)).2) ∧
      (∀ body, m.Alters Scope.Extended (m.perform (executeBody levels body)).2) ∧
      (∀ p, m.Alters Scope.Extended (m.run levels p).2) ∧
      ∀ f args location, List.Forall₂ Scope.Rebound m.scopes
        (m.perform (callClosure levels f args location)).2.scopes := by
  have hexpression : footprintInvariant.holds (.expression, m) m := ⟨h, .refl m⟩
  have hstatement : footprintInvariant.holds (.statement, m) m := ⟨h, .refl m⟩
  have hclear : footprintInvariant.holds (.statement, m) { m with halted := false } :=
    ⟨⟨h.nodup, h.fresh⟩, ⟨Part.bound_refl _, Scope.forall₂_rebound_refl _⟩⟩
  have hbinds : ∀ m, footprintInvariant.binds (.statement, m) := fun _ => rfl
  refine ⟨fun e => ?_, fun s => ?_, fun body => ?_, fun p => ?_, fun f args location => ?_⟩
  · exact (footprintInvariant.evaluate hexpression levels e).2
  · exact (footprintInvariant.execute (hbinds m) hstatement levels s).2
  · exact (footprintInvariant.executeBody (hbinds m) hstatement levels body).2
  · exact (footprintInvariant.executeBody (hbinds m) hclear levels p.body).2
  · refine footprintInvariant.callClosure
      (P := fun m' => List.Forall₂ Scope.Rebound m.scopes m'.scopes)
      (hbinds (m.enterCall (some f.home))) ⟨h.enterCall _, .refl _⟩
      (Scope.forall₂_rebound_refl _) ?_ levels args location
    rintro m' ⟨-, halters⟩
    exact Machine.rebound_leaveCall halters

/-- A machine at the top level, where one variable is bound. -/
def machineWithX : Machine := (Machine.new {}).setVariable "x" .null

/-- A function of the top level that assigns to two variables. -/
def assignerOfXAndY : Closure where
  name := "f"
  params := []
  body := ["x", "y"].map fun name =>
    .expression (.assignment (.identifier { name }) (.literal { value := .bool true }) {}) {}
  home := 0

/-- The variable that was bound has a new value, and the other one is gone with the call. -/
theorem footprint_of_assignments :
    machineWithX.WellNumbered ∧
      (machineWithX.perform (callClosure 3 assignerOfXAndY [] {})).2.global.vars =
        [("x", .bool true)] ∧
      List.Forall₂ Scope.Rebound machineWithX.scopes
        (machineWithX.perform (callClosure 3 assignerOfXAndY [] {})).2.scopes := by
  have h : machineWithX.WellNumbered := ⟨by decide, by decide⟩
  obtain ⟨-, -, -, -, hcall⟩ := evaluation_footprint 3 h
  exact ⟨h, rfl, hcall assignerOfXAndY [] {}⟩

end Treewalk
