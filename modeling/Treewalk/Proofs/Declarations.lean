import Treewalk.Proofs.Parameters
import Treewalk.Proofs.Requests
import Treewalk.Proofs.Sequencing

/-!
# Declarations of several variables

A declaration binds its variables from left to right, and each one as soon as it has its value.  So
it is a declaration of the first ones and, unless that is stopped, a declaration of the others.

What stops a declaration is one of its initializers.  The machine is left as that initializer left
it, with the variables before it bound, and the rest of the declaration has not begun: nothing more
was requested.

## Main definitions

* `Declarator.ValueIs`, `Declares` — the values that variables are bound to.
* `declareRequests` — what is requested for variables that are bound to values.
* `makes_declaration_ok_iff`, `makes_declaration_error_iff` — the two ways in which a declaration
  comes to an end.
-/

namespace Treewalk

/-! ## The values of variables -/

/-- From a machine, a declared variable has this value, and the machine after that. -/
inductive Declarator.ValueIs (d : Declarator) (m : Machine) : Value → Machine → Prop where
  | missing : d.init = none → ValueIs d m .absent m
  | evaluated {e : Expr} {v : Value} {m' : Machine} : d.init = some e → e.EndsIn m (.ok v, m') →
    ValueIs d m v m'

/-- From a machine, declared variables are bound to these values, one after the other. -/
inductive Declares : List Declarator → Machine → List Value → Machine → Prop where
  | nil (m : Machine) : Declares [] m [] m
  | cons {d : Declarator} {ds : List Declarator} {m m₁ m' : Machine} {v : Value}
    {vs : List Value} : d.ValueIs m v m₁ → Declares ds (m₁.setVariable d.id.name v) vs m' →
    Declares (d :: ds) m (v :: vs) m'

/-- The request for the initializer of a variable, if there is one. -/
def Declarator.initRequests (d : Declarator) : List Request := d.init.toList.map .evaluate

/-- What is requested for declared variables that are bound to values. -/
def declareRequests : List Declarator → List Value → List Request
  | d :: ds, v :: vs => d.initRequests ++ .bind d.id.name v :: declareRequests ds vs
  | _, _ => []

section Requests

variable {P : Request → Prop} {m m' : Machine} {requests : List Request}

theorem makes_bind_iff {name : String} {v : Value} {result : Except Stop Unit × Machine} :
    (Plan.one (.bind name v)).Makes m requests result ↔
      requests = [.bind name v] ∧ result = (.ok (), m.setVariable name v) := by
  refine Plan.makes_one_iff.trans (and_congr_right fun _ => ?_)
  exact yields_const_iff nofun

theorem makes_initializer_ok_iff {d : Declarator} (h : ∀ e ∈ d.init, P (.evaluate e)) {v : Value} :
    (Planned.evaluateOptional d.init h).plan.Makes m requests (.ok v, m') ↔
      d.ValueIs m v m' ∧ requests = d.initRequests := by
  obtain ⟨id, init⟩ := d
  cases init with
  | none =>
    constructor
    · intro hmakes
      cases hmakes
      exact ⟨.missing rfl, rfl⟩
    · rintro ⟨hvalue, rfl⟩
      cases hvalue with
      | missing => exact .done _ _
      | evaluated hinit _ => cases hinit
  | some e =>
    refine Plan.makes_evaluate_iff.trans ?_
    constructor
    · rintro ⟨rfl, hends⟩
      exact ⟨.evaluated rfl hends, rfl⟩
    · rintro ⟨hvalue, rfl⟩
      cases hvalue with
      | missing hinit => cases hinit
      | evaluated hinit hends =>
        cases hinit
        exact ⟨rfl, hends⟩

theorem makes_initializer_error_iff {d : Declarator} (h : ∀ e ∈ d.init, P (.evaluate e))
    {s : Stop} :
    (Planned.evaluateOptional d.init h).plan.Makes m requests (.error s, m') ↔
      ∃ e, d.init = some e ∧ e.EndsIn m (.error s, m') ∧ requests = [.evaluate e] := by
  obtain ⟨id, init⟩ := d
  cases init with
  | none =>
    constructor
    · intro hmakes
      cases hmakes
    · rintro ⟨e, hinit, -⟩
      cases hinit
  | some e =>
    refine Plan.makes_evaluate_iff.trans ?_
    constructor
    · rintro ⟨rfl, hends⟩
      exact ⟨e, rfl, hends, rfl⟩
    · rintro ⟨e', hinit, hends, rfl⟩
      cases hinit
      exact ⟨rfl, hends⟩

/-- All variables are bound: by induction on them, along the machine that each one begins with. -/
theorem makes_declareAll_ok_iff {ds : List Declarator}
    (hinit : ∀ d ∈ ds, ∀ e ∈ d.init, P (.evaluate e)) (hbind : ∀ d ∈ ds, ∀ v, P (.bind d.id.name v)) :
    (Planned.declareAll ds hinit hbind).plan.Makes m requests (.ok (), m') ↔
      ∃ vs, Declares ds m vs m' ∧ requests = declareRequests ds vs := by
  induction ds generalizing m requests with
  | nil =>
    constructor
    · intro hmakes
      cases hmakes
      exact ⟨[], .nil _, rfl⟩
    · rintro ⟨vs, hdeclares, rfl⟩
      cases hdeclares
      exact .done _ _
  | cons d ds ih =>
    simp only [Planned.declareAll, Planned.bind, Plan.makes_bind_ok_iff, makes_initializer_ok_iff]
    constructor
    · rintro ⟨v, m₁, _, _, ⟨hvalue, rfl⟩, ⟨⟨⟩, m₂, _, _, hbound, hrest, rfl⟩, rfl⟩
      obtain ⟨rfl, heq⟩ := makes_bind_iff.mp hbound
      cases heq
      obtain ⟨vs, hdeclares, rfl⟩ := (ih _ _).mp hrest
      exact ⟨v :: vs, .cons hvalue hdeclares, rfl⟩
    · rintro ⟨vs, hdeclares, rfl⟩
      cases hdeclares with
      | @cons _ _ _ m₁ _ v vs hvalue hdeclares =>
        exact ⟨v, m₁, _, _, ⟨hvalue, rfl⟩, ⟨(), _, _, _, makes_bind_iff.mpr ⟨rfl, rfl⟩,
          (ih _ _).mpr ⟨vs, hdeclares, rfl⟩, rfl⟩, rfl⟩

/-- An initializer stops: that of the first variable, or one further on in the rest. -/
theorem makes_declareAll_error_iff {ds : List Declarator}
    (hinit : ∀ d ∈ ds, ∀ e ∈ d.init, P (.evaluate e)) (hbind : ∀ d ∈ ds, ∀ v, P (.bind d.id.name v))
    {s : Stop} :
    (Planned.declareAll ds hinit hbind).plan.Makes m requests (.error s, m') ↔
      ∃ before d after e vs m₁, ds = before ++ d :: after ∧ d.init = some e ∧
        Declares before m vs m₁ ∧ e.EndsIn m₁ (.error s, m') ∧
        requests = declareRequests before vs ++ [.evaluate e] := by
  induction ds generalizing m requests with
  | nil =>
    constructor
    · intro hmakes
      cases hmakes
    · rintro ⟨before, d, after, e, vs, m₁, hds, -⟩
      cases before <;> cases hds
  | cons d ds ih =>
    simp only [Planned.declareAll, Planned.bind, Plan.makes_bind_error_iff, makes_initializer_ok_iff,
      makes_initializer_error_iff]
    constructor
    · rintro (⟨e, he, hends, rfl⟩ | ⟨v, m₁, _, _, ⟨hvalue, rfl⟩, hrest, rfl⟩)
      · exact ⟨[], d, ds, e, [], m, rfl, he, .nil m, hends, rfl⟩
      · rcases hrest with hbound | ⟨⟨⟩, m₂, _, _, hbound, hrest, rfl⟩
        · obtain ⟨-, heq⟩ := makes_bind_iff.mp hbound
          cases heq
        · obtain ⟨rfl, heq⟩ := makes_bind_iff.mp hbound
          cases heq
          obtain ⟨before, d', after, e, vs, m₂, rfl, he, hdeclares, hends, rfl⟩ := (ih _ _).mp hrest
          exact ⟨d :: before, d', after, e, v :: vs, m₂, rfl, he, .cons hvalue hdeclares, hends,
            by simp [declareRequests]⟩
    · rintro ⟨before, d', after, e, vs, m₁, hds, he, hdeclares, hends, rfl⟩
      cases before with
      | nil =>
        cases hds
        cases hdeclares
        exact .inl ⟨e, he, hends, rfl⟩
      | cons d before =>
        cases hds
        cases hdeclares with
        | @cons _ _ _ m₂ _ v vs hvalue hdeclares =>
          refine .inr ⟨v, m₂, _, _, ⟨hvalue, rfl⟩, .inr ⟨(), _, _, _, makes_bind_iff.mpr ⟨rfl, rfl⟩,
            (ih _ _).mpr ⟨before, d', after, e, vs, m₁, rfl, he, hdeclares, hends, rfl⟩, rfl⟩, ?_⟩
          simp [declareRequests]

end Requests

/-! ## Declarations -/

section Statements

variable {kind : DeclarationKind} {ds : List Declarator} {location : Location} {m m' : Machine}
  {requests : List Request}

/-- A declaration that is not stopped binds all of its variables. -/
theorem makes_declaration_ok_iff {c : Completion} :
    (Stmt.declaration kind ds location).Makes m requests (.ok c, m') ↔
      c = .normal .absent ∧ ∃ vs, Declares ds m vs m' ∧ requests = declareRequests ds vs := by
  constructor
  · rintro ⟨rounds, hmakes⟩
    obtain ⟨⟨⟩, m₁, before, after, hdeclares, hdone, rfl⟩ := Plan.makes_bind_ok_iff.mp hmakes
    cases hdone
    obtain ⟨vs, hvalues, rfl⟩ := (makes_declareAll_ok_iff _ _).mp hdeclares
    exact ⟨rfl, vs, hvalues, List.append_nil _⟩
  · rintro ⟨rfl, vs, hdeclares, rfl⟩
    refine ⟨0, Plan.makes_bind_ok_iff.mpr ?_⟩
    exact ⟨(), m', _, [], (makes_declareAll_ok_iff _ _).mpr ⟨vs, hdeclares, rfl⟩, .done _ _,
      (List.append_nil _).symm⟩

/-- A declaration that is stopped is a declaration of the variables before the one whose initializer
is stopped, and then that initializer. -/
theorem makes_declaration_error_iff {s : Stop} :
    (Stmt.declaration kind ds location).Makes m requests (.error s, m') ↔
      ∃ before d after e earlier m₁, ds = before ++ d :: after ∧ d.init = some e ∧
        (Stmt.declaration kind before location).Makes m earlier (.ok (.normal .absent), m₁) ∧
        e.EndsIn m₁ (.error s, m') ∧ requests = earlier ++ [.evaluate e] := by
  constructor
  · rintro ⟨rounds, hmakes⟩
    rcases Plan.makes_bind_error_iff.mp hmakes with hstop | ⟨_, _, _, _, _, hdone, _⟩
    · obtain ⟨before, d, after, e, vs, m₁, hds, he, hdeclares, hends, rfl⟩ :=
        (makes_declareAll_error_iff _ _).mp hstop
      exact ⟨before, d, after, e, _, m₁, hds, he,
        makes_declaration_ok_iff.mpr ⟨rfl, vs, hdeclares, rfl⟩, hends, rfl⟩
    · cases hdone
  · rintro ⟨before, d, after, e, earlier, m₁, hds, he, hearlier, hends, rfl⟩
    obtain ⟨-, vs, hdeclares, rfl⟩ := makes_declaration_ok_iff.mp hearlier
    refine ⟨0, Plan.makes_bind_error_iff.mpr (.inl ((makes_declareAll_error_iff _ _).mpr ?_))⟩
    exact ⟨before, d, after, e, vs, m₁, hds, he, hdeclares, hends, rfl⟩

end Statements

theorem declareAll_append (eval : Expr → Action Value) (xs ys : List Declarator) :
    declareAll eval (xs ++ ys) = declareAll eval xs >>= fun _ => declareAll eval ys := by
  induction xs with
  | nil => rfl
  | cons d xs ih => simp only [List.cons_append, declareAll, ih, bind_assoc]

/-- The variables of a declaration may be declared in two declarations. -/
theorem execute_declaration_append (kind : DeclarationKind) (xs ys : List Declarator)
    (location : Location) (levels : Nat) :
    execute levels (.declaration kind (xs ++ ys) location) =
      (execute levels (.declaration kind xs location)).andThen fun _ =>
        execute levels (.declaration kind ys location) := by
  cases levels with
  | zero => rfl
  | succ levels =>
    simp only [execute, executeNode, Action.andThen, declareAll_append, bind_assoc, pure_bind]

/-! ## What an initializer finds -/

section Bindings

variable {ds : List Declarator} {m m' n : Machine} {vs : List Value}

/-- Finding the value of a variable does no more to the machine than a statement may. -/
theorem Declarator.ValueIs.holds {d : Declarator} {v : Value}
    (h : footprintInvariant.holds (.statement, n) m) (hvalue : d.ValueIs m v m') :
    footprintInvariant.holds (.statement, n) m' := by
  cases hvalue with
  | missing => exact h
  | @evaluated e _ _ _ hends =>
    obtain ⟨-, levels, hlevels⟩ := hends
    have hrun : m.perform (evaluate levels e) = (.ok v, m') := hlevels levels (Nat.le_refl _)
    have hholds := footprintInvariant.evaluate h levels e
    rwa [hrun] at hholds

/-- A variable that is bound once stays bound while the others are: by induction on them. -/
theorem Declares.holds (h : footprintInvariant.holds (.statement, n) m)
    (hdeclares : Declares ds m vs m') :
    footprintInvariant.holds (.statement, n) m' ∧
      ∀ d ∈ ds, Entries.has d.id.name m'.current.vars = true := by
  induction hdeclares generalizing n with
  | nil => exact ⟨h, nofun⟩
  | @cons d ds m m₁ m' v vs hvalue _ ih =>
    have hbinds : footprintInvariant.binds (.statement, n) := rfl
    have hbound := footprintInvariant.setVariable hbinds (hvalue.holds h) d.id.name v
    -- the other variables begin with the machine where this one has just been bound
    obtain ⟨hend, hrest⟩ := ih (n := m₁.setVariable d.id.name v) ⟨hbound.1, .refl _⟩
    refine ⟨⟨hend.1, hbound.2.trans hend.2⟩, List.forall_mem_cons.mpr ⟨?_, hrest⟩⟩
    refine hend.2.current.vars d.id.name ?_
    rw [Entries.has, Machine.get?_setVariable]
    rfl

theorem declares_append_iff {xs ys : List Declarator} :
    Declares (xs ++ ys) m vs m' ↔
      ∃ before after m₁, vs = before ++ after ∧ Declares xs m before m₁ ∧
        Declares ys m₁ after m' := by
  induction xs generalizing m vs with
  | nil =>
    constructor
    · intro h
      exact ⟨[], vs, m, rfl, .nil m, h⟩
    · rintro ⟨before, after, m₁, rfl, hbefore, hafter⟩
      cases hbefore
      exact hafter
  | cons d xs ih =>
    constructor
    · intro h
      cases h with
      | cons hvalue hrest =>
        obtain ⟨before, after, m₁, rfl, hbefore, hafter⟩ := ih.mp hrest
        exact ⟨_ :: before, after, m₁, rfl, .cons hvalue hbefore, hafter⟩
    · rintro ⟨before, after, m₁, rfl, hbefore, hafter⟩
      cases hbefore with
      | cons hvalue hrest => exact .cons hvalue (ih.mpr ⟨_, after, m₁, rfl, hrest, hafter⟩)

/-- The variable that was bound last has its value. -/
theorem Declares.lookupVariable_last {d : Declarator} (h : Declares (ds ++ [d]) m vs m') :
    ∃ v, vs.getLast? = some v ∧ m'.lookupVariable d.id.name = some v := by
  obtain ⟨before, after, m₁, rfl, -, hlast⟩ := declares_append_iff.mp h
  cases hlast with
  | @cons _ _ _ _ _ v _ _ hrest =>
    cases hrest
    refine ⟨v, List.getLast?_concat .., ?_⟩
    exact Machine.lookupVariable_of_current (Machine.get?_setVariable d.id.name v _)

end Bindings

/-- A declaration is a declaration of the first of its variables and, if that comes to its normal
end, a declaration of the others.  It comes to an end without a value exactly if each variable in
turn has a value, and all that it requests is each initializer and, right after it, to bind the
variable.  It stops exactly if an initializer does that begins where a declaration of the variables
before it has ended, and nothing is requested after that initializer.

Where it has ended, all of its variables are found in the current scope, and the last one under its
value. -/
theorem declarators_in_order (kind : DeclarationKind) (location : Location) :
    (∀ xs ys levels (m : Machine),
        m.perform (execute levels (.declaration kind (xs ++ ys) location)) =
          match m.perform (execute levels (.declaration kind xs location)) with
          | (.ok (.normal _), m') => m'.perform (execute levels (.declaration kind ys location))
          | ended => ended) ∧
      (∀ ds (m : Machine) requests c m',
        (Stmt.declaration kind ds location).Makes m requests (.ok c, m') ↔
          c = .normal .absent ∧ ∃ vs, Declares ds m vs m' ∧ requests = declareRequests ds vs) ∧
      (∀ ds (m : Machine) requests s m',
        (Stmt.declaration kind ds location).Makes m requests (.error s, m') ↔
          ∃ before d after e earlier m₁, ds = before ++ d :: after ∧ d.init = some e ∧
            (Stmt.declaration kind before location).Makes m earlier (.ok (.normal .absent), m₁) ∧
            e.EndsIn m₁ (.error s, m') ∧ requests = earlier ++ [.evaluate e]) ∧
      ∀ ds (m : Machine) vs m', m.WellNumbered → Declares ds m vs m' →
        m'.current.id = m.current.id ∧
        (∀ d ∈ ds, ∃ v, Entries.get? d.id.name m'.current.vars = some v ∧
          m'.lookupVariable d.id.name = some v) ∧
        ∀ before d, ds = before ++ [d] → m'.lookupVariable d.id.name = vs.getLast? := by
  refine ⟨?_, ?_, ?_, ?_⟩
  · intro xs ys levels m
    exact (congrArg m.perform (execute_declaration_append kind xs ys location levels)).trans
      (Machine.perform_andThen _ _ m)
  · intro ds m requests c m'
    exact makes_declaration_ok_iff
  · intro ds m requests s m'
    exact makes_declaration_error_iff
  · intro ds m vs m' hm hdeclares
    obtain ⟨⟨-, halters⟩, hnames⟩ := hdeclares.holds (n := m) ⟨hm, .refl m⟩
    refine ⟨Scope.id_eq_of_place halters.current.place, ?_, ?_⟩
    · intro d hd
      obtain ⟨v, hv⟩ := Option.isSome_iff_exists.mp (hnames d hd)
      exact ⟨v, hv, Machine.lookupVariable_of_current hv⟩
    · rintro before d rfl
      obtain ⟨v, hlast, hv⟩ := hdeclares.lookupVariable_last
      rw [hlast, hv]

/-- A literal, and another variable with the value of the first one. -/
def literalAndCopy : List Declarator :=
  [⟨{ name := "x" }, some (.literal { value := .bool true })⟩,
    ⟨{ name := "y" }, some (.identifier { name := "x" })⟩]

/-- A call of a function that has not been declared. -/
def callOfUndeclared : Expr := .call (.identifier { name := "f" }) [] {}

/-- The third of four initializers fails.  The two variables before it are bound, and the rest of
the declaration has not begun. -/
theorem declaration_stops_at_third :
    let m := Machine.new {}
    let m' := (m.setVariable "x" (.bool true)).setVariable "y" (.bool true)
    m.WellNumbered ∧ Declares literalAndCopy m [.bool true, .bool true] m' ∧
      (Stmt.declaration .letKind (literalAndCopy ++ ⟨{ name := "z" }, some callOfUndeclared⟩ ::
          literalAndCopy) {}).Makes m
        [.evaluate (.literal { value := .bool true }), .bind "x" (.bool true),
          .evaluate (.identifier { name := "x" }), .bind "y" (.bool true),
          .evaluate callOfUndeclared]
        (.error (.failed (.undefinedFunction "f" {})), m') ∧
      m'.lookupVariable "y" = some (.bool true) := by
  intro m m'
  obtain ⟨-, hends, hstops, hfound⟩ := declarators_in_order .letKind {}
  have hm : m.WellNumbered := ⟨by decide, by decide⟩
  have hends_of : ∀ {e : Expr} {n : Machine} {result},
      n.perform (evaluate 1 e) = result → result.1 ≠ .error .exhausted → e.EndsIn n result :=
    fun hrun hne => yields_of_perform_eq (steady_evaluate _) hrun hne
  have hfirst : literalAndCopy[0].ValueIs m (.bool true) m :=
    .evaluated rfl (hends_of rfl nofun)
  have hsecond : literalAndCopy[1].ValueIs (m.setVariable "x" (.bool true)) (.bool true)
      (m.setVariable "x" (.bool true)) :=
    .evaluated rfl (hends_of rfl nofun)
  have hdeclares : Declares literalAndCopy m [.bool true, .bool true] m' :=
    .cons hfirst (.cons hsecond (.nil _))
  have hcall : callOfUndeclared.EndsIn m' (.error (.failed (.undefinedFunction "f" {})), m') :=
    hends_of rfl nofun
  have hbefore := (hends literalAndCopy m _ _ m').mpr ⟨rfl, _, hdeclares, rfl⟩
  refine ⟨hm, hdeclares, ?_, ?_⟩
  · exact (hstops _ m _ _ m').mpr ⟨_, _, _, _, _, m', rfl, rfl, hbefore, hcall, rfl⟩
  · exact (hfound _ m _ m' hm hdeclares).2.2 [literalAndCopy[0]] literalAndCopy[1] rfl

end Treewalk
