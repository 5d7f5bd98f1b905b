import Treewalk.Proofs.Equivalence
import Treewalk.Proofs.Provenance
import Treewalk.Proofs.Termination

/-!
# Expressions without effects

There are two ways for an expression to act on the machine: to call a function, and to assign to a
name.  An expression with neither of them in it leaves the machine as it was, also if it fails on
its way.  What it can fail for is known from its text and from the settings: an operator without a
rule, or a construct that the strict policy refuses.

Such an expression goes down into its own parts only, so that its size is a bound on the levels that
it needs.

## Main definitions

* `Expr.acts`, `Expr.Pure` — an expression that acts, and one with nothing in it that does.
* `Expr.Supported` — an expression all of whose operators have a rule.
* `Expr.Refused` — what a pure expression can fail for.
-/

namespace Treewalk

namespace Expr

/-- A call, or an assignment to a name. -/
def acts : Expr → Bool
  | .call .. => true
  | .assignment left _ _ => left.identifier?.isSome
  | _ => false

/-- Nothing in an expression acts on the machine, evaluated or not. -/
def Pure (e : Expr) : Prop :=
  ∀ e', (Node.expression e).Contains (.expression e') → e'.acts = false

/-- All operators in an expression have a rule. -/
def Supported (e : Expr) : Prop :=
  ∀ left operator right location,
    (Node.expression e).Contains (.expression (.binary left operator right location)) →
    operator ∈ ["+", "-", "*", "/", "%"]

/-- The ways to stop for an expression that neither calls nor assigns. -/
inductive Refused (e : Expr) (policy : Policy) : Stop → Prop where
  | operator {left right : Expr} {operator : String} {location : Location} :
    (Node.expression e).Contains (.expression (.binary left operator right location)) →
    operator ∉ ["+", "-", "*", "/", "%"] →
    Refused e policy (.failed (.unsupportedOperator operator location))
  | construct (kind : String) (location : Location) : policy = .strict →
    Refused e policy (.failed (.unimplemented kind location))

/-- What an expression contains: itself, and what the expressions right below it contain. -/
theorem contains_iff {e e' : Expr} :
    (Node.expression e).Contains (.expression e') ↔
      e = e' ∨ ∃ child ∈ e.children, (Node.expression child).Contains (.expression e') := by
  rw [Node.Contains, Relation.ReflTransGen.cases_head_iff]
  simp only [Node.expression.injEq, Node.children, List.mem_map, exists_exists_and_eq_and]

theorem pure_iff {e : Expr} : e.Pure ↔ e.acts = false ∧ ∀ child ∈ e.children, child.Pure := by
  simp only [Pure, contains_iff (e := e)]
  constructor
  · intro h
    exact ⟨h e (.inl rfl), fun child hchild e' he' => h e' (.inr ⟨child, hchild, he'⟩)⟩
  · rintro ⟨hacts, hchildren⟩ e' (rfl | ⟨child, hchild, he'⟩)
    · exact hacts
    · exact hchildren child hchild e' he'

theorem pure_of_children_eq_nil {e : Expr} (hacts : e.acts = false) (h : e.children = []) :
    e.Pure := by
  rw [pure_iff, h]
  exact ⟨hacts, by simp⟩

theorem supported_iff {e : Expr} :
    e.Supported ↔ (∀ left operator right location, e = .binary left operator right location →
      operator ∈ ["+", "-", "*", "/", "%"]) ∧ ∀ child ∈ e.children, child.Supported := by
  simp only [Supported, contains_iff (e := e)]
  constructor
  · intro h
    exact ⟨fun left operator right location he => h left operator right location (.inl he),
      fun child hchild left operator right location hcontains =>
        h left operator right location (.inr ⟨child, hchild, hcontains⟩)⟩
  · rintro ⟨hself, hchildren⟩ left operator right location (he | ⟨child, hchild, hcontains⟩)
    · exact hself left operator right location he
    · exact hchildren child hchild left operator right location hcontains

/-- What is refused is a fault. -/
theorem Refused.ne_exhausted {e : Expr} {policy : Policy} {s : Stop} (h : e.Refused policy s) :
    s ≠ .exhausted := by
  cases h <;> exact nofun

theorem Supported.not_refused {e : Expr} (h : e.Supported) (s : Stop) :
    ¬ e.Refused .permissive s := by
  intro hs
  cases hs with
  | operator hcontains hnot => exact hnot (h _ _ _ _ hcontains)
  | construct kind location hstrict => cases hstrict

end Expr

/-! ## One node -/

section Nodes

variable {root e : Expr} {m : Machine} {eval : Expr → Action Value}
  {exec : Stmt → Action Completion}

/-- The requests of a node that does not act. -/
theorem Expr.asks_leave {r : Request} (h : e.Asks r) (hacts : e.acts = false)
    (he : (Node.expression root).Contains (.expression e))
    (heval : ∀ part ∈ e.parts, (eval part).Maintains (· = m) (root.Refused m.config.policy)) :
    (r.run eval exec).Maintains (· = m) (root.Refused m.config.policy) := by
  have hrefuse : ∀ kind location, (Action.unimplemented kind location).Maintains (· = m)
      (root.Refused m.config.policy) := by
    intro kind location
    refine Action.maintains_unimplemented_of_policy ?_
    rintro _ rfl hstrict
    exact .construct kind location hstrict
  cases h with
  | part hpart => exact heval _ hpart
  | lookup id => exact maintains_lookup id.name
  | assign v hid =>
    rw [acts, hid] at hacts
    cases hacts
  | target hid => exact hrefuse _ _
  | method properties location => exact hrefuse _ _
  | accessor properties location => exact hrefuse _ _
  | operator hop =>
    exact Action.maintains_throw (.operator he (Operator.notMem_of_ofSymbol?_eq_none hop))

theorem leaves_evaluateNode (hacts : e.acts = false)
    (he : (Node.expression root).Contains (.expression e))
    (heval : ∀ part ∈ e.parts, (eval part).Maintains (· = m) (root.Refused m.config.policy)) :
    (evaluateNode eval exec e).Maintains (· = m) (root.Refused m.config.policy) := by
  cases e.course with
  | plan p => exact p.maintains fun r hr => Expr.asks_leave hr hacts he heval
  | call callee arguments location h p =>
    subst h
    cases hacts

end Nodes

/-! ## Whole expressions -/

/-- Every part of a pure expression leaves the machine as it is: by induction on the levels, of
which the size of the part is enough. -/
theorem Expr.Pure.leaves {root : Expr} (h : root.Pure) (m : Machine) (levels : Nat) (e : Expr)
    (he : (Node.expression root).Contains (.expression e)) (hsize : sizeOf e ≤ levels) :
    (evaluate levels e).Maintains (· = m) (root.Refused m.config.policy) := by
  induction levels generalizing e with
  | zero =>
    have := e.sizeOf_pos
    omega
  | succ levels ih =>
    have hclosed : Node.Closed (Node.expression root).Contains :=
      fun _ hn _ hchild => hn.tail hchild
    refine leaves_evaluateNode (h e he) he fun part hpart => ih part ?_ ?_
    · exact Expr.closed_parts hclosed he hpart
    · have := Expr.sizeOf_lt_of_mem_parts hpart
      omega

/-- The size of a pure expression is enough levels for its end. -/
theorem Expr.Pure.exists_endsIn {e : Expr} (h : e.Pure) (m : Machine) :
    ∃ outcome, e.EndsIn m (outcome, m) ∧
      ∀ s, outcome = .error s → e.Refused m.config.policy s := by
  have hends := h.leaves m (sizeOf e) e .refl (Nat.le_refl _) m rfl
  cases hrun : evaluate (sizeOf e) e m with
  | ok v m' =>
    rw [hrun] at hends
    obtain rfl : m' = m := hends
    refine ⟨.ok v, ?_, nofun⟩
    exact yields_of_perform_eq (steady_evaluate e) (by rw [Machine.perform, hrun]) nofun
  | error s m' =>
    rw [hrun] at hends
    obtain ⟨hrefused, rfl : m' = m⟩ := hends
    refine ⟨.error s, ?_, ?_⟩
    · refine yields_of_perform_eq (steady_evaluate e) (by rw [Machine.perform, hrun]) ?_
      intro heq
      exact hrefused.ne_exhausted (Except.error.inj heq)
    · intro s' heq
      cases heq
      exact hrefused

/-- An expression that contains no call and no assignment to a name comes to an end from any
machine, which it leaves exactly as it was.  It ends with a value or with a fault, and the fault is
an operator in it that has no rule, or a construct that the strict policy refuses.  So if all its
operators have a rule, the permissive policy makes it end with a value. -/
theorem pure_leaves_machine (e : Expr) (h : e.Pure) (m : Machine) :
    ∃ outcome, e.EndsIn m (outcome, m) ∧
      (∀ s, outcome = .error s → e.Refused m.config.policy s) ∧
      (e.Supported → m.config.policy = .permissive → ∃ v, outcome = .ok v) := by
  obtain ⟨outcome, hends, hrefused⟩ := h.exists_endsIn m
  refine ⟨outcome, hends, hrefused, ?_⟩
  intro hsupported hpermissive
  cases outcome with
  | ok v => exact ⟨v, rfl⟩
  | error s =>
    have hpermits := hrefused s rfl
    rw [hpermissive] at hpermits
    exact absurd hpermits (hsupported.not_refused s)

/-- An assignment to a member, which the strict policy refuses, and an operator. -/
def assignThenOperate (operator : String) : Expr :=
  .array
    [.assignment (.member (.identifier { name := "x" }) (.identifier { name := "y" }) false false {})
        (.literal { value := .null }) { line := 2 },
      .binary (.identifier { name := "x" }) operator (.identifier { name := "y" }) { line := 3 }] {}

theorem pure_assignThenOperate (operator : String) : (assignThenOperate operator).Pure := by
  have hname : ∀ name, (Expr.identifier { name }).Pure :=
    fun _ => Expr.pure_of_children_eq_nil rfl rfl
  have hnull : (Expr.literal { value := .null }).Pure := Expr.pure_of_children_eq_nil rfl rfl
  have hmember : ∀ name name' : String, (Expr.member (.identifier { name })
      (.identifier { name := name' }) false false {}).Pure :=
    fun _ _ => Expr.pure_iff.mpr ⟨rfl, by simp [Expr.children, hname]⟩
  refine Expr.pure_iff.mpr ⟨rfl, ?_⟩
  simp only [assignThenOperate, Expr.children, List.forall_mem_cons]
  refine ⟨Expr.pure_iff.mpr ⟨rfl, ?_⟩, Expr.pure_iff.mpr ⟨rfl, ?_⟩, by simp⟩
  · simp [Expr.children, hmember, hnull]
  · simp [Expr.children, hname]

theorem supported_assignThenOperate {operator : String}
    (h : operator ∈ ["+", "-", "*", "/", "%"]) : (assignThenOperate operator).Supported := by
  have hname : ∀ name, (Expr.identifier { name }).Supported :=
    fun _ => Expr.supported_iff.mpr ⟨by simp, by simp [Expr.children]⟩
  have hnull : (Expr.literal { value := .null }).Supported :=
    Expr.supported_iff.mpr ⟨by simp, by simp [Expr.children]⟩
  have hmember : ∀ name name' : String, (Expr.member (.identifier { name })
      (.identifier { name := name' }) false false {}).Supported :=
    fun _ _ => Expr.supported_iff.mpr ⟨by simp, by simp [Expr.children, hname]⟩
  refine Expr.supported_iff.mpr ⟨by simp [assignThenOperate], ?_⟩
  simp only [assignThenOperate, Expr.children, List.forall_mem_cons]
  refine ⟨Expr.supported_iff.mpr ⟨by simp, ?_⟩, Expr.supported_iff.mpr ⟨?_, ?_⟩, by simp⟩
  · simp [Expr.children, hmember, hnull]
  · rintro _ _ _ _ ⟨⟩
    exact h
  · simp [Expr.children, hname]

/-- Refused or not, both parts leave the machine as it is. -/
theorem assignThenOperate_leaves :
    let strict := Machine.new { policy := .strict }
    let permissive := Machine.new { policy := .permissive }
    ((assignThenOperate "**").Pure ∧
      ∃ outcome, (assignThenOperate "**").EndsIn strict (outcome, strict) ∧
        ∀ s, outcome = .error s → (assignThenOperate "**").Refused .strict s) ∧
      (assignThenOperate "+").Pure ∧ (assignThenOperate "+").Supported ∧
        ∃ v, (assignThenOperate "+").EndsIn permissive (.ok v, permissive) := by
  intro strict permissive
  have hpower := pure_assignThenOperate "**"
  have hplus := pure_assignThenOperate "+"
  have hsupported := supported_assignThenOperate (by decide : "+" ∈ ["+", "-", "*", "/", "%"])
  obtain ⟨outcome, hends, hrefused, -⟩ := pure_leaves_machine _ hpower strict
  obtain ⟨_, hends', -, hvalue⟩ := pure_leaves_machine _ hplus permissive
  obtain ⟨v, rfl⟩ := hvalue hsupported rfl
  exact ⟨⟨hpower, outcome, hends, hrefused⟩, hplus, hsupported, v, hends'⟩

end Treewalk
