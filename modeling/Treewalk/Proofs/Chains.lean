import Treewalk.Proofs.Equivalence
import Treewalk.Proofs.Origin

/-!
# Chains of member expressions

A member expression is a base with links behind it: `a?.b[c].d` has the base `a` and three links.
The tree has the last link at its root, and its evaluation goes down to the base and comes back with
a value, or with the news that the chain has ended.  A reader follows the links from the left, and
stops at the first optional one that meets an absent value or null.  Both do the same, and both ask
for the same expressions in the same order.

A chain expression around any other one makes no difference.

## Main definitions

* `Link`, `Expr.base`, `Expr.links`, `Expr.linked` — member expressions from the left.
* `leftToRight` — to follow the links from the left.
* `chainPlan`, `chainTraced` — the requests of that, and what happens on the way.
* `Expr.ChainOf` — a member expression with or without a chain expression around it.
-/

namespace Treewalk

/-! ## Member expressions from the left -/

/-- A step from a value to one of its members. -/
structure Link where
  property : Expr
  computed : Bool
  optional : Bool
  location : Location

namespace Expr

def isMember : Expr → Bool
  | .member .. => true
  | _ => false

/-- What the links of an expression begin with. -/
def base : Expr → Expr
  | .member inner _ _ _ _ => inner.base
  | e => e

/-- The links of an expression, from the base on. -/
def links : Expr → List Link
  | .member inner property computed optional location =>
    inner.links ++ [⟨property, computed, optional, location⟩]
  | _ => []

/-- Put a link behind an expression. -/
def link (e : Expr) (l : Link) : Expr := .member e l.property l.computed l.optional l.location

/-- Put links behind an expression, one after the other. -/
def linked (e : Expr) (links : List Link) : Expr := links.foldl link e

@[simp] theorem linked_nil (e : Expr) : e.linked [] = e := rfl

@[simp] theorem linked_cons (e : Expr) (l : Link) (ls : List Link) :
    e.linked (l :: ls) = (e.link l).linked ls := rfl

theorem linked_append (e : Expr) (before after : List Link) :
    e.linked (before ++ after) = (e.linked before).linked after := List.foldl_append

theorem isMember_base (e : Expr) : e.base.isMember = false := by
  fun_induction base e with
  | case1 inner property computed optional location ih => exact ih
  | case2 e h =>
    cases e with
    | member => exact absurd rfl (h _ _ _ _ _)
    | _ => rfl

/-- An expression is its base with its links. -/
theorem linked_links (e : Expr) : e.base.linked e.links = e := by
  fun_induction base e with
  | case1 inner property computed optional location ih =>
    rw [links, linked_append, ih]
    rfl
  | case2 e h =>
    cases e with
    | member => exact absurd rfl (h _ _ _ _ _)
    | _ => rfl

theorem base_linked (e : Expr) (links : List Link) : (e.linked links).base = e.base := by
  induction links generalizing e with
  | nil => rfl
  | cons l ls ih => rw [linked_cons, ih]; rfl

theorem links_linked (e : Expr) (ls : List Link) : (e.linked ls).links = e.links ++ ls := by
  induction ls generalizing e with
  | nil => simp
  | cons l ls ih => rw [linked_cons, ih, link, links, List.append_assoc]; rfl

theorem base_of_not_member {e : Expr} (h : e.isMember = false) : e.base = e := by
  cases e <;> simp_all [isMember, base]

theorem links_eq_nil_iff (e : Expr) : e.links = [] ↔ e.isMember = false := by
  cases e <;> simp [links, isMember]

/-- An expression has one base and one list of links. -/
theorem linked_eq_iff {e : Expr} {ls : List Link} (h : e.isMember = false) (whole : Expr) :
    e.linked ls = whole ↔ e = whole.base ∧ ls = whole.links := by
  constructor
  · intro heq
    subst heq
    rw [base_linked, links_linked, (links_eq_nil_iff e).mpr h, base_of_not_member h]
    exact ⟨rfl, rfl⟩
  · rintro ⟨rfl, rfl⟩
    exact linked_links whole

end Expr

/-! ## The links from the left -/

section Loop

variable (eval : Expr → Action Value)

/-- Follow links from a value.  An optional one that meets an absent value or null is the last. -/
def followLinks : Value → List Link → Action Value
  | v, [] => return v
  | v, l :: ls =>
    if l.optional && v.isNullish then return .absent
    else do
      let key ← memberKey eval l.property l.computed
      followLinks (v.member key) ls

/-- Evaluate a base and follow the links behind it. -/
def leftToRight (e : Expr) (ls : List Link) : Action Value := do
  followLinks eval (← eval e) ls

end Loop

/-- The request for the key of a link.  A name stands for itself unless the key is computed. -/
def Link.keyPlan (l : Link) : Plan Value :=
  match if l.computed then none else l.property.identifier? with
  | some id => .done (.text id.name)
  | none => .one (.evaluate l.property)

/-- The requests of links. -/
def linksPlan : Value → List Link → Plan Value
  | v, [] => .done v
  | v, l :: ls =>
    if l.optional && v.isNullish then .done .absent
    else l.keyPlan.bind fun key => linksPlan (v.member key) ls

/-- The requests of a base and the links behind it. -/
def chainPlan (e : Expr) (ls : List Link) : Plan Value :=
  .ask (.evaluate e) fun v => linksPlan v ls

section Plans

variable (eval : Expr → Action Value) (exec : Stmt → Action Completion)

theorem run_keyPlan (l : Link) :
    l.keyPlan.run eval exec = memberKey eval l.property l.computed := by
  rw [memberKey_eq, Link.keyPlan]
  cases if l.computed then none else l.property.identifier? with
  | none => exact bind_pure _
  | some id => rfl

theorem run_linksPlan (v : Value) (ls : List Link) :
    (linksPlan v ls).run eval exec = followLinks eval v ls := by
  induction ls generalizing v with
  | nil => rfl
  | cons l ls ih =>
    rw [linksPlan, followLinks]
    by_cases hv : (l.optional && v.isNullish) = true
    · rw [if_pos hv, if_pos hv]
      rfl
    · rw [if_neg hv, if_neg hv, Plan.run_bind, run_keyPlan]
      simp only [ih]

theorem run_chainPlan (e : Expr) (ls : List Link) :
    (chainPlan e ls).run eval exec = leftToRight eval e ls := by
  simp only [chainPlan, Plan.run, Request.run, run_linksPlan]
  rfl

end Plans

theorem keyPlan_ordinary (l : Link) :
    l.keyPlan.Within Request.Ordinary ∧ l.keyPlan.Marked silent := by
  rw [Link.keyPlan]
  split
  · exact ⟨trivial, rfl⟩
  · exact ⟨⟨trivial, fun _ => trivial⟩, fun v => ⟨fun _ => rfl, nofun⟩⟩

theorem linksPlan_ordinary (v : Value) (ls : List Link) :
    (linksPlan v ls).Within Request.Ordinary ∧ (linksPlan v ls).Marked silent := by
  induction ls generalizing v with
  | nil => exact ⟨trivial, rfl⟩
  | cons l ls ih =>
    rw [linksPlan]
    split
    · exact ⟨trivial, rfl⟩
    · obtain ⟨hwithin, hmarked⟩ := keyPlan_ordinary l
      exact ⟨Plan.within_bind hwithin fun key => (ih _).1,
        Plan.marked_bind hmarked fun key => (ih _).2⟩

/-- Nothing but expressions is asked for. -/
def Planned.leftToRight (e : Expr) (ls : List Link) :
    Planned Request.Ordinary silent fun eval _ => Treewalk.leftToRight eval e ls where
  plan := chainPlan e ls
  within := ⟨trivial, fun v => (linksPlan_ordinary v ls).1⟩
  marked v := ⟨fun _ => (linksPlan_ordinary v ls).2, nofun⟩
  run_plan eval exec := run_chainPlan eval exec e ls

/-! ## The links from the root -/

/-- The requests of a chain that is evaluated from its root. -/
def linkPlan : Expr → Plan (Option Value)
  | .member inner property computed optional location =>
    (linkPlan inner).bind fun
      | none => .done none
      | some v =>
        if optional && v.isNullish then .done none
        else (Link.mk property computed optional location).keyPlan.bind fun key =>
          .done (some (v.member key))
  | e => (Plan.one (.evaluate e)).bind fun v => .done (some v)

section Root

variable {P : Request → Prop}

theorem plan_memberKey {l : Link} (h : P (.evaluate l.property)) :
    (Planned.memberKey l.property l.computed h).plan = l.keyPlan := by
  rw [Planned.memberKey, Link.keyPlan]
  split <;> simp_all <;> rfl

theorem plan_link {l : Link} (h : P (.evaluate l.property)) (v : Value) :
    (Planned.link l.property l.computed l.optional h v).plan =
      if l.optional && v.isNullish then .done none
      else l.keyPlan.bind fun key => .done (some (v.member key)) := by
  rw [Planned.link]
  split
  · rfl
  · rw [← plan_memberKey h]
    rfl

/-- The plan of a chain does not depend on what is known of its requests. -/
theorem plan_evaluateLink (e : Expr) (h : ∀ e' ∈ e.linkParts, P (.evaluate e')) :
    (Planned.evaluateLink e h).plan = linkPlan e := by
  fun_induction linkPlan e with
  | case1 inner property computed optional location ih =>
    rw [← ih fun e' he => h e' (by simp [Expr.linkParts, he])]
    refine congrArg (Plan.bind _) (funext fun o => ?_)
    cases o with
    | none => rfl
    | some v => exact plan_link (l := ⟨property, computed, optional, location⟩) _ v
  | case2 e he =>
    cases e with
    | member => exact absurd rfl (he _ _ _ _ _)
    | _ => rfl

/-- What is left of a chain behind an expression. -/
def restPlan (ls : List Link) : Option Value → Plan Value
  | none => .done .absent
  | some v => linksPlan v ls

theorem linkPlan_link (e : Expr) (l : Link) (ls : List Link) :
    (linkPlan (e.link l)).bind (restPlan ls) = (linkPlan e).bind (restPlan (l :: ls)) := by
  rw [Expr.link, linkPlan, Plan.bind_bind]
  refine congrArg (Plan.bind _) (funext fun o => ?_)
  cases o with
  | none => rfl
  | some v =>
    simp only [restPlan, linksPlan]
    by_cases hv : (l.optional && v.isNullish) = true
    · rw [if_pos hv, if_pos hv]
      rfl
    · rw [if_neg hv, if_neg hv, Plan.bind_bind]
      rfl

/-- From the root or from the left, the same requests are made: by induction on the links. -/
theorem linkPlan_linked (e : Expr) (ls : List Link) :
    (linkPlan (e.linked ls)).bind (restPlan []) = (linkPlan e).bind (restPlan ls) := by
  induction ls generalizing e with
  | nil => rfl
  | cons l ls ih => rw [Expr.linked_cons, ih, linkPlan_link]

/-- The requests of a chain are those of following its links from the left. -/
theorem plan_evaluateChain (e : Expr) (h : ∀ e' ∈ e.linkParts, P (.evaluate e')) :
    (Planned.evaluateChain e h).plan = chainPlan e.base e.links := by
  have hroot : (Planned.evaluateChain e h).plan = (linkPlan e).bind (restPlan []) := by
    rw [← plan_evaluateLink e h]
    refine congrArg (Plan.bind _) (funext fun o => ?_)
    cases o <;> rfl
  have hbase : (linkPlan e.base).bind (restPlan e.links) = chainPlan e.base e.links := by
    have hnot := e.isMember_base
    cases hcases : e.base with
    | member =>
      rw [hcases] at hnot
      cases hnot
    | _ => rfl
  have hlinked := linkPlan_linked e.base e.links
  rw [e.linked_links] at hlinked
  rw [hroot, hlinked, hbase]

end Root

/-! ## Evaluation -/

/-- A member expression, or a chain expression around it. -/
inductive Expr.ChainOf (e : Expr) (ls : List Link) : Expr → Prop where
  | bare : ChainOf e ls (e.linked ls)
  | wrapped (location : Location) : ChainOf e ls (.chain (e.linked ls) location)

/-- What happens when a base is evaluated and the links behind it are followed. -/
def chainTraced (levels : Nat) (e : Expr) (ls : List Link) : Traced Value :=
  (chainPlan e ls).traced (evaluateTraced levels) (executeTraced levels)

section Evaluation

variable {e whole : Expr} {ls : List Link} {levels : Nat} {m m' : Machine} {v : Value}

theorem Expr.course_of_member (h : e.isMember = true) :
    ∃ p, e.course = .plan p ∧ p.plan = chainPlan e.base e.links := by
  cases e with
  | member => exact ⟨_, rfl, plan_evaluateChain _ _⟩
  | _ => cases h

theorem Expr.course_chain (e : Expr) (location : Location) :
    ∃ p, (Expr.chain e location).course = .plan p ∧ p.plan = chainPlan e.base e.links :=
  ⟨_, rfl, plan_evaluateChain _ _⟩

/-- With or without a chain expression around it, a member expression makes the same requests. -/
theorem Expr.ChainOf.course (h : ChainOf e ls whole) (he : e.isMember = false) (hls : ls ≠ []) :
    ∃ p, whole.course = .plan p ∧ p.plan = chainPlan e ls := by
  obtain ⟨hbase, hlinks⟩ := (linked_eq_iff he (e.linked ls)).mp rfl
  cases h with
  | bare =>
    have hmember : (e.linked ls).isMember = true := by
      by_contra hnot
      rw [Bool.not_eq_true, ← links_eq_nil_iff, ← hlinks] at hnot
      exact hls hnot
    have hcourse := course_of_member hmember
    rwa [← hbase, ← hlinks] at hcourse
  | wrapped location =>
    have hcourse := course_chain (e.linked ls) location
    rwa [← hbase, ← hlinks] at hcourse

theorem evaluate_of_course (h : ∃ p, whole.course = .plan p ∧ p.plan = chainPlan e ls)
    (levels : Nat) : evaluate (levels + 1) whole = leftToRight (evaluate levels) e ls := by
  obtain ⟨p, -, hplan⟩ := h
  rw [evaluate, ← p.run_plan, hplan, run_chainPlan]

theorem events_of_course (h : ∃ p, whole.course = .plan p ∧ p.plan = chainPlan e ls)
    (levels : Nat) (m : Machine) :
    (evaluateTraced (levels + 1) whole m).events =
      .evaluates whole :: (chainTraced levels e ls m).events := by
  obtain ⟨p, hcourse, hplan⟩ := h
  simp only [evaluateTraced, nodeTraced, hcourse, hplan, chainTraced, Traced.bind, Traced.log,
    Machine.replay_cons, Machine.replay_nil, Event.apply, List.cons_append, List.nil_append]

/-! ## The end of a chain -/

/-- An optional link behind a chain goes on from its value, also if the chain had ended. -/
theorem linksPlan_append {l : Link} (hl : l.optional = true) (v : Value) (before after : List Link) :
    linksPlan v (before ++ l :: after) =
      (linksPlan v before).bind fun w => linksPlan w (l :: after) := by
  induction before generalizing v with
  | nil => rfl
  | cons k before ih =>
    rw [List.cons_append, linksPlan, linksPlan]
    by_cases hv : (k.optional && v.isNullish) = true
    · rw [if_pos hv, if_pos hv, Plan.bind, linksPlan, hl]
      rfl
    · rw [if_neg hv, if_neg hv, Plan.bind_bind]
      simp only [ih]

theorem chainPlan_append {l : Link} (hl : l.optional = true) (e : Expr)
    (before after : List Link) :
    chainPlan e (before ++ l :: after) =
      (chainPlan e before).bind fun w => linksPlan w (l :: after) := by
  simp only [chainPlan, Plan.bind, linksPlan_append hl]

theorem linksPlan_of_nullish {l : Link} (hl : l.optional = true) (hv : v.isNullish = true)
    (after : List Link) : linksPlan v (l :: after) = .done .absent := by
  rw [linksPlan, hl, hv]
  rfl

/-- The value is absent and the machine is as it was when the link was reached. -/
theorem leftToRight_of_nullish {l : Link} (hl : l.optional = true) (hv : v.isNullish = true)
    {before : List Link} (after : List Link)
    (hrun : leftToRight (evaluate levels) e before m = .ok v m') :
    leftToRight (evaluate levels) e (before ++ l :: after) m = .ok .absent m' := by
  rw [← run_chainPlan _ (execute levels)] at hrun ⊢
  rw [chainPlan_append hl, Plan.run_bind]
  simp only [bind, EStateM.bind, hrun, linksPlan_of_nullish hl hv]
  rfl

/-- Nothing has happened since the link was reached. -/
theorem events_of_nullish {l : Link} (hl : l.optional = true) (hv : v.isNullish = true)
    {before : List Link} (after : List Link)
    (hrun : leftToRight (evaluate levels) e before m = .ok v m') :
    (chainTraced levels e (before ++ l :: after) m).events =
      (chainTraced levels e before m).events := by
  have htells := (Planned.leftToRight e before).tells_traced (tells_evaluate levels)
    (tells_execute levels) (fun _ hr => hr) m
  have houtcome : (chainTraced levels e before m).outcome = .ok v := by
    rw [Machine.perform, hrun] at htells
    exact htells.outcome
  rw [chainTraced] at houtcome
  simp only [chainTraced, chainPlan_append hl, Plan.traced_bind, Traced.bind, houtcome,
    linksPlan_of_nullish hl hv, Plan.traced, Traced.pure, List.append_nil]

/-! ## Chain expressions -/

theorem leftToRight_nil (eval : Expr → Action Value) (e : Expr) : leftToRight eval e [] = eval e :=
  bind_pure _

/-- A chain expression takes one level more than what it is around, unless that is a member
expression. -/
theorem evaluate_chain (e : Expr) (location : Location) (levels : Nat) :
    evaluate (levels + 1) (.chain e location) = evaluate levels e ∨
      evaluate (levels + 1) (.chain e location) = evaluate (levels + 1) e := by
  rw [evaluate_of_course (e.course_chain location)]
  by_cases he : e.isMember = true
  · rw [evaluate_of_course (Expr.course_of_member he)]
    exact .inr rfl
  · rw [Bool.not_eq_true] at he
    rw [Expr.base_of_not_member he, (Expr.links_eq_nil_iff e).mpr he, leftToRight_nil]
    exact .inl rfl

theorem sameEnds_chain (e : Expr) (location : Location) (m : Machine) :
    SameEnds (fun levels => m.perform (evaluate levels (.chain e location)))
      fun levels => m.perform (evaluate levels e) := by
  refine Action.sameEnds_of_reaches (steady_evaluate _) (steady_evaluate e) ?_ ?_ m
  · intro levels
    refine ⟨levels + 1, ?_⟩
    have hmore := below_evaluate (Nat.le_succ levels) (.chain e location)
    rcases evaluate_chain e location levels with h | h
    · rw [h] at hmore
      exact hmore.trans (below_evaluate (Nat.le_succ levels) e)
    · rwa [h] at hmore
  · intro levels
    refine ⟨levels + 1, ?_⟩
    rcases evaluate_chain e location levels with h | h
    · simp only [h]
      exact .refl _
    · simp only [h]
      exact below_evaluate (Nat.le_succ levels) e

end Evaluation

/-- Every member expression is a base that is none, with links behind it.  Its evaluation, bare or
in a chain expression, is to evaluate the base and to follow the links from the left.  From an
optional link on that meets an absent value or null nothing is evaluated any more.  A chain
expression around any expression makes no difference. -/
theorem chains_from_the_left :
    (∀ e : Expr, e.isMember = true →
        e.base.isMember = false ∧ e.links ≠ [] ∧ e.base.linked e.links = e) ∧
      (∀ e ls whole, e.isMember = false → ls ≠ [] → Expr.ChainOf e ls whole →
        (∀ levels, evaluate (levels + 1) whole = leftToRight (evaluate levels) e ls) ∧
        ∀ before l after, ls = before ++ l :: after → l.optional = true →
          ∀ levels m v m', leftToRight (evaluate levels) e before m = .ok v m' →
            v.isNullish = true →
            evaluate (levels + 1) whole m = .ok .absent m' ∧
            (evaluateTraced (levels + 1) whole m).events =
              .evaluates whole :: (chainTraced levels e before m).events) ∧
      ∀ e location (m : Machine),
        SameEnds (fun levels => m.perform (evaluate levels (.chain e location)))
          fun levels => m.perform (evaluate levels e) := by
  refine ⟨?_, ?_, ?_⟩
  · intro e he
    refine ⟨e.isMember_base, ?_, e.linked_links⟩
    intro hnil
    rw [Expr.links_eq_nil_iff, he] at hnil
    cases hnil
  · intro e ls whole he hls hwhole
    have hcourse := hwhole.course he hls
    refine ⟨evaluate_of_course hcourse, ?_⟩
    rintro before l after rfl hl levels m v m' hrun hv
    rw [evaluate_of_course hcourse, events_of_course hcourse, events_of_nullish hl hv after hrun]
    exact ⟨leftToRight_of_nullish hl hv after hrun, rfl⟩
  · intro e location m
    exact sameEnds_chain e location m

/-- An object with null under a name. -/
def objectWithNull : Expr :=
  .object [⟨.init, .identifier { name := "a" }, .literal { value := .null }, false, false, false⟩] {}

/-- The link to that name. -/
def linkToA : Link := ⟨.identifier { name := "a" }, false, false, {}⟩

/-- An optional link whose key would fail, since it calls a function that is not there. -/
def linkByCall : Link := ⟨.call (.identifier { name := "f" }) [] {}, true, true, {}⟩

/-- `{a: null}.a?.[f()].a` ends at the second link, and the call is not begun. -/
theorem objectWithNull_ends_chain :
    let m := Machine.new {}
    let whole := Expr.chain (objectWithNull.linked [linkToA, linkByCall, linkToA]) {}
    leftToRight (evaluate 2) objectWithNull [linkToA] m = .ok .null m ∧
      evaluate 3 whole m = .ok .absent m ∧
      (evaluateTraced 3 whole m).events =
        [.evaluates whole, .evaluates objectWithNull, .evaluates (.literal { value := .null })] := by
  intro m whole
  obtain ⟨-, hchains, -⟩ := chains_from_the_left
  obtain ⟨-, hend⟩ := hchains objectWithNull [linkToA, linkByCall, linkToA] whole rfl
    (List.cons_ne_nil _ _) (.wrapped {})
  have hrun : leftToRight (evaluate 2) objectWithNull [linkToA] m = .ok .null m := rfl
  obtain ⟨hvalue, hevents⟩ := hend [linkToA] linkByCall [linkToA] rfl rfl 2 m .null m hrun rfl
  exact ⟨hrun, hvalue, hevents⟩

end Treewalk
