import Treewalk.Proofs.Course

/-!
# Two runs side by side

A law about evaluation is shown for one operation of the machine at a time and lifted to all trees
here, once.  A `Coupling` relates the machines of two runs of the same tree.  Its fields say that
each operation of the machine keeps the relation, and the theorems say that evaluation does: either
both runs end in the same way in related machines, or the first one ends in a way that is excused.

The relation may depend on an index, which stands for what is fixed while a part of a tree is
evaluated: the machine at its start, or the scopes that can be reached.  Entering a call changes the
index, and leaving the call leads back.  What binds names in the current scope is only run at
indices that allow for it, so that expressions and statements can be told apart.

A law about a single run is the case of two equal machines; `Invariant` is a shorthand for it.

## Main definitions

* `Ends` — how two runs end.
* `Coupling`, `Coupling.Keeps` — a relation of machines, and the actions that keep it.
* `Coupling.keeps_evaluate`, `Coupling.keeps_execute`, `Coupling.ends_call` — evaluation keeps it.
* `Invariant` — the case of one run.
-/

namespace Treewalk

/-- How two runs end: with the same result in related machines, or the first one in an excused
way. -/
inductive Ends {α : Type} (rel : Machine → Machine → Prop) (excused : Stop → Prop) :
    EStateM.Result Stop Machine α → EStateM.Result Stop Machine α → Prop where
  | ok (a : α) {m n : Machine} : rel m n → Ends rel excused (.ok a m) (.ok a n)
  | error (s : Stop) {m n : Machine} : rel m n → Ends rel excused (.error s m) (.error s n)
  | excuse {s : Stop} {m : Machine} {r : EStateM.Result Stop Machine α} :
    excused s → Ends rel excused (.error s m) r

/-- The first of two runs is excused, or they have the same outcome. -/
theorem Ends.perform_or {α : Type} {rel : Machine → Machine → Prop} {excused : Stop → Prop}
    {act act' : Action α} {m n : Machine} (h : Ends rel excused (act m) (act' n)) :
    (∃ s, excused s ∧ (m.perform act).1 = .error s) ∨
      ((m.perform act).1 = (n.perform act').1 ∧ rel (m.perform act).2 (n.perform act').2) := by
  simp only [Machine.perform]
  cases hm : act m <;> cases hn : act' n <;> rw [hm, hn] at h <;> cases h
  case ok.ok.ok h => exact .inr ⟨rfl, h⟩
  case error.error.error h => exact .inr ⟨rfl, h⟩
  case error.ok.excuse h => exact .inl ⟨_, h, rfl⟩
  case error.error.excuse h => exact .inl ⟨_, h, rfl⟩

/-- Two runs that are never excused have the same outcome. -/
theorem Ends.perform {α : Type} {rel : Machine → Machine → Prop} {act act' : Action α}
    {m n : Machine} (h : Ends rel (fun _ => False) (act m) (act' n)) :
    (m.perform act).1 = (n.perform act').1 ∧ rel (m.perform act).2 (n.perform act').2 :=
  h.perform_or.resolve_left fun ⟨_, hexcused, _⟩ => hexcused

/-- A call is entered in both of two machines, is refused by both for the same limit, or is refused
by the first in an excused way. -/
structure SameLimit (excused : Stop → Prop) (m n : Machine) : Prop where
  enters : m.callDepth < m.config.maxCallDepth → n.callDepth < n.config.maxCallDepth
  refuses : m.config.maxCallDepth ≤ m.callDepth →
    (∀ location, excused (.failed (.callDepthExceeded m.config.maxCallDepth location))) ∨
      (n.config.maxCallDepth ≤ n.callDepth ∧ n.config.maxCallDepth = m.config.maxCallDepth)

/-- A request that binds names in the current scope, or may do so. -/
def Request.Binds : Request → Prop
  | .execute _ | .bind .. | .declare .. => True
  | _ => False

theorem Expr.Asks.not_binds {e : Expr} {r : Request} (h : e.Asks r) : ¬ r.Binds := by
  intro hb
  cases h <;> exact hb

/-- A relation of machines that every operation keeps. -/
structure Coupling (ι : Type) where
  rel : ι → Machine → Machine → Prop
  /-- The ways to end after which nothing is said about the second run. -/
  excused : Stop → Prop
  /-- The indices at which names may be bound in the current scope. -/
  binds : ι → Prop
  /-- The pairs of functions that are found under one name. -/
  matched : ι → Closure → Closure → Prop
  lookupVariable : ∀ {k m n}, rel k m n → ∀ name, m.lookupVariable name = n.lookupVariable name
  lookupFunction : ∀ {k m n}, rel k m n → ∀ name,
    Option.Rel (matched k) (m.lookupFunction name) (n.lookupFunction name)
  assign : ∀ {k m n}, rel k m n → ∀ name v, rel k (m.assign name v) (n.assign name v)
  halt : ∀ {k m n}, rel k m n → rel k m.halt n.halt
  setVariable : ∀ {k m n}, binds k → rel k m n → ∀ name v,
    rel k (m.setVariable name v) (n.setVariable name v)
  setFunction : ∀ {k m n}, binds k → rel k m n → ∀ name params body,
    rel k (m.setFunction name ⟨name, params, body, m.current.id⟩)
      (n.setFunction name ⟨name, params, body, n.current.id⟩)
  unimplemented : ∀ {k m n}, rel k m n → ∀ kind location,
    Ends (rel k) excused (Action.unimplemented kind location m)
      (Action.unimplemented kind location n)
  limit : ∀ {k m n}, rel k m n → SameLimit excused m n
  sameCode : ∀ {k f g}, matched k f g → f.params = g.params ∧ f.body = g.body
  enter : ∀ {k m n f g}, rel k m n → matched k f g →
    ∃ k', binds k' ∧ rel k' (m.enterCall (some f.home)) (n.enterCall (some g.home)) ∧
      ∀ m' n', rel k' m' n' → rel k m'.leaveCall n'.leaveCall

namespace Coupling

variable {ι : Type} (C : Coupling ι) {k : ι} {α β : Type}

/-- Two runs of an action from related machines end in related machines. -/
def Keeps (k : ι) (act : Action α) : Prop :=
  ∀ m n, C.rel k m n → Ends (C.rel k) C.excused (act m) (act n)

/-! ## Sequencing -/

theorem keeps_pure (a : α) : C.Keeps k (pure a : Action α) :=
  fun _ _ h => .ok a h

theorem keeps_throw (s : Stop) : C.Keeps k (throw s : Action α) :=
  fun _ _ h => .error s h

theorem keeps_modify {f : Machine → Machine}
    (hf : ∀ m n, C.rel k m n → C.rel k (f m) (f n)) : C.Keeps k (modify f : Action Unit) :=
  fun m n h => .ok () (hf m n h)

/-- Sequencing of two runs whose second halves may be different actions. -/
theorem ends_bind {act : Action α} {f g : α → Action β} {m n : Machine}
    (hact : Ends (C.rel k) C.excused (act m) (act n))
    (hf : ∀ a m n, C.rel k m n → Ends (C.rel k) C.excused (f a m) (g a n)) :
    Ends (C.rel k) C.excused ((act >>= f) m) ((act >>= g) n) := by
  simp only [bind, EStateM.bind]
  cases hm : act m <;> cases hn : act n <;> rw [hm, hn] at hact <;> cases hact
  case ok.ok.ok h => exact hf _ _ _ h
  case error.ok.excuse h => exact .excuse h
  case error.error.error h => exact .error _ h
  case error.error.excuse h => exact .excuse h

theorem keeps_bind {act : Action α} {f : α → Action β} (hact : C.Keeps k act)
    (hf : ∀ a, C.Keeps k (f a)) : C.Keeps k (act >>= f) :=
  fun m n h => C.ends_bind (hact m n h) fun a m' n' h' => hf a m' n' h'

theorem keeps_halt : C.Keeps k (Action.halt : Action α) :=
  C.keeps_bind (C.keeps_modify fun _ _ h => C.halt h) fun _ => C.keeps_throw _

theorem keeps_unimplemented (kind : String) (location : Location) :
    C.Keeps k (Action.unimplemented kind location) :=
  fun _ _ h => C.unimplemented h kind location

/-- The scope of a call is left on both sides, whatever happened in it. -/
theorem ends_inCall {k' : ι} {rel : Machine → Machine → Prop} {act : Action α} {m n : Machine}
    {p q : Option Nat} (hact : C.Keeps k' act) (h : C.rel k' (m.enterCall p) (n.enterCall q))
    (hleave : ∀ m' n', C.rel k' m' n' → rel m'.leaveCall n'.leaveCall) :
    Ends rel C.excused (Action.inCall p act m) (Action.inCall q act n) := by
  have hends := hact _ _ h
  simp only [Action.inCall]
  cases hm : act (m.enterCall p) <;> cases hn : act (n.enterCall q) <;>
    rw [hm, hn] at hends <;> cases hends
  case ok.ok.ok h' => exact .ok _ (hleave _ _ h')
  case error.ok.excuse h' => exact .excuse h'
  case error.error.error h' => exact .error _ (hleave _ _ h')
  case error.error.excuse h' => exact .excuse h'

/-! ## Plans -/

section Plans

variable {eval : Expr → Action Value} {exec : Stmt → Action Completion}
  (heval : ∀ e, C.Keeps k (eval e)) (hexec : C.binds k → ∀ s, C.Keeps k (exec s))

include heval hexec in
theorem keeps_request {r : Request} (hr : r.Binds → C.binds k) : C.Keeps k (r.run eval exec) := by
  cases r with
  | evaluate e => exact heval e
  | execute s => exact hexec (hr trivial) s
  | lookup name =>
    intro m n h
    show Ends _ _ (.ok (m.lookupVariable name) m) (.ok (n.lookupVariable name) n)
    rw [C.lookupVariable h name]
    exact .ok _ h
  | unimplemented kind location => exact C.keeps_unimplemented kind location
  | assign name v => exact C.keeps_modify fun _ _ h => C.assign h name v
  | bind name v => exact C.keeps_modify fun _ _ h => C.setVariable (hr trivial) h name v
  | declare name params body =>
    exact C.keeps_modify fun _ _ h => C.setFunction (hr trivial) h name params body
  | ret v => exact C.keeps_pure ()
  | halt => exact C.keeps_halt
  | fail f => exact C.keeps_throw _
  | exhaust => exact C.keeps_throw _

include heval hexec in
/-- Two runs of a plan make the same requests, since they get the same answers. -/
theorem keeps_plan {P : Request → Prop} {p : Plan α} (hp : p.Within P)
    (hP : ∀ r, P r → r.Binds → C.binds k) : C.Keeps k (p.run eval exec) := by
  induction p with
  | done a => exact C.keeps_pure a
  | ask r next ih =>
    exact C.keeps_bind (C.keeps_request heval hexec (hP r hp.1)) fun a => ih a (hp.2 a)

include heval hexec in
theorem keeps_planned {P : Request → Prop} {mark : α → Ending} {F : Scheme α}
    (p : Planned P mark F) (hP : ∀ r, P r → r.Binds → C.binds k) : C.Keeps k (F eval exec) := by
  rw [← p.run_plan]
  exact C.keeps_plan heval hexec p.within hP

end Plans

/-! ## Nodes and trees -/

section Nodes

variable {eval : Expr → Action Value} {exec : Stmt → Action Completion}

/-- Two calls of functions with the same code, given a relation for their bodies.  The machines
around the call need not be related in any other way. -/
theorem ends_call {k' : ι} {rel : Machine → Machine → Prop} {m n : Machine} {f g : Closure}
    (heval : ∀ e, C.Keeps k' (eval e)) (hexec : ∀ s, C.Keeps k' (exec s)) (hk' : C.binds k')
    (hlimit : SameLimit C.excused m n) (hcode : f.params = g.params ∧ f.body = g.body)
    (hrefused : rel m n)
    (h : C.rel k' (m.enterCall (some f.home)) (n.enterCall (some g.home)))
    (hleave : ∀ m' n', C.rel k' m' n' → rel m'.leaveCall n'.leaveCall)
    (args : List Value) (location : Location) :
    Ends rel C.excused (call eval exec f args location m) (call eval exec g args location n) := by
  rw [call_eq, call_eq]
  by_cases hm : m.config.maxCallDepth ≤ m.callDepth
  · rw [if_pos hm]
    rcases hlimit.refuses hm with hexcused | ⟨hn, heq⟩
    · exact .excuse (hexcused location)
    · rw [if_pos hn, heq]
      exact .error _ hrefused
  · have hn := hlimit.enters (by omega)
    rw [if_neg hm, if_neg (by omega : ¬ n.config.maxCallDepth ≤ n.callDepth),
      (f.planned args).run_plan, hcode.1, hcode.2, ← (g.planned args).run_plan]
    refine C.ends_inCall ?_ h hleave
    have hbody := C.keeps_plan heval (fun _ => hexec) (g.planned args).within fun _ _ _ => hk'
    exact C.keeps_bind hbody fun _ => C.keeps_pure _

variable (heval : ∀ k e, C.Keeps k (eval e)) (hexec : ∀ k, C.binds k → ∀ s, C.Keeps k (exec s))

include heval hexec in
/-- The function of a call is looked up before the arguments are evaluated and entered after
that. -/
theorem keeps_evaluateNode (e : Expr) : C.Keeps k (evaluateNode eval exec e) := by
  have hasks : ∀ r, e.Asks r → r.Binds → C.binds k := fun r hr hb => absurd hb hr.not_binds
  cases e.course with
  | plan p => exact C.keeps_planned (heval k) (hexec k) p hasks
  | call callee arguments location he p =>
    subst he
    intro m n h
    rw [evaluateNode_call, evaluateNode_call]
    cases callee.identifier? with
    | none => exact .error _ h
    | some id =>
      have hfound := C.lookupFunction h id.name
      dsimp only
      cases hm : m.lookupFunction id.name <;> cases hn : n.lookupFunction id.name <;>
        rw [hm, hn] at hfound <;> cases hfound
      case none.none.none => exact .error _ h
      case some.some.some f g hfg =>
        have hargs := C.keeps_planned (heval k) (hexec k) p hasks
        refine C.ends_bind (hargs m n h) fun args m' n' h' => ?_
        obtain ⟨k', hk', henter, hleave⟩ := C.enter h' hfg
        exact C.ends_call (heval k') (hexec k' hk') hk' (C.limit h') (C.sameCode hfg) h' henter
          hleave args location

include heval hexec in
theorem keeps_executeNode (hk : C.binds k) (rounds : Nat) (s : Stmt) :
    C.Keeps k (executeNode eval exec rounds s) :=
  C.keeps_planned (heval k) (hexec k) (s.planned rounds) fun _ _ _ => hk

end Nodes

/-- Evaluation keeps a coupling, whatever the tree: by induction on the levels, one node at a
time. -/
theorem keeps_levels (levels : Nat) :
    (∀ k e, C.Keeps k (evaluate levels e)) ∧
      ∀ k, C.binds k → ∀ s, C.Keeps k (execute levels s) := by
  induction levels with
  | zero => exact ⟨fun k e => C.keeps_throw _, fun k _ s => C.keeps_throw _⟩
  | succ levels ih =>
    exact ⟨fun k e => C.keeps_evaluateNode ih.1 ih.2 e,
      fun k hk s => C.keeps_executeNode ih.1 ih.2 hk levels s⟩

theorem keeps_evaluate (levels : Nat) (e : Expr) : C.Keeps k (evaluate levels e) :=
  (C.keeps_levels levels).1 k e

theorem keeps_execute (hk : C.binds k) (levels : Nat) (s : Stmt) :
    C.Keeps k (execute levels s) :=
  (C.keeps_levels levels).2 k hk s

theorem keeps_executeBody (hk : C.binds k) (levels : Nat) (body : List Stmt) :
    C.Keeps k (executeBody levels body) :=
  C.keeps_planned (fun e => C.keeps_evaluate levels e) (fun hk s => C.keeps_execute hk levels s)
    (bodyPlanned body) fun _ _ _ => hk

/-- Two calls of functions with the same code; see `ends_call`. -/
theorem ends_callClosure {k' : ι} {rel : Machine → Machine → Prop} {m n : Machine} {f g : Closure}
    (hk' : C.binds k') (hlimit : SameLimit C.excused m n)
    (hcode : f.params = g.params ∧ f.body = g.body) (hrefused : rel m n)
    (h : C.rel k' (m.enterCall (some f.home)) (n.enterCall (some g.home)))
    (hleave : ∀ m' n', C.rel k' m' n' → rel m'.leaveCall n'.leaveCall)
    (levels : Nat) (args : List Value) (location : Location) :
    Ends rel C.excused (callClosure levels f args location m)
      (callClosure levels g args location n) :=
  C.ends_call (fun e => C.keeps_evaluate levels e) (fun s => C.keeps_execute hk' levels s) hk'
    hlimit hcode hrefused h hleave args location

end Coupling

/-! ## One run -/

/-- A property of machines that every operation keeps. -/
structure Invariant (ι : Type) where
  holds : ι → Machine → Prop
  /-- The indices at which names may be bound in the current scope. -/
  binds : ι → Prop
  assign : ∀ {k m}, holds k m → ∀ name v, holds k (m.assign name v)
  halt : ∀ {k m}, holds k m → holds k m.halt
  setVariable : ∀ {k m}, binds k → holds k m → ∀ name v, holds k (m.setVariable name v)
  setFunction : ∀ {k m}, binds k → holds k m → ∀ name params body,
    holds k (m.setFunction name ⟨name, params, body, m.current.id⟩)
  enter : ∀ {k m}, holds k m → ∀ home, ∃ k', binds k' ∧ holds k' (m.enterCall (some home)) ∧
    ∀ m', holds k' m' → holds k m'.leaveCall

namespace Invariant

variable {ι : Type} (I : Invariant ι) {k : ι} {α : Type} {m : Machine}

/-- An invariant relates a machine to itself. -/
def toCoupling : Coupling ι where
  rel k m n := m = n ∧ I.holds k m
  excused _ := False
  binds := I.binds
  matched _ f g := f = g
  lookupVariable := by
    rintro k m n ⟨rfl, -⟩ name
    rfl
  lookupFunction := by
    rintro k m n ⟨rfl, -⟩ name
    cases m.lookupFunction name with
    | none => exact .none
    | some f => exact .some rfl
  assign := by
    rintro k m n ⟨rfl, h⟩ name v
    exact ⟨rfl, I.assign h name v⟩
  halt := by
    rintro k m n ⟨rfl, h⟩
    exact ⟨rfl, I.halt h⟩
  setVariable := by
    rintro k m n hk ⟨rfl, h⟩ name v
    exact ⟨rfl, I.setVariable hk h name v⟩
  setFunction := by
    rintro k m n hk ⟨rfl, h⟩ name params body
    exact ⟨rfl, I.setFunction hk h name params body⟩
  unimplemented := by
    rintro k m n ⟨rfl, h⟩ kind location
    rw [Action.unimplemented_eq]
    cases m.config.policy with
    | permissive => exact .ok _ ⟨rfl, h⟩
    | strict => exact .error _ ⟨rfl, h⟩
  limit := by
    rintro k m n ⟨rfl, -⟩
    exact ⟨id, fun h => .inr ⟨h, rfl⟩⟩
  sameCode := by
    rintro k f g rfl
    exact ⟨rfl, rfl⟩
  enter := by
    rintro k m n f g ⟨rfl, h⟩ rfl
    obtain ⟨k', hk', henter, hleave⟩ := I.enter h f.home
    refine ⟨k', hk', ⟨rfl, henter⟩, ?_⟩
    rintro m' n' ⟨rfl, h'⟩
    exact ⟨rfl, hleave m' h'⟩

/-- One run beside itself. -/
private theorem of_ends {P : Machine → Prop} {act : Action α}
    (h : Ends (fun m n => m = n ∧ P m) (fun _ => False) (act m) (act m)) :
    P (m.perform act).2 :=
  h.perform.2.2

theorem evaluate (h : I.holds k m) (levels : Nat) (e : Expr) :
    I.holds k (m.perform (evaluate levels e)).2 :=
  of_ends (I.toCoupling.keeps_evaluate levels e m m ⟨rfl, h⟩)

theorem execute (hk : I.binds k) (h : I.holds k m) (levels : Nat) (s : Stmt) :
    I.holds k (m.perform (execute levels s)).2 :=
  of_ends (I.toCoupling.keeps_execute hk levels s m m ⟨rfl, h⟩)

theorem executeBody (hk : I.binds k) (h : I.holds k m) (levels : Nat) (body : List Stmt) :
    I.holds k (m.perform (executeBody levels body)).2 :=
  of_ends (I.toCoupling.keeps_executeBody hk levels body m m ⟨rfl, h⟩)

/-- A property around a call, given the invariant inside it. -/
theorem callClosure {P : Machine → Prop} {f : Closure} (hk : I.binds k)
    (h : I.holds k (m.enterCall (some f.home))) (hrefused : P m)
    (hleave : ∀ m', I.holds k m' → P m'.leaveCall)
    (levels : Nat) (args : List Value) (location : Location) :
    P (m.perform (callClosure levels f args location)).2 := by
  have hlimit : SameLimit (fun _ => False) m m := ⟨id, fun h => .inr ⟨h, rfl⟩⟩
  refine of_ends (I.toCoupling.ends_callClosure hk hlimit ⟨rfl, rfl⟩ ⟨rfl, hrefused⟩ ⟨rfl, h⟩ ?_
    levels args location)
  rintro m' n' ⟨rfl, h'⟩
  exact ⟨rfl, hleave m' h'⟩

end Invariant

end Treewalk
