import Treewalk.Proofs.Coupling

/-!
# The stack of scopes is balanced

Evaluation enters a scope for every call and leaves it on every way out: at the end of the body, at
a return, at a halt and at a fault, also at one that comes up while the parameters are bound.  What
is on the stack afterwards is what was on it before, scope by scope.

## Main definitions

* `Scope.place` — what tells a scope from the others.
* `Machine.SameStack` — two machines with the same scopes, up to what is bound in them.
-/

namespace Treewalk

/-- The number and the link of a scope.  The number is never given to another scope. -/
def Scope.place (s : Scope) : Nat × Option Nat := (s.id, s.parent)

namespace Scope

@[simp] theorem place_bindVariable (name : String) (v : Value) (s : Scope) :
    (s.bindVariable name v).place = s.place := rfl

@[simp] theorem place_bindFunction (name : String) (f : Closure) (s : Scope) :
    (s.bindFunction name f).place = s.place := rfl

end Scope

namespace Machine

/-- The second machine has the scopes of the first one in the same order, and the same global
scope; only their bindings may differ.  The depth of calls and the settings are the same too, and
the numbers that were given to scopes stay taken. -/
structure SameStack (m m' : Machine) : Prop where
  global : m'.global.place = m.global.place
  frames : m'.frames.map Scope.place = m.frames.map Scope.place
  callDepth : m'.callDepth = m.callDepth
  config : m'.config = m.config
  nextId_le : m.nextId ≤ m'.nextId

namespace SameStack

variable {m m' m'' : Machine}

theorem refl (m : Machine) : SameStack m m := ⟨rfl, rfl, rfl, rfl, Nat.le_refl _⟩

theorem trans (h : SameStack m m') (h' : SameStack m' m'') : SameStack m m'' where
  global := h'.global.trans h.global
  frames := h'.frames.trans h.frames
  callDepth := h'.callDepth.trans h.callDepth
  config := h'.config.trans h.config
  nextId_le := Nat.le_trans h.nextId_le h'.nextId_le

theorem scopes (h : SameStack m m') : m'.scopes.map Scope.place = m.scopes.map Scope.place := by
  simp [Machine.scopes, h.frames, h.global]

/-- The numbers on the stack are the first components of the places. -/
theorem ids (h : SameStack m m') : m'.scopes.map Scope.id = m.scopes.map Scope.id := by
  have := congrArg (List.map Prod.fst) h.scopes
  simpa [Scope.place, Function.comp_def] using this

theorem scopeDepth (h : SameStack m m') : m'.scopeDepth = m.scopeDepth := by
  have hlength := congrArg List.length h.frames
  rw [List.length_map, List.length_map] at hlength
  rw [Machine.scopeDepth, hlength, Machine.scopeDepth]

end SameStack

/-! ## Operations -/

theorem map_place_changeAt {f : Scope → Scope} (hf : ∀ s, (f s).place = s.place) (id : Nat)
    (l : List Scope) : (changeAt id f l).map Scope.place = l.map Scope.place := by
  induction l with
  | nil => rfl
  | cons s below ih =>
    by_cases h : s.id = id
    · simp [changeAt, h, hf]
    · simp [changeAt, h, ih]

theorem sameStack_changeScope {f : Scope → Scope} (hf : ∀ s, (f s).place = s.place) (id : Nat)
    (m : Machine) : m.SameStack (m.changeScope id f) := by
  rw [changeScope]
  split
  · exact ⟨hf _, rfl, rfl, rfl, Nat.le_refl _⟩
  · exact ⟨rfl, map_place_changeAt hf id _, rfl, rfl, Nat.le_refl _⟩

theorem sameStack_changeCurrent {f : Scope → Scope} (hf : ∀ s, (f s).place = s.place)
    (m : Machine) : m.SameStack (m.changeCurrent f) := by
  rw [changeCurrent]
  split
  · exact ⟨hf _, rfl, rfl, rfl, Nat.le_refl _⟩
  · next heq => exact ⟨rfl, by simp [heq, hf], rfl, rfl, Nat.le_refl _⟩

theorem sameStack_assign (name : String) (v : Value) (m : Machine) :
    m.SameStack (m.assign name v) := by
  rw [assign]
  split
  · exact sameStack_changeScope (Scope.place_bindVariable name v) _ m
  · exact sameStack_changeCurrent (Scope.place_bindVariable name v) m

/-- Entering a call and leaving it takes back the scope and the step in depth. -/
theorem sameStack_leaveCall {m m' : Machine} {parent : Option Nat}
    (h : (m.enterCall parent).SameStack m') : m.SameStack m'.leaveCall where
  global := h.global
  frames := by
    have := congrArg List.tail h.frames
    simpa [enterCall, enterLinked, leaveCall, exitScope, List.map_tail] using this
  callDepth := by
    have := h.callDepth
    simp only [enterCall, leaveCall, enterLinked, exitScope] at this ⊢
    omega
  config := h.config
  nextId_le := by
    have := h.nextId_le
    simp only [enterCall, enterLinked, leaveCall, exitScope] at this ⊢
    omega

/-! ## Properties of all scopes -/

section All

variable {Q : Scope → Prop} {m : Machine} {f : Scope → Scope}

private theorem forall_changeAt (hf : ∀ s, Q s → Q (f s)) (id : Nat) {l : List Scope}
    (h : ∀ s ∈ l, Q s) : ∀ s ∈ changeAt id f l, Q s := by
  induction l with
  | nil => exact h
  | cons t below ih =>
    rw [List.forall_mem_cons] at h
    rw [changeAt]
    split
    · exact List.forall_mem_cons.mpr ⟨hf t h.1, h.2⟩
    · exact List.forall_mem_cons.mpr ⟨h.1, ih h.2⟩

theorem forall_changeScope (hf : ∀ s, Q s → Q (f s)) (id : Nat) (h : ∀ s ∈ m.scopes, Q s) :
    ∀ s ∈ (m.changeScope id f).scopes, Q s := by
  simp only [scopes, List.forall_mem_append, List.forall_mem_singleton] at h
  rw [changeScope]
  split
  · simp only [scopes, List.forall_mem_append, List.forall_mem_singleton]
    exact ⟨h.1, hf _ h.2⟩
  · simp only [scopes, List.forall_mem_append, List.forall_mem_singleton]
    exact ⟨forall_changeAt hf id h.1, h.2⟩

/-- A change of the current scope need only be right there. -/
theorem forall_changeCurrent (hf : Q m.current → Q (f m.current)) (h : ∀ s ∈ m.scopes, Q s) :
    ∀ s ∈ (m.changeCurrent f).scopes, Q s := by
  rw [scopes, List.forall_mem_append, List.forall_mem_singleton] at h
  rw [current] at hf
  rw [scopes, changeCurrent, List.forall_mem_append, List.forall_mem_singleton]
  cases hframes : m.frames with
  | nil =>
    rw [hframes] at h hf
    exact ⟨h.1, hf h.2⟩
  | cons s below =>
    rw [hframes] at h hf
    rw [List.forall_mem_cons] at h
    exact ⟨List.forall_mem_cons.mpr ⟨hf h.1.1, h.1.2⟩, h.2⟩

theorem forall_assign {name : String} {v : Value} (hv : ∀ s, Q s → Q (s.bindVariable name v))
    (h : ∀ s ∈ m.scopes, Q s) : ∀ s ∈ (m.assign name v).scopes, Q s := by
  rw [assign]
  split
  · exact forall_changeScope hv _ h
  · exact forall_changeCurrent (hv _) h

end All

end Machine

/-- The stack is the one that evaluation began with; the index is the machine at the start. -/
def stackInvariant : Invariant Machine where
  holds := Machine.SameStack
  binds _ := True
  assign h name v := h.trans (Machine.sameStack_assign name v _)
  halt h := h.trans ⟨rfl, rfl, rfl, rfl, Nat.le_refl _⟩
  setVariable _ h name v :=
    h.trans (Machine.sameStack_changeCurrent (Scope.place_bindVariable name v) _)
  setFunction _ h name params body :=
    h.trans (Machine.sameStack_changeCurrent (Scope.place_bindFunction name _) _)
  enter := by
    intro k m h home
    refine ⟨m.enterCall (some home), trivial, .refl _, fun m' h' => ?_⟩
    exact h.trans (Machine.sameStack_leaveCall h')

theorem sameStack_evaluate (levels : Nat) (e : Expr) (m : Machine) :
    m.SameStack (m.perform (evaluate levels e)).2 :=
  stackInvariant.evaluate (.refl m) levels e

theorem sameStack_execute (levels : Nat) (s : Stmt) (m : Machine) :
    m.SameStack (m.perform (execute levels s)).2 :=
  stackInvariant.execute trivial (.refl m) levels s

theorem sameStack_executeBody (levels : Nat) (body : List Stmt) (m : Machine) :
    m.SameStack (m.perform (executeBody levels body)).2 :=
  stackInvariant.executeBody trivial (.refl m) levels body

theorem sameStack_callClosure (levels : Nat) (f : Closure) (args : List Value)
    (location : Location) (m : Machine) :
    m.SameStack (m.perform (callClosure levels f args location)).2 :=
  stackInvariant.callClosure trivial (.refl (m.enterCall (some f.home))) (.refl m)
    (fun _ h => Machine.sameStack_leaveCall h) levels args location

theorem sameStack_run (levels : Nat) (p : Program) (m : Machine) :
    m.SameStack (m.run levels p).2 := by
  have h : m.SameStack { m with halted := false } := ⟨rfl, rfl, rfl, rfl, Nat.le_refl _⟩
  exact h.trans (sameStack_executeBody levels p.body _)

/-- Whatever is evaluated, executed, called or run, and however it ends, the stack of scopes and the
depth of calls are the ones from before. -/
theorem stack_balanced (levels : Nat) (m : Machine) :
    (∀ s, m.SameStack (m.perform (execute levels s)).2) ∧
      (∀ body, m.SameStack (m.perform (executeBody levels body)).2) ∧
      (∀ e, m.SameStack (m.perform (evaluate levels e)).2) ∧
      (∀ f args location, m.SameStack (m.perform (callClosure levels f args location)).2) ∧
      ∀ p, m.SameStack (m.run levels p).2 :=
  ⟨fun s => sameStack_execute levels s m, fun body => sameStack_executeBody levels body m,
    fun e => sameStack_evaluate levels e m,
    fun f args location => sameStack_callClosure levels f args location m,
    fun p => sameStack_run levels p m⟩

end Treewalk
