import Treewalk.Proofs.Levels
import Treewalk.Proofs.Numbering

/-!
# Programs without loops come to an end

A program can go on for a long time in two ways: it runs a loop, or it calls functions that call
functions.  Calls are limited in depth.  Where there are no loops, a bound on the levels that are
needed can be told in advance: every call that may still be entered needs at most as many levels as
the largest of all functions, and the tree itself needs its size.

Functions are found by their names, so that the bound speaks of all functions that can be found.
While the tree is evaluated, new ones are declared only by the tree and by bodies of such functions.

## Main definitions

* `Stmt.loopFree` — no loop in a statement, nor in a function that it declares.
* `Machine.LoopFree` — no loop in any function that can be found.
* `Machine.Limited` — the calls that may still be entered, and the size of functions.
-/

namespace Treewalk

/-! ## Sizes of parts -/

namespace Expr

theorem sizeOf_le_of_mem_linkParts {e e' : Expr} (h : e' ∈ e.linkParts) : sizeOf e' ≤ sizeOf e := by
  refine forall_mem_linkParts (P := fun e' => sizeOf e' ≤ sizeOf e) ?_ (Nat.le_refl _) e' h
  intro inner property computed optional location hle
  simp only [member.sizeOf_spec] at hle
  omega

theorem sizeOf_lt_of_mem_parts {e e' : Expr} (h : e' ∈ e.parts) : sizeOf e' < sizeOf e := by
  cases e with
  | identifier id => cases h
  | literal node => cases h
  | chain e location =>
    have := sizeOf_le_of_mem_linkParts h
    simp only [chain.sizeOf_spec]
    omega
  | member inner property computed optional location =>
    simp only [member.sizeOf_spec]
    rcases List.mem_append.mp h with h | h
    · have := sizeOf_le_of_mem_linkParts h
      omega
    · obtain rfl := List.mem_singleton.mp h
      omega
  | assignment left right location =>
    obtain rfl := List.mem_singleton.mp h
    simp only [assignment.sizeOf_spec]
    omega
  | array elements location =>
    have : sizeOf e' < sizeOf elements := List.sizeOf_lt_of_mem h
    simp only [array.sizeOf_spec]
    omega
  | object properties location =>
    obtain ⟨p, hp, he⟩ := List.mem_flatMap.mp h
    have hlt := List.sizeOf_lt_of_mem hp
    obtain ⟨kind, key, value, computed, shorthand, method⟩ := p
    simp only [object.sizeOf_spec, Property.mk.sizeOf_spec] at hlt ⊢
    simp only [List.mem_cons, List.not_mem_nil, or_false] at he
    rcases he with rfl | rfl <;> omega
  | binary left operator right location =>
    simp only [parts, List.mem_cons, List.not_mem_nil, or_false] at h
    simp only [binary.sizeOf_spec]
    rcases h with rfl | rfl <;> omega
  | call callee arguments location =>
    have : sizeOf e' < sizeOf arguments := List.sizeOf_lt_of_mem h
    simp only [call.sizeOf_spec]
    omega

end Expr

namespace Stmt

theorem sizeOf_lt_of_mem_expressions {s : Stmt} {e : Expr} (h : e ∈ s.expressions) :
    sizeOf e < sizeOf s := by
  cases s with
  | empty location => cases h
  | debugger location => cases h
  | ifElse test consequent alternate location =>
    obtain rfl := List.mem_singleton.mp h
    simp only [ifElse.sizeOf_spec]
    omega
  | whileLoop test body location =>
    obtain rfl := List.mem_singleton.mp h
    simp only [whileLoop.sizeOf_spec]
    omega
  | block body location => cases h
  | expression e' location =>
    obtain rfl := List.mem_singleton.mp h
    simp only [expression.sizeOf_spec]
    omega
  | function id isAsync generator params body bodyLocation location => cases h
  | declaration kind declarations location =>
    obtain ⟨d, hd, he⟩ := List.mem_filterMap.mp h
    have hlt := List.sizeOf_lt_of_mem hd
    obtain ⟨id, init⟩ := d
    obtain rfl : init = some e := he
    simp only [declaration.sizeOf_spec, Declarator.mk.sizeOf_spec, Option.some.sizeOf_spec] at hlt ⊢
    omega
  | array children location =>
    have : sizeOf e < sizeOf children := List.sizeOf_lt_of_mem h
    simp only [array.sizeOf_spec]
    omega
  | ret argument location =>
    obtain rfl : argument = some e := by simpa [expressions] using h
    simp only [ret.sizeOf_spec, Option.some.sizeOf_spec]
    omega

theorem sizeOf_lt_of_mem_statements {s s' : Stmt} (h : s' ∈ s.statements) :
    sizeOf s' < sizeOf s := by
  cases s with
  | ifElse test consequent alternate location =>
    simp only [ifElse.sizeOf_spec]
    rcases List.mem_cons.mp h with rfl | h
    · omega
    · obtain rfl : alternate = some s' := by simpa using h
      simp only [Option.some.sizeOf_spec]
      omega
  | whileLoop test body location =>
    obtain rfl := List.mem_singleton.mp h
    simp only [whileLoop.sizeOf_spec]
    omega
  | block body location =>
    have : sizeOf s' < sizeOf body := List.sizeOf_lt_of_mem h
    simp only [block.sizeOf_spec]
    omega
  | _ => cases h

/-! ## Loops -/

mutual

/-- No loop in a statement, nor in a function that it declares.  Expressions have no statements in
them. -/
def loopFree : Stmt → Bool
  | .whileLoop .. => false
  | .ifElse _ consequent alternate _ => consequent.loopFree && optionalLoopFree alternate
  | .block body _ => allLoopFree body
  | .function _ _ _ _ body _ _ => allLoopFree body
  | _ => true

/-- No loop in a list of statements. -/
def allLoopFree : List Stmt → Bool
  | [] => true
  | s :: ss => s.loopFree && allLoopFree ss

/-- No loop in a statement that may be missing. -/
def optionalLoopFree : Option Stmt → Bool
  | none => true
  | some s => s.loopFree

end

theorem allLoopFree_iff {ss : List Stmt} :
    allLoopFree ss = true ↔ ∀ s ∈ ss, s.loopFree = true := by
  induction ss with
  | nil => simp [allLoopFree]
  | cons s ss ih => simp [allLoopFree, ih]

theorem loopFree_of_mem_statements {s s' : Stmt} (h : s.loopFree = true) (hs : s' ∈ s.statements) :
    s'.loopFree = true := by
  cases s with
  | ifElse test consequent alternate location =>
    simp only [loopFree, Bool.and_eq_true] at h
    rcases List.mem_cons.mp hs with rfl | hs
    · exact h.1
    · obtain rfl : alternate = some s' := by simpa using hs
      exact h.2
  | whileLoop test body location => cases h
  | block body location => exact allLoopFree_iff.mp h s' hs
  | _ => cases hs

end Stmt

/-- No loop in the body of a function. -/
def Closure.LoopFree (f : Closure) : Prop := Stmt.allLoopFree f.body = true

/-- No loop in any function that can be found. -/
def Machine.LoopFree (m : Machine) : Prop :=
  ∀ s ∈ m.scopes, ∀ name f, Entries.get? name s.funs = some f → f.LoopFree

/-! ## Bounds -/

/-- A function without loops whose parts are not larger than a bound. -/
structure Closure.Small (size : Nat) (f : Closure) : Prop where
  evaluates : ∀ e, f.Asks (.evaluate e) → sizeOf e ≤ size
  executes : ∀ s, f.Asks (.execute s) → s.loopFree = true ∧ sizeOf s ≤ size

theorem Closure.small_of_le {size : Nat} {f : Closure} (hloop : f.LoopFree)
    (hparams : sizeOf f.params ≤ size) (hbody : sizeOf f.body ≤ size) : f.Small size where
  evaluates e h := by
    cases h with
    | @default p e hp he =>
      have hlt := List.sizeOf_lt_of_mem hp
      obtain ⟨id, init⟩ := p
      obtain rfl : init = some e := he
      simp only [Parameter.mk.sizeOf_spec, Option.some.sizeOf_spec] at hlt
      omega
  executes s h := by
    cases h with
    | body hs =>
      have := List.sizeOf_lt_of_mem hs
      exact ⟨Stmt.allLoopFree_iff.mp hloop s hs, by omega⟩

/-- All functions of a scope are small. -/
def Scope.Small (size : Nat) (s : Scope) : Prop :=
  ∀ name f, Entries.get? name s.funs = some f → f.Small size

theorem Scope.Small.bindFunction {size : Nat} {s : Scope} (h : s.Small size) (name : String)
    {f : Closure} (hf : f.Small size) : (s.bindFunction name f).Small size :=
  Entries.forall_insert hf h

namespace Machine

/-- At most so many calls may still be entered, and all functions are small. -/
structure Limited (size rest : Nat) (m : Machine) : Prop where
  depth : m.config.maxCallDepth ≤ m.callDepth + rest
  scopes : ∀ s ∈ m.scopes, s.Small size

namespace Limited

variable {size rest : Nat} {m : Machine}

theorem assign (h : m.Limited size rest) (name : String) (v : Value) :
    (m.assign name v).Limited size rest where
  depth := by
    have hstack := sameStack_assign name v m
    rw [hstack.config, hstack.callDepth]
    exact h.depth
  scopes := forall_assign (fun _ hs => hs) h.scopes

theorem changeCurrent (h : m.Limited size rest) {f : Scope → Scope}
    (hplace : ∀ s, (f s).place = s.place) (hf : ∀ s : Scope, s.Small size → (f s).Small size) :
    (m.changeCurrent f).Limited size rest where
  depth := by
    have hstack := sameStack_changeCurrent hplace m
    rw [hstack.config, hstack.callDepth]
    exact h.depth
  scopes := forall_changeCurrent (hf _) h.scopes

theorem enterCall (h : m.Limited size (rest + 1)) (parent : Option Nat) :
    (m.enterCall parent).Limited size rest where
  depth := by
    have := h.depth
    simp only [Machine.enterCall, enterLinked]
    omega
  scopes := by
    refine List.forall_mem_cons.mpr ⟨?_, h.scopes⟩
    intro name f hf
    cases hf

theorem leaveCall (h : m.Limited size rest) : m.leaveCall.Limited size (rest + 1) where
  depth := by
    have := h.depth
    simp only [Machine.leaveCall, exitScope]
    omega
  scopes s hs := h.scopes s
    (((List.tail_sublist m.frames).append (List.Sublist.refl [m.global])).subset hs)

/-- A function that is found is small. -/
theorem lookupFunction (h : m.Limited size rest) {name : String} {f : Closure}
    (hf : m.lookupFunction name = some f) : f.Small size := by
  obtain ⟨s, hs, hget⟩ := exists_of_lookupFunction hf
  exact h.scopes s hs name f hget

end Limited

end Machine

/-! ## Enough levels -/

/-- A stop for another reason than a lack of levels. -/
def Stop.Expected (s : Stop) : Prop := s ≠ .exhausted

theorem Stop.expected_halted : Stop.Expected .halted := by
  intro h
  cases h

theorem Stop.expected_failed (f : Fault) : Stop.Expected (.failed f) := by
  intro h
  cases h

section Requests

variable {size rest : Nat} {eval : Expr → Action Value} {exec : Stmt → Action Completion}

theorem maintains_lookup (name : String) {I : Machine → Prop} {E : Stop → Prop} :
    ((Request.lookup name).run eval exec).Maintains I E :=
  fun _ h => h

/-- Bind a variable, as a declaration or a parameter does. -/
theorem maintains_bindName (name : String) (v : Value) :
    ((Request.bind name v).run eval exec).Maintains (Machine.Limited size rest) Stop.Expected :=
  Action.maintains_modify fun _ h =>
    h.changeCurrent (Scope.place_bindVariable name v) fun _ hs => hs

/-- The requests of an expression, given its parts. -/
theorem Expr.maintains_asks {e : Expr} {r : Request} (h : e.Asks r)
    (heval : ∀ e' ∈ e.parts, (eval e').Maintains (Machine.Limited size rest) Stop.Expected) :
    (r.run eval exec).Maintains (Machine.Limited size rest) Stop.Expected := by
  cases h with
  | part he => exact heval _ he
  | lookup id => exact maintains_lookup id.name
  | assign v hid => exact Action.maintains_modify fun _ h => h.assign _ v
  | target hid => exact Action.maintains_unimplemented (Stop.expected_failed _)
  | method properties location => exact Action.maintains_unimplemented (Stop.expected_failed _)
  | accessor properties location => exact Action.maintains_unimplemented (Stop.expected_failed _)
  | operator hop => exact Action.maintains_throw (Stop.expected_failed _)

/-- The requests of a statement without loops, given its parts. -/
theorem Stmt.maintains_asks {s : Stmt} {r : Request} (h : s.Asks r) (hloop : s.loopFree = true)
    (hsize : sizeOf s ≤ size)
    (heval : ∀ e ∈ s.expressions, (eval e).Maintains (Machine.Limited size rest) Stop.Expected)
    (hexec : ∀ s' ∈ s.statements, (exec s').Maintains (Machine.Limited size rest) Stop.Expected) :
    (r.run eval exec).Maintains (Machine.Limited size rest) Stop.Expected := by
  cases h with
  | expression he => exact heval _ he
  | statement hs => exact hexec _ hs
  | halt location =>
    exact Action.maintains_halt Stop.expected_halted fun _ h => ⟨h.depth, h.scopes⟩
  | rounds test body location => cases hloop
  | isAsync => exact Action.maintains_unimplemented (Stop.expected_failed _)
  | generator => exact Action.maintains_unimplemented (Stop.expected_failed _)
  | declare id params body bodyLocation location =>
    refine Action.maintains_modify fun m h =>
      h.changeCurrent (Scope.place_bindFunction id.name _) fun _ hs => hs.bindFunction id.name ?_
    simp only [function.sizeOf_spec] at hsize
    exact Closure.small_of_le hloop (by dsimp only; omega) (by dsimp only; omega)
  | bind v hd => exact maintains_bindName _ v
  | ret argument location v => exact Action.maintains_pure ()

/-- The requests of the body of a call, given the parts of a small function. -/
theorem Closure.maintains_asks {f : Closure} {r : Request} (h : f.Asks r) (hf : f.Small size)
    (heval : ∀ e, sizeOf e ≤ size →
      (eval e).Maintains (Machine.Limited size rest) Stop.Expected)
    (hexec : ∀ s : Stmt, s.loopFree = true → sizeOf s ≤ size →
      (exec s).Maintains (Machine.Limited size rest) Stop.Expected) :
    (r.run eval exec).Maintains (Machine.Limited size rest) Stop.Expected := by
  cases h with
  | default hp he => exact heval _ (hf.evaluates _ (.default hp he))
  | bind v hp => exact maintains_bindName _ v
  | body hs =>
    have hsmall := hf.executes _ (.body hs)
    exact hexec _ hsmall.1 hsmall.2

/-- A call of a small function is refused, or there is one call less to enter. -/
theorem maintains_call {f : Closure} (hf : f.Small size)
    (heval : ∀ rest', rest = rest' + 1 → ∀ e, sizeOf e ≤ size →
      (eval e).Maintains (Machine.Limited size rest') Stop.Expected)
    (hexec : ∀ rest', rest = rest' + 1 → ∀ s : Stmt, s.loopFree = true → sizeOf s ≤ size →
      (exec s).Maintains (Machine.Limited size rest') Stop.Expected)
    (args : List Value) (location : Location) :
    (call eval exec f args location).Maintains (Machine.Limited size rest) Stop.Expected := by
  intro m h
  rw [call_eq]
  by_cases hlimit : m.config.maxCallDepth ≤ m.callDepth
  · rw [if_pos hlimit]
    exact ⟨Stop.expected_failed _, h⟩
  · rw [if_neg hlimit]
    have hdepth := h.depth
    obtain ⟨rest', rfl⟩ : ∃ rest', rest = rest' + 1 := ⟨rest - 1, by omega⟩
    have hbody : ((f.planned args).plan.run eval exec).Maintains (Machine.Limited size rest')
        Stop.Expected :=
      Plan.maintains_run (f.planned args).within fun r hr =>
        Closure.maintains_asks hr hf (heval rest' rfl) (hexec rest' rfl)
    exact Action.maintains_inCall (Action.maintains_bind hbody fun _ => Action.maintains_pure _)
      (h.enterCall _) fun _ h' => h'.leaveCall

end Requests

theorem Expr.sizeOf_pos (e : Expr) : 0 < sizeOf e := by
  cases e <;> simp +arith

theorem Stmt.sizeOf_pos (s : Stmt) : 0 < sizeOf s := by
  cases s <;> simp +arith

/-- With so many levels for the tree and as many for each call as a function may need, evaluation
does not give up.  The induction is on the levels: a part is smaller than its node, and a call
trades one of the calls that may still be entered for the size of its function. -/
theorem limited_levels (size levels : Nat) :
    (∀ rest e, sizeOf e + rest * size ≤ levels →
      (evaluate levels e).Maintains (Machine.Limited size rest) Stop.Expected) ∧
    ∀ rest (s : Stmt), s.loopFree = true → sizeOf s ≤ size → sizeOf s + rest * size ≤ levels →
      (execute levels s).Maintains (Machine.Limited size rest) Stop.Expected := by
  induction levels with
  | zero =>
    refine ⟨fun rest e h => ?_, fun rest s _ _ h => ?_⟩
    · have := e.sizeOf_pos
      omega
    · have := s.sizeOf_pos
      omega
  | succ levels ih =>
    refine ⟨fun rest e h => ?_, fun rest s hloop hsize h => ?_⟩
    · have hparts : ∀ e' ∈ e.parts,
          (evaluate levels e').Maintains (Machine.Limited size rest) Stop.Expected := by
        intro e' he
        have := Expr.sizeOf_lt_of_mem_parts he
        exact ih.1 rest e' (by omega)
      have hpos := e.sizeOf_pos
      have hasks : ∀ r, e.Asks r → (r.run (evaluate levels) (execute levels)).Maintains
          (Machine.Limited size rest) Stop.Expected :=
        fun r hr => Expr.maintains_asks hr hparts
      show (evaluateNode (evaluate levels) (execute levels) e).Maintains _ _
      cases e.course with
      | plan p => exact p.maintains hasks
      | call callee arguments location he p =>
        have hargs := p.maintains hasks
        -- The function is found before the arguments are evaluated, where all functions are small.
        subst he
        intro m hm
        rw [evaluateNode_call]
        cases callee.identifier? with
        | none => exact ⟨Stop.expected_failed _, hm⟩
        | some id =>
          dsimp only
          cases hfound : m.lookupFunction id.name with
          | none => exact ⟨Stop.expected_failed _, hm⟩
          | some f =>
            refine Action.maintains_bind hargs (fun args => ?_) m hm
            refine maintains_call (hm.lookupFunction hfound) ?_ ?_ args location
            · -- The call that is entered pays for the size of its function.
              rintro rest' rfl e' he'
              rw [Nat.succ_mul] at h
              exact ih.1 rest' e' (by omega)
            · rintro rest' rfl s hloop hs
              rw [Nat.succ_mul] at h
              exact ih.2 rest' s hloop hs (by omega)
    · refine (s.planned levels).maintains fun r hr => Stmt.maintains_asks hr hloop hsize ?_ ?_
      · intro e he
        have := Stmt.sizeOf_lt_of_mem_expressions he
        exact ih.1 rest e (by omega)
      · intro s' hs
        have := Stmt.sizeOf_lt_of_mem_statements hs
        exact ih.2 rest s' (Stmt.loopFree_of_mem_statements hloop hs) (by omega) (by omega)

/-! ## Whole runs -/

theorem Entries.mem_of_get? {α : Type} {name : String} {x : α} {es : Entries α}
    (h : es.get? name = some x) : (name, x) ∈ es := by
  induction es with
  | nil => cases h
  | cons e es ih =>
    obtain ⟨k, y⟩ := e
    rw [get?] at h
    split at h
    · next hk => simp [hk, Option.some.inj h]
    · exact List.mem_cons_of_mem _ (ih h)

/-- A function is smaller than the stack that it is found on. -/
theorem Closure.sizeOf_lt_of_get? {f : Closure} {name : String} {s : Scope} {l : List Scope}
    (hs : s ∈ l) (hf : Entries.get? name s.funs = some f) : sizeOf f < sizeOf l := by
  have hscope := List.sizeOf_lt_of_mem hs
  have hentry := List.sizeOf_lt_of_mem (Entries.mem_of_get? hf)
  obtain ⟨id, parent, vars, funs⟩ := s
  simp only [Scope.mk.sizeOf_spec, Prod.mk.sizeOf_spec] at hscope hentry
  omega

/-- The number of calls that may still be entered. -/
def Machine.callsLeft (m : Machine) : Nat := m.config.maxCallDepth - m.callDepth

theorem Machine.LoopFree.limited {m : Machine} (h : m.LoopFree) {size : Nat}
    (hsize : sizeOf m.scopes ≤ size) : m.Limited size m.callsLeft where
  depth := by
    rw [callsLeft]
    omega
  scopes s hs name f hf := by
    have hlt := Closure.sizeOf_lt_of_get? hs hf
    have hf := h s hs name f hf
    obtain ⟨name, params, body, home⟩ := f
    simp only [Closure.mk.sizeOf_spec] at hlt
    exact Closure.small_of_le hf (by dsimp only; omega) (by dsimp only; omega)

theorem Action.Maintains.perform_ne {α : Type} {I : Machine → Prop} {act : Action α} {m : Machine}
    (h : act.Maintains I Stop.Expected) (hm : I m) : (m.perform act).1 ≠ .error .exhausted := by
  have hends := h m hm
  rw [Machine.perform]
  cases hact : act m with
  | ok a m' =>
    intro h
    cases h
  | error s m' =>
    rw [hact] at hends
    exact fun heq => hends.1 (Except.error.inj heq)

/-- A run that may always go down one level more. -/
theorem Finishes.succ {α : Type} {run : Nat → Except Stop α × Machine} (h : Finishes run) :
    Finishes fun levels => run (levels + 1) := by
  obtain ⟨result, hne, levels, heq⟩ := h
  exact ⟨result, hne, levels, fun more hmore => heq (more + 1) (Nat.le_succ_of_le hmore)⟩

section Runs

variable {m : Machine} (h : m.LoopFree)

include h

theorem finishes_evaluate (e : Expr) : Finishes fun levels => m.perform (evaluate levels e) := by
  let size := sizeOf m.scopes
  have hlimited : m.Limited size m.callsLeft := h.limited (Nat.le_refl _)
  have hkept := (limited_levels size (sizeOf e + m.callsLeft * size)).1 _ e (Nat.le_refl _)
  exact finishes_of_ne (fun more hmore => below_evaluate hmore e) (hkept.perform_ne hlimited)

theorem finishes_execute {s : Stmt} (hs : s.loopFree = true) :
    Finishes fun levels => m.perform (execute levels s) := by
  let size := sizeOf m.scopes + sizeOf s
  have hlimited : m.Limited size m.callsLeft := h.limited (Nat.le_add_right _ _)
  have hkept := (limited_levels size (sizeOf s + m.callsLeft * size)).2 _ s hs
    (Nat.le_add_left _ _) (Nat.le_refl _)
  exact finishes_of_ne (fun more hmore => below_execute hmore s) (hkept.perform_ne hlimited)

/-- A body is executed as a block is, one level further up. -/
theorem finishes_executeBody {body : List Stmt} (hbody : Stmt.allLoopFree body = true) :
    Finishes fun levels => m.perform (executeBody levels body) :=
  (finishes_execute h (s := .block body {}) hbody).succ

theorem finishes_callClosure {f : Closure} (hf : f.LoopFree) (args : List Value)
    (location : Location) :
    Finishes fun levels => m.perform (callClosure levels f args location) := by
  let size := sizeOf m.scopes + sizeOf f.params + sizeOf f.body
  have hlimited : m.Limited size m.callsLeft := h.limited (by omega)
  have hsmall : f.Small size := Closure.small_of_le hf (by omega) (by omega)
  have hkept : (callClosure (m.callsLeft * size) f args location).Maintains
      (Machine.Limited size m.callsLeft) Stop.Expected := by
    refine maintains_call hsmall ?_ ?_ args location
    · intro rest hrest e he
      rw [hrest, Nat.succ_mul]
      exact (limited_levels _ _).1 rest e (by omega)
    · intro rest hrest s hloop hs
      rw [hrest, Nat.succ_mul]
      exact (limited_levels _ _).2 rest s hloop hs (by omega)
  exact finishes_of_ne (fun more hmore => below_callClosure hmore f args location)
    (hkept.perform_ne hlimited)

end Runs

/-- Whatever is evaluated, executed, called or run without loops, on a machine whose functions have
none, comes to an end: however functions find each other, and with whatever limit of calls. -/
theorem loopFree_finishes (m : Machine) (h : m.LoopFree) :
    (∀ e, Finishes fun levels => m.perform (evaluate levels e)) ∧
      (∀ s : Stmt, s.loopFree = true → Finishes fun levels => m.perform (execute levels s)) ∧
      (∀ body, Stmt.allLoopFree body = true →
        Finishes fun levels => m.perform (executeBody levels body)) ∧
      (∀ p : Program, Stmt.allLoopFree p.body = true → Finishes fun levels => m.run levels p) ∧
      ∀ f : Closure, f.LoopFree → ∀ args location,
        Finishes fun levels => m.perform (callClosure levels f args location) := by
  refine ⟨finishes_evaluate h, fun s => finishes_execute h, fun body => finishes_executeBody h,
    fun p hp => ?_, fun f => finishes_callClosure h⟩
  have hunhalted : { m with halted := false }.LoopFree := h
  exact finishes_executeBody hunhalted hp

/-- The call of a function by its name, without arguments. -/
def callByName (name : String) : Expr := .call (.identifier { name }) [] {}

/-- Two functions that call each other without end, one of them for the default of a parameter. -/
def machineOfMutualCalls : Machine :=
  ((Machine.new {}).setFunction "f"
    { name := "f", params := [⟨{ name := "x" }, some (callByName "g")⟩], body := [], home := 0 })
  |>.setFunction "g"
    { name := "g", params := [], body := [.expression (callByName "f") {}], home := 0 }

theorem mutualCalls_finish :
    machineOfMutualCalls.LoopFree ∧
      Finishes fun levels =>
        machineOfMutualCalls.run levels ⟨[.expression (callByName "f") {}]⟩ := by
  have h : machineOfMutualCalls.LoopFree := by
    intro s hs name f hf
    obtain rfl : s = machineOfMutualCalls.global := List.mem_singleton.mp hs
    have hall : ∀ entry ∈ machineOfMutualCalls.global.funs,
        Stmt.allLoopFree entry.2.body = true := by decide
    exact hall _ (Entries.mem_of_get? hf)
  exact ⟨h, (loopFree_finishes machineOfMutualCalls h).2.2.2.1 _ (by decide)⟩

end Treewalk
