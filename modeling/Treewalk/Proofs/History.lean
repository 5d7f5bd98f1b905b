import Treewalk.Proofs.Trace

/-!
# Histories

The events of a run follow a grammar: a stop is the last event but for the calls that are left, the
calls are properly nested, and nothing comes between a return and the end of its call.  Traces have
such a history and the outcome of the run that they trace.  What holds at every event of a history
then holds at every event of every run.

## Main definitions

* `History` — the lists of events that evaluation can give rise to.
* `Trace.Tells`, `Traced.Tells` — a trace of a run, and an action that tells what another one does.
* `tells_evaluate`, `tells_execute`, `tells_executeBody`, `tells_callClosure`, `tells_run` — the
  traces of evaluation tell what evaluation does.
-/

namespace Treewalk

/-! ## The grammar -/

/-- A statement that may go on in any way: not one that halts and not one that declares a
function. -/
def Stmt.Ordinary : Stmt → Prop
  | .debugger _ | .function _ false false _ _ _ _ => False
  | _ => True

/-- An event after which anything may follow. -/
def Event.Plain : Event → Prop
  | .evaluates _ | .assigns .. | .binds .. | .resumes => True
  | .executes s => s.Ordinary
  | _ => False

/-- The events of a run that ends in a given way. -/
inductive History : List Event → Ending → Prop where
  | done : History [] .normal
  | exhausted : History [] (.stopped .exhausted)
  | plain {ev : Event} {rest : List Event} {k : Ending} :
    ev.Plain → History rest k → History (ev :: rest) k
  | halt (location : Location) :
    History [.executes (.debugger location), .halts] (.stopped .halted)
  | fail (f : Fault) : History [.fails f] (.stopped (.failed f))
  | ret (v : Value) : History [.returns v] (.returned v)
  | declaration {rest : List Event} {k : Ending} (id : Identifier) (params : List Parameter)
    (body : List Stmt) (bodyLocation location : Location) :
    History rest k →
    History (.executes (.function id false false params body bodyLocation location) ::
      .declares id.name params body :: rest) k
  /-- A call whose body was not stopped. -/
  | call {body rest : List Event} {k k' : Ending} (link : Option Nat) :
    History body k → (∀ s, k ≠ .stopped s) → History rest k' →
    History (.enters link :: (body ++ .leaves :: rest)) k'
  /-- A call whose body was stopped. -/
  | stoppedCall {body : List Event} {s : Stop} (link : Option Nat) :
    History body (.stopped s) → History (.enters link :: (body ++ [.leaves])) (.stopped s)

/-- A history goes on where there was neither a stop nor a return. -/
theorem History.append {a b : List Event} {k k' : Ending} (ha : History a k) (hk : k = .normal)
    (hb : History b k') : History (a ++ b) k' := by
  induction ha with
  | done => exact hb
  | plain hev _ ih => exact .plain hev (ih hk)
  | declaration id params body bodyLocation location _ ih =>
    exact .declaration id params body bodyLocation location (ih hk)
  | call link hbody hne _ _ ih =>
    rw [List.cons_append, List.append_assoc]
    exact .call link hbody hne (ih hk)
  | exhausted | halt | fail | ret | stoppedCall => cases hk

/-! ## Traces of runs -/

section Outcomes

variable {α β : Type}

/-- The ending that an outcome stands for. -/
def endingOf (mark : α → Ending) : Except Stop α → Ending
  | .ok a => mark a
  | .error s => .stopped s

/-- A trace has the outcome of a run, its events lead to the machine at the end of the run, and
they are a history of it. -/
structure Trace.Tells (tr : Trace α) (mark : α → Ending) (m : Machine)
    (run : Except Stop α × Machine) : Prop where
  outcome : tr.outcome = run.1
  replay : m.replay tr.events = run.2
  history : History tr.events (endingOf mark run.1)

/-- An action that tells what another one does. -/
def Traced.Tells (t : Traced α) (mark : α → Ending) (act : Action α) : Prop :=
  ∀ m, (t m).Tells mark m (m.perform act)

namespace Traced

variable {mark mark' : α → Ending} {act : Action α} {t : Traced α}

protected theorem Tells.pure {a : α} (h : mark a = .normal) :
    (Traced.pure a).Tells mark (pure a) := fun m => by
  refine ⟨rfl, rfl, ?_⟩
  rw [Machine.perform]
  show History [] (mark a)
  rw [h]
  exact .done

/-- What comes next only happens if there was no return. -/
theorem Tells.bind {mark₀ : α → Ending} {mark : β → Ending} {f : α → Traced β} {g : α → Action β}
    (ht : t.Tells mark₀ act) (hstop : ∀ a s, mark₀ a ≠ .stopped s)
    (hnormal : ∀ a, mark₀ a = .normal → (f a).Tells mark (g a))
    (hret : ∀ a v, mark₀ a = .returned v →
      ∃ b, f a = .pure b ∧ g a = pure b ∧ mark b = .returned v) :
    (t.bind f).Tells mark (act >>= g) := by
  intro m
  obtain ⟨houtcome, hreplay, hhistory⟩ := ht m
  rw [Machine.perform_bind, Traced.bind]
  cases hrun : m.perform act with
  | mk outcome m' =>
    rw [hrun] at houtcome hreplay hhistory
    dsimp only at houtcome hreplay hhistory
    cases outcome with
    | error s =>
      simp only [houtcome]
      exact ⟨rfl, hreplay, hhistory⟩
    | ok a =>
      simp only [houtcome, hreplay]
      cases hmark : mark₀ a with
      | stopped s => exact absurd hmark (hstop a s)
      | normal =>
        have hrest := hnormal a hmark m'
        refine ⟨hrest.outcome, ?_, hhistory.append hmark hrest.history⟩
        rw [Machine.replay_append, hreplay]
        exact hrest.replay
      | returned v =>
        obtain ⟨b, hf, hg, hb⟩ := hret a v hmark
        rw [hf, hg]
        refine ⟨rfl, ?_, ?_⟩
        · rw [Machine.replay_append, hreplay]
          rfl
        · show History ((t m).events ++ []) (mark b)
          rw [List.append_nil, hb, ← hmark]
          exact hhistory

/-- An event after which anything may follow, and then what happens from there on. -/
theorem Tells.after {ev : Event} {m : Machine} {run : Except Stop α × Machine} (hev : ev.Plain)
    (ht : (t (ev.apply m)).Tells mark (ev.apply m) run) :
    (((log ev).bind fun _ => t) m).Tells mark m run := by
  refine ⟨ht.outcome, ?_, .plain hev ht.history⟩
  simp only [Traced.bind, log, Machine.replay_append]
  exact ht.replay

end Traced

end Outcomes

/-! ## Traces of evaluation -/

/-- A request that is told by any history, apart from what it asks for. -/
def Request.Ordinary : Request → Prop
  | .halt | .declare .. => False
  | _ => True

theorem Expr.Asks.ordinary {e : Expr} {r : Request} (h : e.Asks r) : r.Ordinary := by
  cases h <;> trivial

theorem Stmt.Asks.ordinary {s : Stmt} {r : Request} (h : s.Asks r) (hs : s.Ordinary) :
    r.Ordinary := by
  cases h <;> trivial

theorem Closure.Asks.ordinary {f : Closure} {r : Request} (h : f.Asks r) : r.Ordinary := by
  cases h <;> trivial

section Nodes

variable {α : Type} {mark : α → Ending} {evalT : Expr → Traced Value}
  {execT : Stmt → Traced Completion} {eval : Expr → Action Value} {exec : Stmt → Action Completion}
  (heval : ∀ e, (evalT e).Tells silent (eval e))
  (hexec : ∀ s, (execT s).Tells Completion.ending (exec s))

include heval hexec in
theorem Request.tells_traced {r : Request} (hr : r.Ordinary) :
    (r.traced evalT execT).Tells r.ending (r.run eval exec) := by
  cases r with
  | evaluate e => exact heval e
  | execute s => exact hexec s
  | lookup name => exact fun m => ⟨rfl, rfl, .done⟩
  | unimplemented kind location =>
    intro m
    simp only [traced, run, Machine.perform_unimplemented]
    cases m.config.policy with
    | permissive => exact ⟨rfl, rfl, .done⟩
    | strict => exact ⟨rfl, rfl, .fail _⟩
  | assign name v => exact fun m => ⟨rfl, rfl, .plain trivial .done⟩
  | bind name v => exact fun m => ⟨rfl, rfl, .plain trivial .done⟩
  | declare name params body => exact hr.elim
  | ret v => exact fun m => ⟨rfl, rfl, .ret v⟩
  | halt => exact hr.elim
  | fail f => exact fun m => ⟨rfl, rfl, .fail f⟩
  | exhaust => exact fun m => ⟨rfl, rfl, .exhausted⟩

include heval hexec in
/-- A plan of ordinary requests is told by its trace. -/
theorem Plan.tells_traced {P : Request → Prop} {p : Plan α} (hp : p.Within P)
    (hmark : p.Marked mark) (hP : ∀ r, P r → r.Ordinary) :
    (p.traced evalT execT).Tells mark (p.run eval exec) := by
  induction p with
  | done a => exact .pure hmark
  | ask r next ih =>
    refine Traced.Tells.bind (Request.tells_traced heval hexec (hP r hp.1)) r.ending_ne_stopped
      (fun a ha => ih a (hp.2 a) ((hmark a).1 ha)) fun a v ha => ?_
    obtain ⟨b, hb, hv⟩ := (hmark a).2 v ha
    exact ⟨b, by rw [hb]; rfl, by rw [hb]; rfl, hv⟩

include heval hexec in
theorem Planned.tells_traced {P : Request → Prop} {F : Scheme α} (p : Planned P mark F)
    (hP : ∀ r, P r → r.Ordinary) : (p.plan.traced evalT execT).Tells mark (F eval exec) := by
  rw [← p.run_plan]
  exact Plan.tells_traced heval hexec p.within p.marked hP

include heval hexec in
theorem tells_callTraced (f : Closure) (args : List Value) (location : Location) :
    (callTraced evalT execT f args location).Tells silent (call eval exec f args location) := by
  intro m
  rw [Machine.perform_call, callTraced]
  by_cases h : m.config.maxCallDepth ≤ m.callDepth
  · rw [if_pos h, if_pos h]
    exact ⟨rfl, rfl, .fail _⟩
  · rw [if_neg h, if_neg h]
    have hbody := Plan.tells_traced heval hexec (f.planned args).within (f.planned args).marked
      (fun _ hr => Closure.Asks.ordinary hr) (m.enterCall (some f.home))
    obtain ⟨houtcome, hreplay, hhistory⟩ := hbody
    refine ⟨congrArg (Except.map _) houtcome, ?_, ?_⟩
    · simp only [Traced.map, Traced.inCall, Machine.replay_cons, Machine.replay_append]
      exact congrArg Machine.leaveCall hreplay
    · revert hhistory
      dsimp only
      generalize ((m.enterCall (some f.home)).perform _).1 = outcome
      intro hhistory
      cases outcome with
      | error s => exact .stoppedCall _ hhistory
      | ok c => exact .call _ hhistory c.ending_ne_stopped .done

include heval hexec in
theorem tells_nodeTraced (e : Expr) :
    (nodeTraced evalT execT e).Tells silent (evaluateNode eval exec e) := by
  rw [nodeTraced]
  cases e.course with
  | plan p => exact p.tells_traced heval hexec fun _ hr => hr.ordinary
  | call callee arguments location he p =>
    dsimp only
    subst he
    intro m
    rw [Machine.perform, evaluateNode_call]
    cases callee.identifier? with
    | none => exact ⟨rfl, rfl, .fail _⟩
    | some id =>
      dsimp only
      cases m.lookupFunction id.name with
      | none => exact ⟨rfl, rfl, .fail _⟩
      | some f =>
        have hargs := p.tells_traced heval hexec fun _ hr => hr.ordinary
        exact hargs.bind silent_ne_stopped
          (fun args _ => tells_callTraced heval hexec f args location)
          (fun args v h => absurd h (silent_ne_returned args v)) m

end Nodes

/-- Evaluation is told by its traces: by induction on the levels, one node at a time.  The two
statements that are not ordinary have histories of their own. -/
theorem tells_levels (levels : Nat) :
    (∀ e, (evaluateTraced levels e).Tells silent (evaluate levels e)) ∧
      ∀ s, (executeTraced levels s).Tells Completion.ending (execute levels s) := by
  induction levels with
  | zero => exact ⟨fun e m => ⟨rfl, rfl, .exhausted⟩, fun s m => ⟨rfl, rfl, .exhausted⟩⟩
  | succ levels ih =>
    refine ⟨fun e => ?_, fun s => ?_⟩
    · have hnode := tells_nodeTraced ih.1 ih.2 e
      exact fun m => Traced.Tells.after trivial (hnode m)
    · by_cases hs : s.Ordinary
      · have hnode := (s.planned levels).tells_traced ih.1 ih.2 fun _ hr => hr.ordinary hs
        exact fun m => Traced.Tells.after hs (hnode m)
      · cases s with
        | debugger location => exact fun m => ⟨rfl, rfl, .halt location⟩
        | function id isAsync generator params body bodyLocation location =>
          cases isAsync <;> cases generator <;> try exact absurd trivial hs
          exact fun m => ⟨rfl, rfl, .declaration id params body bodyLocation location .done⟩
        | _ => exact absurd trivial hs

theorem tells_evaluate (levels : Nat) (e : Expr) :
    (evaluateTraced levels e).Tells silent (evaluate levels e) :=
  (tells_levels levels).1 e

theorem tells_execute (levels : Nat) (s : Stmt) :
    (executeTraced levels s).Tells Completion.ending (execute levels s) :=
  (tells_levels levels).2 s

theorem tells_executeBody (levels : Nat) (body : List Stmt) :
    (executeBodyTraced levels body).Tells Completion.ending (executeBody levels body) :=
  (bodyPlanned body).tells_traced (tells_evaluate levels) (tells_execute levels) <| by
    rintro r ⟨s, -, rfl⟩
    trivial

theorem tells_callClosure (levels : Nat) (f : Closure) (args : List Value) (location : Location) :
    (callClosureTraced levels f args location).Tells silent (callClosure levels f args location) :=
  tells_callTraced (tells_evaluate levels) (tells_execute levels) f args location

theorem tells_run (levels : Nat) (p : Program) (m : Machine) :
    (runTraced levels p m).Tells Completion.ending m (m.run levels p) :=
  Traced.Tells.after trivial (tells_executeBody levels p.body { m with halted := false })

end Treewalk
