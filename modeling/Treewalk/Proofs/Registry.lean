import Treewalk.Proofs.Nesting
import Treewalk.Proofs.Numbering
import Treewalk.Proofs.SessionTrace

/-!
# Functions and their homes

In a session in which the host binds no function by itself, every function on the stack was put
there by a declaration: under its own name, with the parameters and the body of the declaration, and
into the scope that was the current one then, which is its home.  So the home of a function that is
found is on the stack, and as a call only ever adds scopes above, it stays there until the call is
over.

## Main definitions

* `Sourced` — a function is declared by a declaration that has just been begun.
* `Registered`, `Scope.Registers` — where a function on the stack comes from.
* `Grounded` — no scope is left that was there before.
* `HomeStays` — the home of a function is on the stack while a call is evaluated.
-/

namespace Treewalk

/-! ## What stays on the stack -/

/-- The scopes that were there before some events are at the bottom of the stack after them. -/
def Grounded (m : Machine) (past : List Event) : Prop :=
  m.scopes.map Scope.id <:+ (m.replay past).scopes.map Scope.id

/-- No scope is left that was there before. -/
theorem History.grounded {events past : List Event} {k : Ending} (h : History events k)
    (m : Machine) (hpast : past <+: events) : Grounded m past :=
  (h.inside m hpast).ids_suffix

/-! ## Where functions come from -/

/-- A function is declared by a declaration that has just been begun, and a host registers none. -/
def Sourced : Situation := fun _ past ev _ =>
  match ev with
  | .declares name params body => ∃ before id bodyLocation location,
    past = before ++ [.executes (.function id false false params body bodyLocation location)] ∧
      id.name = name
  | .registers .. => False
  | _ => True

theorem local_sourced : Local Sourced where
  extend _ h := h
  prepend := by
    intro m past ev later earlier h
    cases ev with
    | declares name params body =>
      obtain ⟨before, id, bodyLocation, location, rfl, hname⟩ := h
      exact ⟨earlier ++ before, id, bodyLocation, location, (List.append_assoc ..).symm, hname⟩
    | registers => exact h.elim
    | _ => trivial

theorem History.sourced {events : List Event} {k : Ending} (h : History events k) (m : Machine) :
    Everywhere (Sourced m) events := by
  induction h generalizing m with
  | done => exact .nil
  | exhausted => exact .nil
  | @plain ev _ _ hev _ ih =>
    refine local_sourced.cons ?_ (ih _)
    cases ev <;> trivial
  | halt location => exact .cons trivial (.cons trivial .nil)
  | fail f => exact .cons trivial .nil
  | ret v => exact .cons trivial .nil
  | declaration id params body bodyLocation location _ ih =>
    have hdeclares : Everywhere (Sourced m)
        [.executes (.function id false false params body bodyLocation location),
          .declares id.name params body] :=
      .cons trivial (.cons ⟨[], id, bodyLocation, location, rfl, rfl⟩ .nil)
    exact local_sourced.append hdeclares (ih _)
  | call link _ _ _ ihbody ih =>
    exact local_sourced.cons trivial (local_sourced.append (ihbody _)
      (local_sourced.cons trivial (ih _)))
  | stoppedCall link _ ih =>
    exact local_sourced.cons trivial (local_sourced.append (ih _) (.cons trivial .nil))

theorem lifts_sourced : Lifts Sourced where
  toLocal := local_sourced
  run levels p m := (tells_run levels p m).history.sourced m
  executeBody levels body m := (tells_executeBody levels body m).history.sourced m
  evaluate levels e m := (tells_evaluate levels e m).history.sourced m
  callClosure levels f args location m :=
    (tells_callClosure levels f args location m).history.sourced m
  byHost := by
    intro m past ev later hev
    cases ev <;> trivial

/-! ## The registry -/

/-- A function that is bound in a scope: it has the name that it is bound under, its home is the
scope, and a declaration with its parameters and its body was executed while the scope was the
current one. -/
structure Registered (start : Machine) (past : List Event) (scope : Nat) (name : String)
    (f : Closure) : Prop where
  name_eq : f.name = name
  home_eq : f.home = scope
  declared : ∃ before id bodyLocation location,
    before ++ [.executes (.function id false false f.params f.body bodyLocation location),
      .declares name f.params f.body] <+: past ∧
    id.name = name ∧ (start.replay before).current.id = scope

theorem Registered.mono {start : Machine} {past past' : List Event} {scope : Nat} {name : String}
    {f : Closure} (h : Registered start past scope name f) (hpast : past <+: past') :
    Registered start past' scope name f := by
  obtain ⟨before, id, bodyLocation, location, hbefore, hdeclared⟩ := h.declared
  exact ⟨h.name_eq, h.home_eq, before, id, bodyLocation, location, hbefore.trans hpast, hdeclared⟩

/-- All functions of a scope are registered there. -/
def Scope.Registers (start : Machine) (past : List Event) (s : Scope) : Prop :=
  ∀ name f, Entries.get? name s.funs = some f → Registered start past s.id name f

section Registry

variable {start : Machine} {past events : List Event}

/-- A scope that was just entered has no functions. -/
theorem registers_new (scope : Nat) (parent : Option Nat) :
    Scope.Registers start past { id := scope, parent } := by
  intro name f hf
  cases hf

theorem registers_bindFunction {s : Scope} {name : String} {f : Closure}
    (h : s.Registers start past) (hf : Registered start past s.id name f) :
    (s.bindFunction name f).Registers start past :=
  Entries.forall_insert hf h

/-- What one event does to the registry. -/
theorem registers_step (h : ∀ s ∈ (start.replay past).scopes, s.Registers start past) {ev : Event}
    {later : List Event} (hev : Sourced start past ev later) :
    ∀ s ∈ (start.replay (past ++ [ev])).scopes, s.Registers start (past ++ [ev]) := by
  have hkept : ∀ s ∈ (start.replay past).scopes, s.Registers start (past ++ [ev]) :=
    fun s hs name f hf => (h s hs name f hf).mono (List.prefix_append _ _)
  rw [Machine.replay_append]
  cases ev with
  | assigns name v => exact Machine.forall_assign (fun _ hs => hs) hkept
  | binds name v => exact Machine.forall_changeCurrent (fun hs => hs) hkept
  | declares name params body =>
    -- The scope that is current now was the current one when the declaration was begun.
    obtain ⟨before, id, bodyLocation, location, rfl, hname⟩ := hev
    refine Machine.forall_changeCurrent (fun hs => registers_bindFunction hs ?_) hkept
    refine ⟨rfl, rfl, before, id, bodyLocation, location, ?_, hname, ?_⟩
    · rw [List.append_assoc]
      exact List.prefix_refl _
    · rw [Machine.replay_append]
      rfl
  | enters link => exact List.forall_mem_cons.mpr ⟨registers_new _ _, hkept⟩
  | opens => exact List.forall_mem_cons.mpr ⟨registers_new _ _, hkept⟩
  | leaves => exact fun s hs => hkept s ((start.replay past).leaveCall_sublist.subset hs)
  | closes => exact fun s hs => hkept s ((start.replay past).leaveCall_sublist.subset hs)
  | registers name f => exact hev.elim
  | evaluates | executes | halts | fails | returns | resumes => exact hkept

/-- Whatever has happened, all functions on the stack are registered. -/
theorem registers_replay (hstart : ∀ s ∈ start.scopes, s.Registers start [])
    (hevents : Everywhere (Sourced start) events) (hpast : past <+: events) :
    ∀ s ∈ (start.replay past).scopes, s.Registers start past :=
  prefix_induction (P := fun past => ∀ s ∈ (start.replay past).scopes, s.Registers start past)
    hstart (fun past ev later heq h => registers_step h (hevents past ev later heq)) hpast

/-- A function that is found has its home on the stack. -/
theorem home_mem_of_lookupFunction {m : Machine} (h : ∀ s ∈ m.scopes, s.Registers start past)
    {name : String} {f : Closure} (hf : m.lookupFunction name = some f) :
    f.home ∈ m.scopes.map Scope.id := by
  obtain ⟨s, hs, hget⟩ := Machine.exists_of_lookupFunction hf
  rw [(h s hs name f hget).home_eq]
  exact List.mem_map_of_mem hs

end Registry

/-! ## Sessions -/

/-- While an expression is evaluated, from its beginning to its end, the home of a function is on
the stack. -/
def HomeStays (m : Machine) (f : Closure) (e : Expr) : Prop :=
  ∀ levels during, during <+: (evaluateTraced levels e m).events →
    f.home ∈ (m.replay during).scopes.map Scope.id

/-- Whatever a host asks for, as long as it binds no function by itself, and whatever has happened
so far: all functions on the stack were put there by declarations, and while a call is evaluated
that finds a function by its name, the home of the function is on the stack. -/
theorem session_registry (levels : Nat) (config : Config) (steps : List Step)
    (h : Step.allBindNoFunction steps = true) :
    let start := (Session.start config).machine
    let events := (Session.start config).eventsAll levels steps
    start.replay events = ((Session.start config).performAll levels steps).2.machine ∧
      ∀ past, past <+: events →
        (∀ s ∈ (start.replay past).scopes, s.Registers start past) ∧
          ∀ id f, (start.replay past).lookupFunction id.name = some f →
            ∀ arguments location,
              HomeStays (start.replay past) f (.call (.identifier id) arguments location) := by
  intro start events
  have hstart : ∀ s ∈ start.scopes, s.Registers start [] := by
    intro s hs
    obtain rfl := List.mem_singleton.mp hs
    exact registers_new _ _
  refine ⟨Session.replay_eventsAll levels _ steps, fun past hpast => ?_⟩
  have hregisters : ∀ s ∈ (start.replay past).scopes, s.Registers start past :=
    registers_replay hstart (lifts_sourced.eventsAll levels _ steps h) hpast
  refine ⟨hregisters, fun id f hf arguments location inner during hduring => ?_⟩
  have hhome := home_mem_of_lookupFunction hregisters hf
  have hgrounded := (tells_evaluate inner (.call (.identifier id) arguments location)
    (start.replay past)).history.grounded (start.replay past) hduring
  exact hgrounded.subset hhome

/-- A program that declares a function, and a call of it in a frame. -/
def declaringSession : List Step :=
  [.run ⟨[.function { name := "f" } false false [] [.ret none {}] {} {}]⟩,
    .frame [.evaluate (.call (.identifier { name := "f" }) [] {})]]

theorem declaringSession_registers :
    Step.allBindNoFunction declaringSession = true ∧
      (((Session.start {}).performAll 5 declaringSession).2.machine.lookupFunction "f").isSome ∧
      ∀ s ∈ ((Session.start {}).performAll 5 declaringSession).2.machine.scopes,
        s.Registers (Session.start {}).machine
          ((Session.start {}).eventsAll 5 declaringSession) := by
  have h : Step.allBindNoFunction declaringSession = true := by decide
  obtain ⟨hreplay, hregisters⟩ := session_registry 5 {} declaringSession h
  refine ⟨h, rfl, ?_⟩
  rw [← hreplay]
  exact (hregisters _ (List.prefix_refl _)).1

end Treewalk
