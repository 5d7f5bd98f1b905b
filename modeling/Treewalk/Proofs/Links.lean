import Treewalk.Proofs.Origin
import Treewalk.Proofs.Registry
import Treewalk.Proofs.Walk

/-!
# Links in sessions

Whatever a host does, scopes are ranked by their numbers.  A scope that is entered has the highest
number so far, and its link is the home of a function: of one that was found on the stack, or of a
handle that was taken from there.  Such a number was given before, whether its scope is still there
or not, and wherever the function was bound in the meantime.

Scopes are only ever taken off the top of the stack.  So a scope is gone before the one that its
link leads to, and a number that is gone does not come back.

## Main definitions

* `Event.Admitted`, `Admitted` — events that only use numbers that have been given.
* `Machine.Later` — the older scopes of a machine are some of those at the bottom of another one.
* `Machine.LinksStay` — links stay as they are, live or dead.
* `Session.Ranked` — a machine with ranked scopes, and handles that know no other numbers.
-/

namespace Treewalk

/-! ## One event -/

theorem Scope.Ranked.new {bound : Nat} {link : Option Nat}
    (hlink : ∀ home, link = some home → home < bound) :
    Scope.Ranked (bound + 1) { id := bound, parent := link } where
  fresh := Nat.lt_succ_self bound
  link := hlink
  homes _ _ hf := by cases hf

theorem Scope.Ranked.bindVariable {bound : Nat} {s : Scope} (h : s.Ranked bound) (name : String)
    (v : Value) : (s.bindVariable name v).Ranked bound :=
  ⟨h.fresh, h.link, h.homes⟩

theorem Scope.Ranked.bindFunction {bound : Nat} {s : Scope} (h : s.Ranked bound) (name : String)
    {f : Closure} (hf : f.home < bound) : (s.bindFunction name f).Ranked bound where
  fresh := h.fresh
  link := h.link
  homes := Entries.forall_insert hf h.homes

/-- An event that only uses numbers that have been given. -/
def Event.Admitted (m : Machine) : Event → Prop
  | .enters link => ∀ home, link = some home → home < m.nextId
  | .registers _ f => f.home < m.nextId
  | _ => True

namespace Machine

variable {m m' : Machine}

/-- An event that leaves the stack as it is need only be right for every scope. -/
theorem Ranked.of_not_moves (h : m.Ranked) {ev : Event} (hev : ¬ ev.Moves)
    (heach : ∀ s ∈ (ev.apply m).scopes, s.Ranked m.nextId) : (ev.apply m).Ranked where
  sorted := by rw [(ev.sameStack hev m).ids]; exact h.sorted
  each s hs := (heach s hs).mono (ev.sameStack hev m).nextId_le

theorem Ranked.enterLinked (h : m.Ranked) {link : Option Nat}
    (hlink : ∀ home, link = some home → home < m.nextId) : (m.enterLinked link).Ranked where
  sorted := by
    refine List.pairwise_cons.mpr ⟨fun id hid => ?_, h.sorted⟩
    obtain ⟨s, hs, rfl⟩ := List.mem_map.mp hid
    exact (h.each s hs).fresh
  each := List.forall_mem_cons.mpr
    ⟨.new hlink, fun s hs => (h.each s hs).mono (Nat.le_succ m.nextId)⟩

theorem exitScope_suffix (m : Machine) : m.exitScope.scopes <:+ m.scopes := by
  obtain ⟨top, htop⟩ := List.tail_suffix m.frames
  refine ⟨top, ?_⟩
  rw [scopes, scopes, exitScope, ← List.append_assoc, htop]

theorem Ranked.exitScope (h : m.Ranked) : m.exitScope.Ranked where
  sorted := h.sorted.sublist (m.exitScope_suffix.sublist.map _)
  each s hs := h.each s (m.exitScope_suffix.subset hs)

/-- What one event does to ranked scopes. -/
theorem Ranked.apply (h : m.Ranked) {ev : Event} (hev : ev.Admitted m) : (ev.apply m).Ranked := by
  cases ev with
  | assigns name v =>
    exact h.of_not_moves not_false (forall_assign (fun _ hs => hs.bindVariable name v) h.each)
  | binds name v =>
    exact h.of_not_moves not_false (forall_changeCurrent (fun hs => hs.bindVariable name v) h.each)
  | declares name params body =>
    exact h.of_not_moves not_false
      (forall_changeCurrent (fun hs => hs.bindFunction name hs.fresh) h.each)
  | registers name f =>
    exact h.of_not_moves not_false (forall_changeCurrent (fun hs => hs.bindFunction name hev) h.each)
  | enters link => exact ⟨(h.enterLinked hev).sorted, (h.enterLinked hev).each⟩
  | opens => exact h.enterLinked nofun
  | leaves => exact ⟨h.exitScope.sorted, h.exitScope.each⟩
  | closes => exact h.exitScope
  | evaluates | executes | fails | returns => exact h
  | halts | resumes => exact ⟨h.sorted, h.each⟩

end Machine

/-! ## Runs -/

/-- Events that only use numbers that have been given by then. -/
def Admitted : Situation := fun m past ev _ => ev.Admitted (m.replay past)

theorem local_admitted : Local Admitted where
  extend _ h := h
  prepend := by
    intro m past ev later before h
    rw [Admitted, Machine.replay_append]
    exact h

theorem Machine.Ranked.replay {m : Machine} (h : m.Ranked) {events past : List Event}
    (hevents : Everywhere (Admitted m) events) (hpast : past <+: events) :
    (m.replay past).Ranked := by
  refine prefix_induction (P := fun past => (m.replay past).Ranked) h
    (fun past ev later heq hbefore => ?_) hpast
  rw [Machine.replay_append]
  exact hbefore.apply (hevents past ev later heq)

namespace Machine

variable {m m' : Machine}

/-! ## What stays on the stack -/

/-- A machine with what is left of the stack of an earlier one: the scopes with numbers that had been
given by then are the ones at the bottom. -/
structure Later (m m' : Machine) : Prop where
  nextId_le : m.nextId ≤ m'.nextId
  older : (m'.scopes.map Scope.place).filter (fun place => place.1 < m.nextId) <:+
    m.scopes.map Scope.place

theorem Ranked.later_self (h : m.Ranked) : m.Later m where
  nextId_le := Nat.le_refl _
  older := by
    have hold : ∀ place ∈ m.scopes.map Scope.place, decide (place.1 < m.nextId) = true := by
      intro place hplace
      obtain ⟨s, hs, rfl⟩ := List.mem_map.mp hplace
      exact decide_eq_true (h.each s hs).fresh
    exact ⟨[], List.filter_eq_self.mpr hold⟩

theorem Later.of_sameStack {m'' : Machine} (h : m.Later m') (hm : m'.SameStack m'') :
    m.Later m'' where
  nextId_le := Nat.le_trans h.nextId_le hm.nextId_le
  older := by rw [hm.scopes]; exact h.older

theorem Later.enterLinked (h : m.Later m') (link : Option Nat) : m.Later (m'.enterLinked link) where
  nextId_le := Nat.le_succ_of_le h.nextId_le
  older := by
    have hnew : ¬ m'.nextId < m.nextId := Nat.not_lt.mpr h.nextId_le
    have hscopes : (m'.enterLinked link).scopes.map Scope.place =
      (m'.nextId, link) :: m'.scopes.map Scope.place := rfl
    rw [hscopes, List.filter_cons, if_neg (by simpa using hnew)]
    exact h.older

theorem Later.exitScope (h : m.Later m') : m.Later m'.exitScope where
  nextId_le := h.nextId_le
  older := ((m'.exitScope_suffix.map Scope.place).filter _).trans h.older

theorem Later.apply (h : m.Later m') (ev : Event) : m.Later (ev.apply m') := by
  by_cases hev : ev.Moves
  · cases ev with
    | enters link => exact ⟨(h.enterLinked link).nextId_le, (h.enterLinked link).older⟩
    | opens => exact h.enterLinked none
    | leaves => exact ⟨h.exitScope.nextId_le, h.exitScope.older⟩
    | closes => exact h.exitScope
    | _ => exact hev.elim
  · exact h.of_sameStack (ev.sameStack hev m')

theorem Later.replay (h : m.Later m') (events : List Event) : m.Later (m'.replay events) := by
  induction events generalizing m' with
  | nil => exact h
  | cons ev events ih => exact ih (h.apply ev)

/-- The scopes of a machine that are still there have the links that they had, and these are live if
and only if they were. -/
def LinksStay (m m' : Machine) : Prop :=
  ∀ s ∈ m.scopes, ∀ s' ∈ m'.scopes, s'.id = s.id → s'.parent = s.parent ∧
    ∀ link, s.parent = some link → ((m'.live? link).isSome ↔ (m.live? link).isSome)

/-- A scope with an old number is an old scope. -/
theorem place_mem_older {s : Scope} (hs : s ∈ m'.scopes) (hid : s.id < m.nextId) :
    s.place ∈ (m'.scopes.map Scope.place).filter (fun place => place.1 < m.nextId) :=
  List.mem_filter.mpr ⟨List.mem_map_of_mem hs, decide_eq_true hid⟩

theorem Later.exists_mem (h : m.Later m') {s : Scope} (hs : s ∈ m'.scopes)
    (hid : s.id < m.nextId) : ∃ t ∈ m.scopes, t.place = s.place :=
  List.mem_map.mp (h.older.subset (place_mem_older hs hid))

/-- If a scope is still there, so are the ones below it. -/
theorem Later.mem_of_lt (h : m.Later m') (hm : m.Ranked) {s s' : Scope} (hs' : s' ∈ m'.scopes)
    (hid : s'.id < m.nextId) (hs : s ∈ m.scopes) (hlt : s.id < s'.id) :
    s.id ∈ m'.scopes.map Scope.id := by
  obtain ⟨gone, hgone⟩ := h.older
  have hsorted : (m.scopes.map Scope.place).Pairwise fun p q => p.1 > q.1 := by
    rw [List.pairwise_map]
    exact List.pairwise_map.mp hm.sorted
  have hplace : s.place ∈ m.scopes.map Scope.place := List.mem_map_of_mem hs
  rw [← hgone] at hsorted hplace
  rcases List.mem_append.mp hplace with habove | hbelow
  · have hgt : s.id > s'.id :=
      (List.pairwise_append.mp hsorted).2.2 s.place habove s'.place (place_mem_older hs' hid)
    omega
  · obtain ⟨t, ht, heq⟩ := List.mem_map.mp (List.mem_filter.mp hbelow).1
    exact List.mem_map.mpr ⟨t, ht, Scope.id_eq_of_place heq⟩

theorem Later.linksStay (h : m.Later m') (hm : m.Ranked) : m.LinksStay m' := by
  intro s hs s' hs' hid
  have hold : s'.id < m.nextId := hid ▸ (hm.each s hs).fresh
  refine ⟨?_, fun link hlink => ?_⟩
  · obtain ⟨t, ht, hplace⟩ := h.exists_mem hs' hold
    rw [hm.wellNumbered.eq_of_id_eq hs ht (hid.symm.trans (Scope.id_eq_of_place hplace).symm)]
    exact (Scope.parent_eq_of_place hplace).symm
  · have hlt := (hm.each s hs).link link hlink
    rw [isSome_live?, isSome_live?]
    constructor
    · intro hlive
      obtain ⟨t', ht', rfl⟩ := List.mem_map.mp hlive
      obtain ⟨t, ht, hplace⟩ := h.exists_mem ht' (Nat.lt_trans hlt (hm.each s hs).fresh)
      exact List.mem_map.mpr ⟨t, ht, Scope.id_eq_of_place hplace⟩
    · intro hlive
      obtain ⟨t, ht, rfl⟩ := List.mem_map.mp hlive
      exact h.mem_of_lt hm hs' hold ht (hid ▸ hlt)

end Machine

/-! ## Runs -/

/-- The function of a call that comes up in a run was found on the stack before. -/
theorem Attempt.exists_lookup {m : Machine} {events past : List Event} {f : Closure}
    {location : Location} (h : Attempt m events past f location) :
    ∃ before name, before <+: past ∧ (m.replay before).lookupFunction name = some f := by
  obtain @⟨before, _, _, id, _, _, _, _, -, hf, -⟩ := h
  exact ⟨before, id.name, List.prefix_append _ _, hf⟩

theorem Machine.Ranked.home_lt {m : Machine} (h : m.Ranked) {name : String} {f : Closure}
    (hf : m.lookupFunction name = some f) : f.home < m.nextId := by
  obtain ⟨s, hs, hget⟩ := exists_of_lookupFunction hf
  exact (h.each s hs).homes name f hget

namespace Operation

variable {α : Type} {op : Operation α} {levels : Nat} {m : Machine}

/-- What comes up in a run is admitted if scopes were ranked until then. -/
theorem admitted_next (hcalled : ∀ f location, op.called? = some (f, location) → f.home < m.nextId)
    {past later : List Event} {ev : Event} (hevents : (op.traced levels m).events = past ++ ev :: later)
    (hpast : ∀ before, before <+: past → (m.replay before).Ranked) :
    Admitted m past ev later := by
  cases ev with
  | enters link =>
    intro home hhome
    obtain ⟨-, f, location, hf, rfl⟩ :=
      (op.origin levels m past _ later hevents).enters link rfl
    obtain rfl := Option.some.inj hhome
    cases hf with
    | asked hasked => exact hcalled f location hasked
    | inside hinside =>
      obtain ⟨before, name, ⟨between, rfl⟩, hf⟩ := hinside.exists_lookup
      have hbefore := hpast before (List.prefix_append _ _)
      rw [Machine.replay_append]
      exact Nat.lt_of_lt_of_le (hbefore.home_lt hf) (hbefore.later_self.replay between).nextId_le
  | registers name f => exact ((op.tells levels m).history.sourced m past _ later hevents).elim
  | _ => trivial

/-- All that comes up in a run is admitted: by induction on the events before it. -/
theorem admitted (h : m.Ranked)
    (hcalled : ∀ f location, op.called? = some (f, location) → f.home < m.nextId) :
    Everywhere (Admitted m) (op.traced levels m).events := by
  intro past ev later hevents
  refine admitted_next hcalled hevents ?_
  have hpast : past <+: (op.traced levels m).events := ⟨ev :: later, hevents.symm⟩
  clear hevents
  refine prefix_induction (P := fun past => ∀ before, before <+: past → (m.replay before).Ranked)
    (fun before hbefore => ?_) (fun past ev later hevents hpast before hbefore => ?_) hpast
  · rw [List.prefix_nil.mp hbefore]
    exact h
  · rcases List.prefix_concat_iff.mp hbefore with rfl | hbefore
    · rw [Machine.replay_append]
      exact (hpast past (List.prefix_refl _)).apply (admitted_next hcalled hevents hpast)
    · exact hpast before hbefore

end Operation

/-! ## Sessions -/

namespace Session

/-- A machine with ranked scopes, and handles of functions that only know of numbers that have been
given. -/
structure Ranked (s : Session) : Prop where
  machine : s.machine.Ranked
  slots : ∀ slot f, Entries.get? slot s.slots = some f → f.home < s.machine.nextId

theorem ranked_start (config : Config) : (start config).Ranked where
  machine :=
    ⟨List.pairwise_singleton _ _, List.forall_mem_singleton.mpr ⟨Nat.lt_succ_self 0, nofun, nofun⟩⟩
  slots := nofun

/-- What is admitted and leaves the slots as they are. -/
theorem Ranked.of_events {s s' : Session} (h : s.Ranked) {events : List Event}
    (hevents : Everywhere (Admitted s.machine) events)
    (hreplay : s.machine.replay events = s'.machine) (hslots : s'.slots = s.slots) : s'.Ranked where
  machine := hreplay ▸ h.machine.replay hevents (List.prefix_refl _)
  slots slot f hf := by
    rw [hslots] at hf
    rw [← hreplay]
    exact Nat.lt_of_lt_of_le (h.slots slot f hf) (h.machine.later_self.replay events).nextId_le

theorem Ranked.grab {s : Session} (h : s.Ranked) (slot : String) {f : Closure}
    (hf : f.home < s.machine.nextId) :
    Ranked { s with slots := Entries.insert slot f s.slots } where
  machine := h.machine
  slots := Entries.forall_insert hf h.slots

/-- A frame has no link. -/
theorem Ranked.enterFrame {s : Session} (h : s.Ranked) :
    (s.withMachine (s.machine.enterCall none)).Ranked := by
  have hevents : Everywhere (Admitted s.machine) [.enters none] := .cons nofun .nil
  exact h.of_events hevents rfl rfl

theorem Ranked.leaveFrame {s : Session} (h : s.Ranked) :
    (s.withMachine s.machine.leaveCall).Ranked := by
  have hevents : Everywhere (Admitted s.machine) [.leaves] := .cons trivial .nil
  exact h.of_events hevents rfl rfl

/-- A step that is an operation, or one event of the host. -/
theorem Ranked.step {s : Session} (h : s.Ranked) {levels : Nat} {step : Step}
    (hslots : (s.perform levels step).2.slots = s.slots)
    (hevents : Everywhere (Admitted s.machine) (s.events levels step)) :
    Everywhere (Admitted s.machine) (s.events levels step) ∧ (s.perform levels step).2.Ranked :=
  ⟨hevents, h.of_events hevents (replay_events levels s step) hslots⟩

mutual

/-- Whatever a host asks for, only numbers are used that have been given. -/
theorem admitted_events (levels : Nat) (s : Session) (h : s.Ranked) (step : Step) :
    Everywhere (Admitted s.machine) (s.events levels step) ∧ (s.perform levels step).2.Ranked := by
  cases step with
  | run p => exact h.step rfl ((Operation.run p).admitted h.machine nofun)
  | execute body => exact h.step rfl ((Operation.executeBody body).admitted h.machine nofun)
  | evaluate e => exact h.step rfl ((Operation.evaluate e).admitted h.machine nofun)
  | enterScope => exact h.step rfl (.cons trivial .nil)
  | exitScope => exact h.step rfl (.cons trivial .nil)
  | halt => exact h.step rfl (.cons trivial .nil)
  | setVariable name v => exact h.step rfl (.cons trivial .nil)
  | grab name slot =>
    refine ⟨.nil, ?_⟩
    rw [perform]
    cases hf : s.machine.lookupFunction name with
    | none => exact h
    | some f => exact h.grab slot (h.machine.home_lt hf)
  | bindFunction slot name =>
    refine h.step ?_ ?_
    · rw [perform]
      cases Entries.get? slot s.slots <;> rfl
    · rw [events]
      cases hf : Entries.get? slot s.slots with
      | none => exact .nil
      | some f => exact .cons (h.slots slot f hf) .nil
  | call slot args location =>
    refine h.step ?_ ?_
    · rw [perform]
      cases Entries.get? slot s.slots <;> rfl
    · rw [events]
      cases hf : Entries.get? slot s.slots with
      | none => exact .nil
      | some f =>
        refine (Operation.call f args location).admitted h.machine fun g _ hcalled => ?_
        obtain ⟨rfl, -⟩ := Prod.mk.inj (Option.some.inj hcalled)
        exact h.slots slot f hf
  | frame steps =>
    obtain ⟨hinner, hlast⟩ := admitted_eventsAll levels _ h.enterFrame steps
    refine ⟨local_admitted.cons nofun (local_admitted.append hinner (.cons trivial .nil)), ?_⟩
    exact hlast.leaveFrame
  | getVariable | lookupVariable | lookupFunction | hasFunction | unreadable =>
    exact h.step rfl .nil

theorem admitted_eventsAll (levels : Nat) (s : Session) (h : s.Ranked) (steps : List Step) :
    Everywhere (Admitted s.machine) (s.eventsAll levels steps) ∧
      (s.performAll levels steps).2.Ranked := by
  cases steps with
  | nil => exact ⟨.nil, h⟩
  | cons step steps =>
    obtain ⟨hevents, hs⟩ := admitted_events levels s h step
    obtain ⟨hrest, hlast⟩ := admitted_eventsAll levels (s.perform levels step).2 hs steps
    refine ⟨local_admitted.append hevents ?_, hlast⟩
    rw [replay_events]
    exact hrest

end

end Session

/-- Whatever a host asks for, and whatever has happened so far: every link on the stack is absent,
dead, or leads down, and the searches for any name go down the stack.  As long as a scope is there
its link stays as it is, live or dead. -/
theorem session_links (levels : Nat) (config : Config) (steps : List Step) :
    let start := (Session.start config).machine
    let events := (Session.start config).eventsAll levels steps
    start.replay events = ((Session.start config).performAll levels steps).2.machine ∧
      (∀ past, past <+: events →
        (start.replay past).LinksDescend ∧ ∀ name, (start.replay past).Searches name) ∧
      ∀ past past', past <+: past' → past' <+: events →
        (start.replay past).LinksStay (start.replay past') := by
  intro start events
  have hstart := Session.ranked_start config
  have hevents := (Session.admitted_eventsAll levels _ hstart steps).1
  refine ⟨Session.replay_eventsAll levels _ steps, fun past hpast => ?_, ?_⟩
  · have hranked := hstart.machine.replay hevents hpast
    exact ⟨hranked.linksDescend, hranked.searches⟩
  · rintro past _ ⟨between, rfl⟩ hpast'
    have hranked := hstart.machine.replay hevents ((List.prefix_append _ _).trans hpast')
    rw [Machine.replay_append]
    exact (hranked.later_self.replay between).linksStay hranked

end Treewalk
