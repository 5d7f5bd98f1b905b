import Treewalk.Proofs.Links

/-!
# Assignments

An assignment looks for the scope that binds a name, and changes this one binding.  It has a walk of
its own for that, which asks whether a scope binds the name; to look a variable up is to ask for its
value.  Both walks visit the same scopes, so that an assignment is for the scope that is read, even
if the value there is absent.

If no scope along the links binds the name, there is a new binding in the current scope.  No other
scope on the stack has a link to that one, since links lead down.

## Main definitions

* `Machine.chainFrom`, `Machine.variableFrom`, `Machine.functionFrom` — lookups from any scope.
* `Machine.FollowsLinks` — these lookups are walks along the links.
* `Machine.Target` — the scope that an assignment is for.
* `Machine.Assigns` — what an assignment does.
-/

namespace Treewalk

/-! ## Bindings -/

theorem Entries.insert_insert {α : Type} (name : String) (x y : α) (es : Entries α) :
    insert name y (insert name x es) = insert name y es := by
  induction es with
  | nil => simp [insert]
  | cons e es ih =>
    obtain ⟨k, z⟩ := e
    by_cases h : k = name <;> simp [insert, h, ih]

theorem Scope.onlyAt_onlyAt (id : Nat) (name : String) (v w : Value) (s : Scope) :
    (s.onlyAt id (bindVariable name v)).onlyAt id (bindVariable name w) =
      s.onlyAt id (bindVariable name w) := by
  by_cases h : s.id = id
  · simp [onlyAt, bindVariable, h, Entries.insert_insert]
  · simp [onlyAt, h]

namespace Machine

/-! ## Lookups from any scope -/

/-- The scope with a given number and the ones along the links from there. -/
def chainFrom (id : Nat) (m : Machine) : List Scope := follow m.global (some id) m.frames

/-- The value of a variable, looked up from a scope. -/
def variableFrom (id : Nat) (name : String) (m : Machine) : Option Value :=
  (m.chainFrom id).findSome? fun s => Entries.get? name s.vars

/-- A function by its name, looked up from a scope. -/
def functionFrom (id : Nat) (name : String) (m : Machine) : Option Closure :=
  (m.chainFrom id).findSome? fun s => Entries.get? name s.funs

/-- The scope that binds a variable, looked up from a scope. -/
def ownerFrom (id : Nat) (name : String) (m : Machine) : Option Scope :=
  (m.chainFrom id).find? fun s => Entries.has name s.vars

/-- From every scope on the stack, lookups are walks along the links. -/
def FollowsLinks (m : Machine) : Prop :=
  ∀ s ∈ m.scopes, ∀ (α : Type) (pick : Scope → Option α),
    ∃ visited, m.Walk pick (some s) visited ((m.chainFrom s.id).findSome? pick)

variable {m : Machine} {name : String} {v : Value} {s : Scope}

theorem Ranked.followsLinks (h : m.Ranked) : m.FollowsLinks := by
  intro s hs α pick
  obtain ⟨visited, hwalk, -⟩ := h.follows_from pick hs
  exact ⟨visited, hwalk⟩

theorem chain_eq_chainFrom (m : Machine) : m.chain = m.chainFrom m.current.id := chain_eq_follow m

theorem current_mem_chain (m : Machine) : m.current ∈ m.chain := by
  obtain ⟨outer, hchain⟩ := m.chain_eq_cons
  rw [hchain]
  exact List.mem_cons_self

theorem chainFrom_subset (id : Nat) (m : Machine) : ∀ s ∈ m.chainFrom id, s ∈ m.scopes :=
  fun _ hs => (follow_sublist _ _ _).subset hs

/-- From another scope only those below the current one are looked through. -/
theorem chainFrom_subset_below {id : Nat} (hid : id ≠ m.current.id) :
    ∀ s ∈ m.chainFrom id, s ∈ m.below := by
  intro s hs
  rw [chainFrom] at hs
  rw [current] at hid
  rw [below, scopes]
  cases hframes : m.frames with
  | nil =>
    rw [hframes, List.headD_nil] at hid
    rw [hframes, follow, if_neg (Ne.symm hid)] at hs
    cases hs
  | cons t rest =>
    rw [hframes, List.headD_cons] at hid
    rw [hframes, follow, if_neg (Ne.symm hid)] at hs
    exact (follow_sublist _ _ _).subset hs

theorem current_notMem_chainFrom (h : m.WellNumbered) {id : Nat} (hid : id ≠ m.current.id) :
    m.current ∉ m.chainFrom id := by
  intro hmem
  have hnodup : m.scopes.Nodup := h.nodup.of_map
  rw [scopes_eq, List.nodup_cons] at hnodup
  exact hnodup.1 (chainFrom_subset_below hid _ hmem)

/-- A change that keeps numbers and links leads to the changed scopes. -/
theorem follow_map_of_place {g : Scope → Scope} (hg : ∀ s, (g s).place = s.place) (global : Scope)
    (link : Option Nat) (l : List Scope) :
    follow (g global) link (l.map g) = (follow global link l).map g := by
  induction l generalizing link with
  | nil =>
    cases link with
    | none => rfl
    | some id =>
      simp only [follow, List.map_nil, Scope.id_eq_of_place (hg global)]
      split <;> rfl
  | cons s below ih =>
    cases link with
    | none => rfl
    | some id =>
      simp only [follow, List.map_cons, Scope.id_eq_of_place (hg s),
        Scope.parent_eq_of_place (hg s), ih]
      split <;> rfl

/-! ## The walks for a name -/

section Walks

variable {α β : Type} {pick : Scope → Option α} {pick' : Scope → Option β}

/-- A walk for something else goes the same way, if that is found in the same scopes. -/
theorem Walk.sameWay (hpick : ∀ s, (pick' s).isSome = (pick s).isSome) {next : Option Scope}
    {visited : List Scope} {found : Option α} (h : m.Walk pick next visited found) :
    ∃ found', m.Walk pick' next visited found' := by
  induction h with
  | nowhere => exact ⟨none, .nowhere⟩
  | @hit s a ha =>
    have hsome : (pick' s).isSome = true := by rw [hpick, ha]; rfl
    obtain ⟨b, hb⟩ := Option.isSome_iff_exists.mp hsome
    exact ⟨some b, .hit hb⟩
  | @next s visited found hs _ ih =>
    have hnone : pick' s = none := by rw [← Option.not_isSome_iff_eq_none, hpick, hs]; simp
    obtain ⟨found', hwalk⟩ := ih
    exact ⟨found', .next hnone hwalk⟩

theorem Search.sameWay (hpick : ∀ s, (pick' s).isSome = (pick s).isSome) {found : Option α}
    {found' : Option β} {visited visited' : List Scope} (h : m.Search pick found visited)
    (h' : m.Search pick' found' visited') : visited' = visited := by
  obtain ⟨found'', hwalk⟩ := ((h.walk_iff visited found).mpr ⟨rfl, rfl⟩).sameWay hpick
  exact ((h'.walk_iff visited found'').mp hwalk).1.symm

end Walks

/-- The value of a variable and the scope that binds it are searched for in the same scopes. -/
theorem Ranked.exists_sameWay (h : m.Ranked) (name : String) : ∃ visited,
    m.Search (fun s => Entries.get? name s.vars) (m.lookupVariable name) visited ∧
      m.Search (Option.guard fun s => Entries.has name s.vars) (m.owner? name) visited := by
  obtain ⟨visited, hread⟩ := (h.searches name).lookupVariable
  obtain ⟨visited', howner⟩ := (h.searches name).owner
  have hpick : ∀ s : Scope, (Option.guard (fun s => Entries.has name s.vars) s).isSome =
      (Entries.get? name s.vars).isSome := by
    intro s
    rw [Option.isSome_guard, Entries.has]
  obtain rfl := hread.sameWay hpick howner
  exact ⟨_, hread, howner⟩

/-! ## The scope that an assignment is for -/

/-- The scope that an assignment is for. -/
inductive Target (m : Machine) (name : String) : Scope → Prop where
  /-- The first scope along the links that binds the name. -/
  | bound {nearer farther : List Scope} {s : Scope} : m.chain = nearer ++ s :: farther →
    (∀ t ∈ nearer, Entries.has name t.vars = false) → Entries.has name s.vars = true →
    Target m name s
  /-- The current scope, if none does. -/
  | unbound : (∀ t ∈ m.chain, Entries.has name t.vars = false) → Target m name m.current

theorem target_of_owner? (m : Machine) (name : String) : m.Target name (m.target name) := by
  rw [target]
  cases howner : m.owner? name with
  | none =>
    refine .unbound ?_
    intro t ht
    rw [owner?, List.find?_eq_none] at howner
    simpa using howner t ht
  | some s =>
    rw [owner?, List.find?_eq_some_iff_append] at howner
    obtain ⟨hs, nearer, farther, hchain, hnearer⟩ := howner
    refine .bound hchain ?_ hs
    intro t ht
    simpa using hnearer t ht

theorem Target.eq_target (h : m.Target name s) : s = m.target name := by
  rw [target, owner?]
  cases h with
  | bound hchain hnearer hs =>
    have howner : m.chain.find? (fun s => Entries.has name s.vars) = some s := by
      rw [List.find?_eq_some_iff_append]
      exact ⟨hs, _, _, hchain, fun t ht => by simp [hnearer t ht]⟩
    rw [howner]
    rfl
  | unbound hnone =>
    have howner : m.chain.find? (fun s => Entries.has name s.vars) = none := by
      rw [List.find?_eq_none]
      intro t ht
      simp [hnone t ht]
    rw [howner]
    rfl

theorem Target.mem_scopes (h : m.Target name s) : s ∈ m.scopes := by
  cases h with
  | bound hchain => exact m.chain_subset s (by simp [hchain])
  | unbound => exact m.chain_subset _ m.current_mem_chain

/-- An assignment is for the scope that is read. -/
theorem Target.lookupVariable_eq (h : m.Target name s) :
    m.lookupVariable name = Entries.get? name s.vars := by
  have hmissing : ∀ t : Scope, Entries.has name t.vars = false → Entries.get? name t.vars = none := by
    intro t ht
    rwa [Entries.has, Option.isSome_eq_false_iff, Option.isNone_iff_eq_none] at ht
  rw [lookupVariable]
  cases h with
  | bound hchain hnearer hs =>
    obtain ⟨w, hw⟩ := Option.isSome_iff_exists.mp hs
    rw [hchain, List.findSome?_append, List.findSome?_cons, hw,
      List.findSome?_eq_none_iff.mpr fun t ht => hmissing t (hnearer t ht)]
    rfl
  | unbound hnone =>
    rw [List.findSome?_eq_none_iff.mpr fun t ht => hmissing t (hnone t ht),
      hmissing _ (hnone _ m.current_mem_chain)]

/-! ## What an assignment changes -/

section Changes

variable (v)

theorem Target.assign_eq (h : m.Target name s) (hm : m.WellNumbered) :
    m.assign name v = m.mapScopes (Scope.onlyAt s.id (Scope.bindVariable name v)) := by
  rw [h.eq_target]
  exact Machine.assign_eq hm name v

/-- The place of a scope is not changed by a new value. -/
theorem place_onlyAt_bindVariable (id : Nat) (name : String) (t : Scope) :
    (t.onlyAt id (Scope.bindVariable name v)).place = t.place :=
  Scope.place_onlyAt (Scope.place_bindVariable name v) id t

theorem Target.chainFrom_assign (h : m.Target name s) (hm : m.WellNumbered) (id : Nat) :
    (m.assign name v).chainFrom id =
      (m.chainFrom id).map (Scope.onlyAt s.id (Scope.bindVariable name v)) := by
  rw [h.assign_eq v hm]
  exact follow_map_of_place (place_onlyAt_bindVariable v s.id name) _ _ _

theorem Target.chain_assign (h : m.Target name s) (hm : m.WellNumbered) :
    (m.assign name v).chain =
      m.chain.map (Scope.onlyAt s.id (Scope.bindVariable name v)) := by
  rw [chain_eq_chainFrom, chain_eq_chainFrom, (sameStack_assign name v m).current_id,
    h.chainFrom_assign v hm]

/-- The scope that was assigned to is found again, whether it had bound the name before or not. -/
theorem Target.assign (h : m.Target name s) (hm : m.WellNumbered) :
    (m.assign name v).Target name (s.bindVariable name v) := by
  have hchain' := h.chain_assign v hm
  have hhere : s.onlyAt s.id (Scope.bindVariable name v) = s.bindVariable name v := if_pos rfl
  have hbound : Entries.has name (s.bindVariable name v).vars = true := by
    rw [Scope.bindVariable, Entries.has, Entries.get?_insert_self]
    rfl
  have hs := h.mem_scopes
  cases h with
  | @bound nearer farther _ hchain hnearer hhas =>
    rw [hchain, List.map_append, List.map_cons, hhere] at hchain'
    refine .bound hchain' ?_ hbound
    intro t' ht'
    obtain ⟨t, ht, rfl⟩ := List.mem_map.mp ht'
    have hne : t.id ≠ s.id := by
      intro hid
      have hmem : t ∈ m.scopes := m.chain_subset t (by simp [hchain, ht])
      rw [← hm.eq_of_id_eq hmem hs hid, hnearer t ht] at hhas
      cases hhas
    rw [Scope.onlyAt, if_neg hne]
    exact hnearer t ht
  | unbound hnone =>
    obtain ⟨outer, hchain⟩ := m.chain_eq_cons
    rw [hchain, List.map_cons, hhere] at hchain'
    exact @bound _ _ [] _ _ hchain' (List.forall_mem_nil _) hbound

theorem mapScopes_mapScopes (f g : Scope → Scope) (m : Machine) :
    (m.mapScopes f).mapScopes g = m.mapScopes fun s => g (f s) := by
  simp [mapScopes, Function.comp_def]

/-- Of two assignments the first one is lost. -/
theorem Target.assign_assign (h : m.Target name s) (hm : m.WellNumbered) (w : Value) :
    (m.assign name v).assign name w = m.assign name w := by
  have hm' : (m.assign name v).WellNumbered := hm.of_sameStack (sameStack_assign name v m)
  rw [(h.assign v hm).assign_eq w hm', h.assign_eq v hm, h.assign_eq w hm, mapScopes_mapScopes]
  exact congrArg m.mapScopes (funext fun t => t.onlyAt_onlyAt s.id name v w)

end Changes

/-! ## What is found after an assignment -/

section Lookups

variable {l : List Scope}

/-- What a new value of a variable does not change is found as before. -/
theorem findSome?_onlyAt {α : Type} {pick : Scope → Option α}
    (hpick : ∀ t : Scope, pick (t.bindVariable name v) = pick t) (id : Nat) (l : List Scope) :
    (l.map (Scope.onlyAt id (Scope.bindVariable name v))).findSome? pick = l.findSome? pick := by
  rw [List.findSome?_map]
  congr 1
  funext t
  simp only [Function.comp_apply, Scope.onlyAt]
  split
  · exact hpick t
  · rfl

/-- The new value is found where the scope was found that it was bound in. -/
theorem findSome?_vars (v : Value) (hl : ∀ t ∈ l, t.id = s.id → Entries.has name t.vars = true) :
    (l.map (Scope.onlyAt s.id (Scope.bindVariable name v))).findSome?
        (fun t => Entries.get? name t.vars) =
      if (l.find? fun t => Entries.has name t.vars).map Scope.id = some s.id then some v
      else l.findSome? fun t => Entries.get? name t.vars := by
  induction l with
  | nil => simp
  | cons t l ih =>
    rw [List.forall_mem_cons] at hl
    have hrest := ih hl.2
    rw [List.map_cons, List.findSome?_cons, List.findSome?_cons, List.find?_cons]
    by_cases hid : t.id = s.id
    · have hhere : Entries.get? name (t.onlyAt s.id (Scope.bindVariable name v)).vars = some v := by
        rw [Scope.onlyAt, if_pos hid]
        exact Entries.get?_insert_self name v t.vars
      simp [hhere, hl.1 hid, hid]
    · rw [Scope.onlyAt, if_neg hid, hrest]
      cases hget : Entries.get? name t.vars <;> simp [Entries.has, hget, hid]

end Lookups

/-- What an assignment of a value to a name does, given the scope that it is for. -/
structure Assigns (m : Machine) (name : String) (v : Value) (s : Scope) : Prop where
  /-- The variable is read in that scope, -/
  reads : m.lookupVariable name = Entries.get? name s.vars
  /-- and the way there is the same. -/
  sameWay : ∃ visited,
    m.Search (fun t => Entries.get? name t.vars) (m.lookupVariable name) visited ∧
      m.Search (Option.guard fun t => Entries.has name t.vars) (m.owner? name) visited
  /-- Nothing else is changed. -/
  changes : m.assign name v = m.mapScopes (Scope.onlyAt s.id (Scope.bindVariable name v))
  lookup : (m.assign name v).lookupVariable name = some v
  others : ∀ t ∈ m.scopes, ∀ other, other ≠ name →
    (m.assign name v).variableFrom t.id other = m.variableFrom t.id other
  functions : ∀ t ∈ m.scopes, ∀ other,
    (m.assign name v).functionFrom t.id other = m.functionFrom t.id other
  /-- From another scope the value is found if that scope was found before. -/
  elsewhere : ∀ t ∈ m.scopes, t.id ≠ m.current.id →
    (m.assign name v).variableFrom t.id name =
      if (m.ownerFrom t.id name).map Scope.id = some s.id then some v
      else m.variableFrom t.id name
  /-- Another assignment is for the same scope. -/
  again : (m.assign name v).Target name (s.bindVariable name v) ∧
    ∀ w, (m.assign name v).assign name w = m.assign name w

theorem Target.variableFrom_assign (h : m.Target name s) (hm : m.WellNumbered) (v : Value)
    {id : Nat} (hid : id ≠ m.current.id) :
    (m.assign name v).variableFrom id name =
      if (m.ownerFrom id name).map Scope.id = some s.id then some v else m.variableFrom id name := by
  rw [variableFrom, h.chainFrom_assign v hm, ownerFrom, variableFrom]
  refine findSome?_vars v ?_
  intro t ht hts
  have hsame : t = s := hm.eq_of_id_eq (m.chainFrom_subset id t ht) h.mem_scopes hts
  cases h with
  | bound _ _ hhas => rwa [hsame]
  | unbound =>
    rw [hsame] at ht
    exact absurd ht (current_notMem_chainFrom hm hid)

theorem Target.assigns (ht : m.Target name s) (h : m.Ranked) (v : Value) :
    m.Assigns name v s where
  reads := ht.lookupVariable_eq
  sameWay := h.exists_sameWay name
  changes := ht.assign_eq v h.wellNumbered
  lookup := by
    rw [(ht.assign v h.wellNumbered).lookupVariable_eq]
    exact Entries.get?_insert_self name v s.vars
  others := by
    intro t _ other hother
    rw [variableFrom, ht.chainFrom_assign v h.wellNumbered]
    exact findSome?_onlyAt (fun t => Entries.get?_insert_of_ne hother v t.vars) s.id _
  functions := by
    intro t _ other
    rw [functionFrom, ht.chainFrom_assign v h.wellNumbered]
    exact findSome?_onlyAt (fun _ => rfl) s.id _
  elsewhere := by
    intro t _ hid
    exact ht.variableFrom_assign h.wellNumbered v hid
  again := ⟨ht.assign v h.wellNumbered, ht.assign_assign v h.wellNumbered⟩

end Machine

/-- Whatever a host asks for, and whatever has happened so far: there is one scope that an assignment
to a name is for, which is the one that the variable is read in.  Its binding of the name is all that
is changed.  From there on the value is found where that scope was found before, and whatever else is
looked up, from any scope on the stack, stays as it is. -/
theorem session_assignments (levels : Nat) (config : Config) (steps : List Step) :
    let start := (Session.start config).machine
    let events := (Session.start config).eventsAll levels steps
    start.replay events = ((Session.start config).performAll levels steps).2.machine ∧
      ∀ past, past <+: events → (start.replay past).FollowsLinks ∧
        ∀ name v, ((start.replay past).assign name v).FollowsLinks ∧
          ∃ s, (∀ t, (start.replay past).Target name t ↔ t = s) ∧
            (start.replay past).Assigns name v s := by
  intro start events
  have hstart := Session.ranked_start config
  have hevents := (Session.admitted_eventsAll levels _ hstart steps).1
  refine ⟨Session.replay_eventsAll levels _ steps, ?_⟩
  intro past hpast
  have hranked := hstart.machine.replay hevents hpast
  refine ⟨hranked.followsLinks, ?_⟩
  intro name v
  have hadmitted : (Event.assigns name v).Admitted (start.replay past) := trivial
  have hassigned : ((start.replay past).assign name v).Ranked := hranked.apply hadmitted
  have htarget := (start.replay past).target_of_owner? name
  refine ⟨hassigned.followsLinks, _, ?_, htarget.assigns hranked v⟩
  intro t
  constructor
  · intro ht
    exact ht.eq_target
  · intro ht
    rwa [ht]

/-- A function that assigns to a variable that it does not declare. -/
def assignerOfX : Closure where
  name := "f"
  params := []
  body :=
    [.expression (.assignment (.identifier { name := "x" }) (.literal { value := .null }) {}) {}]
  home := 0

/-- A program that declares the variable without a value, and calls the function. -/
def callsAssigner : Program where
  body :=
    [.declaration .letKind [⟨{ name := "x" }, none⟩] {},
      .function { name := "f" } false false [] assignerOfX.body {} {},
      .expression (.call (.identifier { name := "f" }) [] {}) {}]

/-- The machine in that call. -/
def machineInCall : Machine where
  global := { id := 0, vars := [("x", .absent)], funs := [("f", assignerOfX)] }
  frames := [{ id := 1, parent := some 0 }]
  nextId := 2
  callDepth := 1

/-- In the call the variable is found in the scope below, where it has the absent value.  So this is
where the new value is found from then on. -/
theorem callsAssigner_below :
    let events := (Session.start {}).eventsAll 5 [.run callsAssigner]
    events.take 8 <+: events ∧
      (Session.start {}).machine.replay (events.take 8) = machineInCall ∧
      machineInCall.lookupVariable "x" = some .absent ∧
      (machineInCall.assign "x" .null).lookupVariable "x" = some .null ∧
      (machineInCall.assign "x" .null).variableFrom 0 "x" = some .null := by
  intro events
  have hpast : events.take 8 <+: events := List.take_prefix 8 events
  have hmachine : (Session.start {}).machine.replay (events.take 8) = machineInCall := rfl
  obtain ⟨-, hreachable⟩ := session_assignments 5 {} [.run callsAssigner]
  obtain ⟨-, hassigned⟩ := hreachable (events.take 8) hpast
  obtain ⟨-, s, htarget, hassigns⟩ := hassigned "x" .null
  rw [hmachine] at htarget hassigns
  have hglobal : machineInCall.Target "x" machineInCall.global := by
    have hchain : machineInCall.chain = [machineInCall.current] ++ machineInCall.global :: [] := rfl
    exact .bound hchain (List.forall_mem_singleton.mpr rfl) rfl
  have hbelow := hassigns.elsewhere machineInCall.global
    (List.mem_append_right _ List.mem_cons_self) (by decide)
  rw [← (htarget machineInCall.global).mp hglobal] at hbelow
  exact ⟨hpast, hmachine, rfl, hassigns.lookup, hbelow⟩

end Treewalk
