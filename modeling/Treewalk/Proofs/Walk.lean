import Treewalk.Proofs.Numbering

/-!
# Walks along the links

A name is looked up in the current scope, then in the scope that the link of this one leads to, and
so on.  Such a walk takes a link wherever it leads, as long as that scope is on the stack.  Nothing
in it makes it go down, or come to an end.

It does both where scopes are ranked by their numbers: the numbers fall from the top of the stack to
the bottom, and every link has a lower number than its scope.  Then a live link leads to a scope
further down, and to follow the links in one pass over the stack is the same as to walk.

## Main definitions

* `Machine.Walk` — a walk, with the scopes that are visited and what is found.
* `Machine.Ranked` — numbers and links fall.
* `Machine.LinksDescend` — links are absent, dead, or lead down.
* `Machine.Search` — a walk from the current scope that goes down the stack.
-/

namespace Treewalk

/-- The link of a scope has a lower number than the scope, and the numbers that the scope knows of
have been given. -/
structure Scope.Ranked (bound : Nat) (s : Scope) : Prop where
  fresh : s.id < bound
  link : ∀ link, s.parent = some link → link < s.id
  homes : ∀ name f, Entries.get? name s.funs = some f → f.home < bound

theorem Scope.Ranked.mono {bound bound' : Nat} {s : Scope} (h : s.Ranked bound)
    (hle : bound ≤ bound') : s.Ranked bound' where
  fresh := Nat.lt_of_lt_of_le h.fresh hle
  link := h.link
  homes name f hf := Nat.lt_of_lt_of_le (h.homes name f hf) hle

namespace Machine

variable {m : Machine} {α : Type} {pick : Scope → Option α}

/-- Numbers fall from the top of the stack to the bottom, and along the links. -/
structure Ranked (m : Machine) : Prop where
  sorted : (m.scopes.map Scope.id).Pairwise (· > ·)
  each : ∀ s ∈ m.scopes, s.Ranked m.nextId

theorem Ranked.wellNumbered (h : m.Ranked) : m.WellNumbered where
  nodup := h.sorted.imp fun hlt => Nat.ne_of_gt hlt
  fresh s hs := (h.each s hs).fresh

/-! ## Links -/

/-- The scope with a given number, as long as it is on the stack. -/
def live? (m : Machine) (id : Nat) : Option Scope := m.scopes.find? fun s => s.id = id

/-- The scope that the link of a scope leads to. -/
def parent? (m : Machine) (s : Scope) : Option Scope := s.parent.bind m.live?

theorem isSome_live? (m : Machine) (id : Nat) :
    (m.live? id).isSome ↔ id ∈ m.scopes.map Scope.id := by
  rw [live?, List.find?_isSome, List.mem_map]
  simp only [decide_eq_true_eq]

theorem live?_eq_none (m : Machine) (id : Nat) :
    m.live? id = none ↔ id ∉ m.scopes.map Scope.id := by
  rw [← isSome_live?, Option.not_isSome_iff_eq_none]

theorem WellNumbered.live?_eq (h : m.WellNumbered) {s : Scope} (hs : s ∈ m.scopes) :
    m.live? s.id = some s := by
  cases hlive : m.live? s.id with
  | none => exact absurd (List.mem_map_of_mem hs) ((m.live?_eq_none s.id).mp hlive)
  | some t =>
    have ht : t ∈ m.scopes := List.mem_of_find?_eq_some hlive
    have hid : t.id = s.id := by simpa using List.find?_some hlive
    rw [h.eq_of_id_eq ht hs hid]

/-- Every link is absent or dead, or it leads to a scope further down the stack. -/
def LinksDescend (m : Machine) : Prop :=
  ∀ above s below, m.scopes = above ++ s :: below → ∀ link, s.parent = some link →
    m.live? link = none ∨ ∃ t ∈ below, m.live? link = some t

/-- A number on the stack that is lower than that of a scope belongs to a scope further down. -/
theorem Ranked.mem_below (h : m.Ranked) {above below : List Scope} {s : Scope}
    (hscopes : m.scopes = above ++ s :: below) {id : Nat} (hid : id ∈ m.scopes.map Scope.id)
    (hlt : id < s.id) : id ∈ below.map Scope.id := by
  have hsorted := h.sorted
  rw [hscopes, List.map_append, List.map_cons] at hsorted hid
  have habove := (List.pairwise_append.mp hsorted).2.2
  rcases List.mem_append.mp hid with hmem | hmem
  · have := habove id hmem s.id List.mem_cons_self
    omega
  · exact (List.mem_cons.mp hmem).resolve_left (Nat.ne_of_lt hlt)

theorem Ranked.linksDescend (h : m.Ranked) : m.LinksDescend := by
  intro above s below hscopes link hlink
  have hs : s ∈ m.scopes := by rw [hscopes]; exact List.mem_append_right _ List.mem_cons_self
  by_cases hid : link ∈ m.scopes.map Scope.id
  · have hbelow := h.mem_below hscopes hid ((h.each s hs).link link hlink)
    obtain ⟨t, ht, rfl⟩ := List.mem_map.mp hbelow
    have htscopes : t ∈ m.scopes := by
      rw [hscopes]
      exact List.mem_append_right _ (List.mem_cons_of_mem _ ht)
    exact .inr ⟨t, ht, h.wellNumbered.live?_eq htscopes⟩
  · exact .inl ((m.live?_eq_none link).mpr hid)

/-! ## Walks -/

/-- A walk along the links from a scope, if there is one.  It comes to an end where something is
found, or where there is nowhere to go. -/
inductive Walk (m : Machine) (pick : Scope → Option α) :
    Option Scope → List Scope → Option α → Prop where
  | nowhere : Walk m pick none [] none
  | hit {s : Scope} {a : α} : pick s = some a → Walk m pick (some s) [s] (some a)
  | next {s : Scope} {visited : List Scope} {found : Option α} : pick s = none →
    Walk m pick (m.parent? s) visited found → Walk m pick (some s) (s :: visited) found

/-- There is one walk at most. -/
theorem Walk.unique {next : Option Scope} {visited visited' : List Scope} {found found' : Option α}
    (h : m.Walk pick next visited found) (h' : m.Walk pick next visited' found') :
    visited' = visited ∧ found' = found := by
  induction h generalizing visited' found' with
  | nowhere =>
    cases h'
    exact ⟨rfl, rfl⟩
  | hit ha =>
    cases h' with
    | hit ha' => exact ⟨rfl, ha'.symm.trans ha⟩
    | next hnone => exact absurd (ha.symm.trans hnone) nofun
  | next hnone _ ih =>
    cases h' with
    | hit ha' => exact absurd (ha'.symm.trans hnone) nofun
    | next _ hrest =>
      obtain ⟨rfl, rfl⟩ := ih hrest
      exact ⟨rfl, rfl⟩

/-- There is a walk that goes along some scopes up to the first one where something is found. -/
def Follows (m : Machine) (pick : Scope → Option α) (next : Option Scope) (way : List Scope) :
    Prop :=
  ∃ visited, m.Walk pick next visited (way.findSome? pick) ∧ visited <+: way

theorem Follows.nil : m.Follows pick none [] := ⟨[], .nowhere, List.prefix_refl _⟩

theorem Follows.cons {s : Scope} {way : List Scope} (h : m.Follows pick (m.parent? s) way) :
    m.Follows pick (some s) (s :: way) := by
  obtain ⟨visited, hwalk, hvisited⟩ := h
  cases hs : pick s with
  | some a =>
    refine ⟨[s], ?_, List.prefix_append [s] way⟩
    rw [List.findSome?_cons, hs]
    exact .hit hs
  | none =>
    refine ⟨s :: visited, ?_, List.cons_prefix_cons.mpr ⟨rfl, hvisited⟩⟩
    rw [List.findSome?_cons, hs]
    exact .next hs hwalk

/-- The global scope has nothing below, so that its link would lead nowhere. -/
theorem Ranked.parent?_global (h : m.Ranked) : m.parent? m.global = none := by
  rw [parent?]
  cases hlink : m.global.parent with
  | none => rfl
  | some link =>
    rcases h.linksDescend m.frames m.global [] rfl link hlink with hdead | ⟨t, ht, -⟩
    · exact hdead
    · cases ht

/-- To follow a link in one pass over a part of the stack is to walk from where it leads, if that is
nowhere above. -/
theorem Ranked.follows (h : m.Ranked) (pick : Scope → Option α) {above l : List Scope}
    (hframes : m.frames = above ++ l) {link : Option Nat}
    (hlink : ∀ id, link = some id → id ∈ m.scopes.map Scope.id →
      id ∈ (l ++ [m.global]).map Scope.id) :
    m.Follows pick (link.bind m.live?) (follow m.global link l) := by
  have hnumbered := h.wellNumbered
  induction l generalizing above link with
  | nil =>
    cases link with
    | none => exact .nil
    | some id =>
      rw [Option.bind_some, follow]
      split
      · next hid =>
        subst hid
        rw [hnumbered.live?_eq (List.mem_append_right _ List.mem_cons_self)]
        refine .cons ?_
        rw [h.parent?_global]
        exact .nil
      · next hid =>
        have hdead : id ∉ m.scopes.map Scope.id := fun hmem =>
          hid (List.mem_singleton.mp (hlink id rfl hmem)).symm
        rw [(m.live?_eq_none id).mpr hdead]
        exact .nil
  | cons s below ih =>
    have hscopes : m.scopes = above ++ s :: (below ++ [m.global]) := by
      rw [scopes, hframes, List.append_assoc, List.cons_append]
    have hbelow : m.frames = (above ++ [s]) ++ below := by rw [hframes, List.append_assoc]; rfl
    cases link with
    | none => exact .nil
    | some id =>
      rw [Option.bind_some, follow]
      split
      · next hid =>
        subst hid
        have hs : s ∈ m.scopes := by
          rw [hscopes]
          exact List.mem_append_right _ List.mem_cons_self
        rw [hnumbered.live?_eq hs]
        refine .cons (ih hbelow fun parent hparent hmem => ?_)
        exact h.mem_below hscopes hmem ((h.each s hs).link parent hparent)
      · next hid =>
        refine @ih _ hbelow (some id) fun id' hid' hmem => ?_
        obtain rfl := Option.some.inj hid'
        exact (List.mem_cons.mp (hlink id rfl hmem)).resolve_left fun heq => hid heq.symm

/-- The walk for a name from the current scope: there is no other one, and it goes down the stack,
with a scope at most once. -/
structure Search (m : Machine) (pick : Scope → Option α) (found : Option α) (visited : List Scope) :
    Prop where
  walk_iff : ∀ visited' found',
    m.Walk pick (some m.current) visited' found' ↔ visited' = visited ∧ found' = found
  down : visited.Sublist m.scopes
  length_le : visited.length ≤ m.scopeDepth

theorem Ranked.follows_from (h : m.Ranked) (pick : Scope → Option α) {s : Scope}
    (hs : s ∈ m.scopes) : m.Follows pick (some s) (follow m.global (some s.id) m.frames) := by
  have hfollows : m.Follows pick ((some s.id).bind m.live?)
      (follow m.global (some s.id) m.frames) :=
    h.follows pick (List.nil_append _).symm fun _ _ hmem => hmem
  rwa [Option.bind_some, h.wellNumbered.live?_eq hs] at hfollows

theorem Ranked.exists_search (h : m.Ranked) (pick : Scope → Option α) :
    ∃ visited, m.Search pick (m.chain.findSome? pick) visited := by
  have hcurrent : m.current ∈ m.scopes := by rw [scopes_eq]; exact List.mem_cons_self
  obtain ⟨visited, hwalk, hvisited⟩ := h.follows_from pick hcurrent
  rw [← chain_eq_follow] at hwalk hvisited
  have hdown := hvisited.sublist.trans m.chain_sublist
  refine ⟨visited, fun visited' found' => ⟨hwalk.unique, ?_⟩, hdown, ?_⟩
  · rintro ⟨rfl, rfl⟩
    exact hwalk
  · have hlength := hdown.length_le
    rwa [scopes, List.length_append] at hlength

/-- The three searches for a name: for a variable, for a function, and for the scope to assign to. -/
structure Searches (m : Machine) (name : String) : Prop where
  lookupVariable : ∃ visited,
    m.Search (fun s => Entries.get? name s.vars) (m.lookupVariable name) visited
  lookupFunction : ∃ visited,
    m.Search (fun s => Entries.get? name s.funs) (m.lookupFunction name) visited
  owner : ∃ visited,
    m.Search (Option.guard fun s => Entries.has name s.vars) (m.owner? name) visited

theorem Ranked.searches (h : m.Ranked) (name : String) : m.Searches name where
  lookupVariable := h.exists_search _
  lookupFunction := h.exists_search _
  owner := by
    rw [owner?, List.find?_eq_findSome?_guard]
    exact h.exists_search _

end Machine

end Treewalk
