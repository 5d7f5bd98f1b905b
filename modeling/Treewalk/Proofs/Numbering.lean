import Mathlib.Data.List.Nodup
import Treewalk.Machine.Session
import Treewalk.Proofs.Balance

/-!
# Scopes by their numbers

A number stands for a scope as long as no two scopes on the stack have the same one.  This holds of
a new machine and is kept by whatever a host does with it.  Then a change of one scope is a map over
the stack, and the scopes along the links from a scope are the same wherever the search began.

## Main definitions

* `Machine.WellNumbered` — no number is given twice.
* `Machine.mapScopes`, `Scope.onlyAt` — changes as maps.
* `Session.wellNumbered_perform` — a host keeps machines well numbered.
-/

namespace Treewalk

/-- Change a scope if it has a given number. -/
def Scope.onlyAt (id : Nat) (f : Scope → Scope) (s : Scope) : Scope := if s.id = id then f s else s

theorem Scope.place_onlyAt {f : Scope → Scope} (hf : ∀ s, (f s).place = s.place) (id : Nat)
    (s : Scope) : (s.onlyAt id f).place = s.place := by
  rw [onlyAt]
  split
  · exact hf s
  · rfl

theorem Scope.id_eq_of_place {s t : Scope} (h : s.place = t.place) : s.id = t.id :=
  congrArg Prod.fst h

theorem Scope.parent_eq_of_place {s t : Scope} (h : s.place = t.place) : s.parent = t.parent :=
  congrArg Prod.snd h

namespace Machine

variable {m m' : Machine}

/-- The scopes below the current one. -/
def below (m : Machine) : List Scope := m.scopes.tail

theorem scopes_eq (m : Machine) : m.scopes = m.current :: m.below := by
  rw [below, scopes, current]
  cases m.frames <;> rfl

@[simp] theorem scopes_enterCall (parent : Option Nat) (m : Machine) :
    (m.enterCall parent).scopes = { id := m.nextId, parent } :: m.scopes := rfl

theorem leaveCall_sublist (m : Machine) : m.leaveCall.scopes.Sublist m.scopes :=
  (List.tail_sublist m.frames).append (List.Sublist.refl [m.global])

/-- No two scopes on the stack have the same number, and the number of the next scope is new. -/
structure WellNumbered (m : Machine) : Prop where
  nodup : (m.scopes.map Scope.id).Nodup
  fresh : ∀ s ∈ m.scopes, s.id < m.nextId

namespace WellNumbered

theorem eq_of_id_eq (h : m.WellNumbered) {s t : Scope} (hs : s ∈ m.scopes) (ht : t ∈ m.scopes)
    (hid : s.id = t.id) : s = t :=
  List.inj_on_of_nodup_map h.nodup hs ht hid

theorem of_sameStack (h : m.WellNumbered) (hm : m.SameStack m') : m'.WellNumbered where
  nodup := by rw [hm.ids]; exact h.nodup
  fresh := by
    intro s hs
    have hid : s.id ∈ m.scopes.map Scope.id := by
      rw [← hm.ids]
      exact List.mem_map_of_mem hs
    obtain ⟨t, ht, hst⟩ := List.mem_map.mp hid
    rw [← hst]
    exact Nat.lt_of_lt_of_le (h.fresh t ht) hm.nextId_le

theorem enterCall (h : m.WellNumbered) (parent : Option Nat) :
    (m.enterCall parent).WellNumbered where
  nodup := by
    simp only [scopes_enterCall, List.map_cons, List.nodup_cons, List.mem_map, not_exists, not_and]
    exact ⟨fun s hs => Nat.ne_of_lt (h.fresh s hs), h.nodup⟩
  fresh := by
    intro s hs
    rw [scopes_enterCall, List.mem_cons] at hs
    rcases hs with rfl | hs
    · exact Nat.lt_succ_self _
    · exact Nat.lt_succ_of_lt (h.fresh s hs)

theorem leaveCall (h : m.WellNumbered) : m.leaveCall.WellNumbered where
  nodup := h.nodup.sublist (m.leaveCall_sublist.map _)
  fresh s hs := h.fresh s (m.leaveCall_sublist.subset hs)

end WellNumbered

/-! ## Changes as maps -/

/-- Change all scopes in the same way. -/
def mapScopes (g : Scope → Scope) (m : Machine) : Machine :=
  { m with global := g m.global, frames := m.frames.map g }

@[simp] theorem scopes_mapScopes (g : Scope → Scope) (m : Machine) :
    (m.mapScopes g).scopes = m.scopes.map g := by
  simp [scopes, mapScopes]

theorem sameStack_mapScopes {g : Scope → Scope} (hg : ∀ s, (g s).place = s.place) (m : Machine) :
    m.SameStack (m.mapScopes g) :=
  ⟨hg _, by simp [mapScopes, Function.comp_def, hg], rfl, rfl, Nat.le_refl _⟩

private theorem map_onlyAt_of_notMem {id : Nat} {f : Scope → Scope} {l : List Scope}
    (h : id ∉ l.map Scope.id) : l.map (Scope.onlyAt id f) = l := by
  have hs : ∀ s ∈ l, s.onlyAt id f = s := fun s hs =>
    if_neg fun (heq : s.id = id) => h (heq ▸ List.mem_map_of_mem hs)
  rw [List.map_congr_left hs, List.map_id'']
  exact fun _ => rfl

private theorem changeAt_eq_map {id : Nat} {f : Scope → Scope} {l : List Scope}
    (h : (l.map Scope.id).Nodup) : changeAt id f l = l.map (Scope.onlyAt id f) := by
  induction l with
  | nil => rfl
  | cons s below ih =>
    rw [List.map_cons, List.nodup_cons] at h
    by_cases hs : s.id = id
    · have hbelow : below.map (Scope.onlyAt id f) = below := map_onlyAt_of_notMem (hs ▸ h.1)
      rw [List.map_cons, hbelow]
      simp [changeAt, Scope.onlyAt, hs]
    · simp [changeAt, hs, ih h.2, Scope.onlyAt]

theorem changeScope_eq (h : m.WellNumbered) (id : Nat) (f : Scope → Scope) :
    m.changeScope id f = m.mapScopes (Scope.onlyAt id f) := by
  have hnodup := h.nodup
  simp only [scopes, List.map_append, List.nodup_append] at hnodup
  obtain ⟨hframes, -, hglobal⟩ := hnodup
  rw [changeScope, mapScopes]
  by_cases hid : m.global.id = id
  · have hnot : id ∉ m.frames.map Scope.id := fun hmem => hglobal id hmem _ (by simp) hid.symm
    rw [if_pos hid, map_onlyAt_of_notMem hnot]
    simp [Scope.onlyAt, hid]
  · rw [if_neg hid, changeAt_eq_map hframes]
    simp [Scope.onlyAt, hid]

theorem changeCurrent_eq (h : m.WellNumbered) (f : Scope → Scope) :
    m.changeCurrent f = m.mapScopes (Scope.onlyAt m.current.id f) := by
  rw [← changeScope_eq h]
  have hnodup := h.nodup
  rw [changeCurrent, changeScope, current]
  cases hframes : m.frames with
  | nil => simp
  | cons s below =>
    have hne : m.global.id ≠ s.id := by
      simp only [scopes, hframes, List.cons_append, List.map_cons, List.nodup_cons] at hnodup
      exact fun heq => hnodup.1 (by simp [heq])
    simp [changeAt, hne]

theorem setVariable_eq (h : m.WellNumbered) (name : String) (v : Value) :
    m.setVariable name v = m.mapScopes (Scope.onlyAt m.current.id (Scope.bindVariable name v)) :=
  changeCurrent_eq h _

theorem setFunction_eq (h : m.WellNumbered) (name : String) (f : Closure) :
    m.setFunction name f = m.mapScopes (Scope.onlyAt m.current.id (Scope.bindFunction name f)) :=
  changeCurrent_eq h _

/-- The scope that an assignment binds a name in. -/
def target (m : Machine) (name : String) : Scope := (m.owner? name).getD m.current

theorem assign_eq (h : m.WellNumbered) (name : String) (v : Value) :
    m.assign name v =
      m.mapScopes (Scope.onlyAt (m.target name).id (Scope.bindVariable name v)) := by
  rw [assign, target]
  cases m.owner? name with
  | none => exact setVariable_eq h name v
  | some s => exact changeScope_eq h s.id _

/-! ## Links -/

theorem chain_eq_follow (m : Machine) :
    m.chain = follow m.global (some m.current.id) m.frames := by
  rw [chain, current]
  cases m.frames <;> simp [follow]

/-- Only numbers and links decide which scopes are followed. -/
theorem map_place_follow {global global' : Scope} (hglobal : global'.place = global.place)
    {l l' : List Scope} (hl : l'.map Scope.place = l.map Scope.place) (link : Option Nat) :
    (follow global' link l').map Scope.place = (follow global link l).map Scope.place := by
  induction l generalizing l' link with
  | nil =>
    obtain rfl : l' = [] := by simpa using hl
    cases link with
    | none => rfl
    | some id =>
      simp only [follow, Scope.id_eq_of_place hglobal]
      split <;> simp [hglobal]
  | cons s below ih =>
    obtain ⟨s', below', rfl⟩ : ∃ s' below', l' = s' :: below' := by
      cases l' with
      | nil => simp at hl
      | cons s' below' => exact ⟨s', below', rfl⟩
    simp only [List.map_cons, List.cons.injEq] at hl
    cases link with
    | none => rfl
    | some id =>
      simp only [follow, Scope.id_eq_of_place hl.1, Scope.parent_eq_of_place hl.1]
      split
      · simp [hl.1, ih hl.2]
      · exact ih hl.2 _

theorem follow_sublist (global : Scope) (link : Option Nat) (l : List Scope) :
    (follow global link l).Sublist (l ++ [global]) := by
  induction l generalizing link with
  | nil =>
    cases link with
    | none => exact List.nil_sublist _
    | some id =>
      simp only [follow, List.nil_append]
      split
      · exact List.Sublist.refl _
      · exact List.nil_sublist _
  | cons t below ih =>
    cases link with
    | none => exact List.nil_sublist _
    | some id =>
      simp only [follow, List.cons_append]
      split
      · exact (ih _).cons_cons t
      · exact (ih _).cons t

theorem chain_sublist (m : Machine) : m.chain.Sublist m.scopes := by
  rw [chain_eq_follow]
  exact follow_sublist _ _ _

theorem chain_subset (m : Machine) : ∀ s ∈ m.chain, s ∈ m.scopes :=
  fun _ hs => m.chain_sublist.subset hs

/-- A function that is found is bound in a scope on the stack. -/
theorem exists_of_lookupFunction {m : Machine} {name : String} {f : Closure}
    (h : m.lookupFunction name = some f) :
    ∃ s ∈ m.scopes, Entries.get? name s.funs = some f := by
  obtain ⟨s, hs, hget⟩ := List.exists_of_findSome?_eq_some h
  exact ⟨s, m.chain_subset s hs, hget⟩

theorem chain_eq_cons (m : Machine) : ∃ outer, m.chain = m.current :: outer := by
  rw [chain, current]
  cases m.frames with
  | nil => exact ⟨[], rfl⟩
  | cons s below => exact ⟨_, rfl⟩

/-- Following the links from a scope on the way gives the rest of the way. -/
theorem follow_suffix {global : Scope} {l : List Scope}
    (hnodup : ((l ++ [global]).map Scope.id).Nodup) {link : Option Nat} {pre post : List Scope}
    {s : Scope} (h : follow global link l = pre ++ s :: post) :
    follow global (some s.id) l = s :: post := by
  induction l generalizing link pre with
  | nil =>
    cases link with
    | none => simp [follow] at h
    | some id =>
      simp only [follow] at h
      split at h
      · obtain ⟨-, hpost⟩ | ⟨_, _, hrest⟩ := List.cons_eq_append_iff.mp h
        · obtain ⟨rfl, rfl⟩ := List.cons.inj hpost
          simp [follow]
        · simp at hrest
      · simp at h
  | cons t below ih =>
    rw [List.cons_append, List.map_cons, List.nodup_cons] at hnodup
    have hlater : ∀ link pre, follow global link below = pre ++ s :: post →
        follow global (some s.id) (t :: below) = s :: post := by
      intro link pre h
      have hs : s ∈ below ++ [global] :=
        (follow_sublist global link below).subset (by simp [h])
      have hne : t.id ≠ s.id := fun heq => hnodup.1 (heq ▸ List.mem_map_of_mem hs)
      simp only [follow, if_neg hne]
      exact ih hnodup.2 h
    cases link with
    | none => simp [follow] at h
    | some id =>
      simp only [follow] at h
      split at h
      · obtain ⟨-, hpost⟩ | ⟨pre', -, hrest⟩ := List.cons_eq_append_iff.mp h
        · obtain ⟨rfl, rfl⟩ := List.cons.inj hpost
          simp [follow]
        · exact hlater _ pre' hrest
      · exact hlater _ pre h

theorem SameStack.map_id_follow (h : m.SameStack m') (link : Option Nat) :
    (follow m'.global link m'.frames).map Scope.id =
      (follow m.global link m.frames).map Scope.id := by
  have := congrArg (List.map Prod.fst) (map_place_follow h.global h.frames link)
  simpa [Scope.place, Function.comp_def] using this

theorem SameStack.current_id (h : m.SameStack m') : m'.current.id = m.current.id := by
  have := h.ids
  rw [scopes_eq m, scopes_eq m', List.map_cons, List.map_cons] at this
  exact (List.cons.inj this).1

theorem SameStack.map_id_chain (h : m.SameStack m') :
    m'.chain.map Scope.id = m.chain.map Scope.id := by
  rw [chain_eq_follow, chain_eq_follow, h.current_id]
  exact h.map_id_follow _

theorem scopes_leaveCall (h : m.frames ≠ []) : m.leaveCall.scopes = m.below := by
  obtain ⟨s, l, hframes⟩ := List.exists_cons_of_ne_nil h
  simp [scopes, below, leaveCall, exitScope, hframes]

theorem owner?_mem {name : String} {s : Scope} (h : m.owner? name = some s) :
    s ∈ m.scopes ∧ Entries.has name s.vars = true := by
  rw [owner?] at h
  have hhas := List.find?_some (p := fun s : Scope => Entries.has name s.vars) h
  exact ⟨m.chain_subset s (List.mem_of_find?_eq_some h), hhas⟩

end Machine

/-! ## Sessions -/

namespace Session

theorem wellNumbered_start (config : Config) : (start config).machine.WellNumbered where
  nodup := by simp [start, Machine.new, Machine.scopes]
  fresh := by simp [start, Machine.new, Machine.scopes]

private theorem wellNumbered_setFunction {m : Machine} (h : m.WellNumbered) (name : String)
    (f : Closure) : (m.setFunction name f).WellNumbered :=
  h.of_sameStack (Machine.sameStack_changeCurrent (Scope.place_bindFunction name f) m)

private theorem wellNumbered_setVariable {m : Machine} (h : m.WellNumbered) (name : String)
    (v : Value) : (m.setVariable name v).WellNumbered :=
  h.of_sameStack (Machine.sameStack_changeCurrent (Scope.place_bindVariable name v) m)

mutual

/-- Whatever a host asks for, numbers stay distinct. -/
theorem wellNumbered_perform (levels : Nat) (s : Session) (h : s.machine.WellNumbered)
    (step : Step) : (s.perform levels step).2.machine.WellNumbered := by
  cases step with
  | run p => exact h.of_sameStack (sameStack_run levels p s.machine)
  | execute body => exact h.of_sameStack (sameStack_executeBody levels body s.machine)
  | evaluate e => exact h.of_sameStack (sameStack_evaluate levels e s.machine)
  | enterScope => exact ⟨(h.enterCall none).nodup, (h.enterCall none).fresh⟩
  | exitScope => exact ⟨h.leaveCall.nodup, h.leaveCall.fresh⟩
  | halt => exact ⟨h.nodup, h.fresh⟩
  | setVariable name v => exact wellNumbered_setVariable h name v
  | getVariable name => exact h
  | lookupVariable name => exact h
  | lookupFunction name => exact h
  | hasFunction name => exact h
  | grab name slot =>
    simp only [perform]
    split <;> exact h
  | bindFunction slot name =>
    simp only [perform]
    split
    · exact wellNumbered_setFunction h name _
    · exact h
  | call slot args location =>
    simp only [perform]
    split
    · exact h.of_sameStack (sameStack_callClosure levels _ args location s.machine)
    · exact h
  | frame steps =>
    exact (wellNumbered_performAll levels (s.withMachine (s.machine.enterCall none))
      (h.enterCall none) steps).leaveCall
  | unreadable e => exact h

theorem wellNumbered_performAll (levels : Nat) (s : Session) (h : s.machine.WellNumbered)
    (steps : List Step) : (s.performAll levels steps).2.machine.WellNumbered := by
  cases steps with
  | nil => exact h
  | cons step steps =>
    exact wellNumbered_performAll levels _ (wellNumbered_perform levels s h step) steps

end

end Session

end Treewalk
