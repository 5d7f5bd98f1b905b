import Mathlib.Data.List.Forall2
import Treewalk.Proofs.Numbering

/-!
# Lexical scoping

What a call does is decided by the live scopes along the links from the home of its function.  Two
machines that agree on these scopes give the call the same outcome, bring the scopes to agree again
and change no other scope, whatever else is on the two stacks.

The two machines may have given different numbers to their scopes, so that agreement is stated of
pairs of scopes.  A `Pairing` lists the pairs of numbers that can be reached from the scope of the
call; entering another call puts a new pair in front of a part of the list, since a function is
found in the scope that it was declared in.

## Main definitions

* `Closure.Alike`, `Scope.Alike` — agreement of functions and scopes.
* `Machine.Housed` — every function is registered where it was declared.
* `Machine.reach` — the live scopes along the links from a function.
* `Machine.Confined` — all scopes but some are untouched.
-/

namespace Treewalk

/-- Two functions that may only differ in their homes. -/
structure Closure.Alike (f g : Closure) : Prop where
  name : f.name = g.name
  params : f.params = g.params
  body : f.body = g.body

/-- Two scopes with the same variables and the same functions. -/
structure Scope.Alike (s t : Scope) : Prop where
  vars : ∀ name, Entries.get? name s.vars = Entries.get? name t.vars
  funs : ∀ name, Option.Rel Closure.Alike (Entries.get? name s.funs) (Entries.get? name t.funs)

/-- Every function of a scope was declared in it. -/
def Scope.Housed (s : Scope) : Prop :=
  ∀ name f, Entries.get? name s.funs = some f → f.home = s.id

namespace Scope

variable {s t : Scope}

theorem Alike.refl (s : Scope) : s.Alike s where
  vars _ := rfl
  funs name := by
    cases Entries.get? name s.funs with
    | none => exact .none
    | some f => exact .some ⟨rfl, rfl, rfl⟩

theorem Alike.has (h : s.Alike t) (name : String) :
    Entries.has name s.vars = Entries.has name t.vars := by
  simp [Entries.has, h.vars name]

theorem Alike.bindVariable (h : s.Alike t) (name : String) (v : Value) :
    (s.bindVariable name v).Alike (t.bindVariable name v) where
  vars other := by
    simp only [Scope.bindVariable, Entries.get?_insert, h.vars other]
  funs := h.funs

theorem Alike.bindFunction (h : s.Alike t) (name : String) {f g : Closure} (hfg : f.Alike g) :
    (s.bindFunction name f).Alike (t.bindFunction name g) where
  vars := h.vars
  funs other := by
    simp only [Scope.bindFunction, Entries.get?_insert]
    split
    · exact .some hfg
    · exact h.funs other

theorem Housed.bindFunction (h : s.Housed) (name : String) {f : Closure} (hf : f.home = s.id) :
    (s.bindFunction name f).Housed :=
  Entries.forall_insert hf h

end Scope

/-! ## Lists of scopes, pair by pair -/

private theorem findSome?_rel {α β : Type} {R : Scope → Scope → Prop} {Q : α → β → Prop}
    {f : Scope → Option α} {g : Scope → Option β} {l l' : List Scope} (h : List.Forall₂ R l l')
    (hfg : ∀ s t, R s t → Option.Rel Q (f s) (g t)) :
    Option.Rel Q (l.findSome? f) (l'.findSome? g) := by
  induction h with
  | nil => exact .none
  | @cons s t _ _ hst _ ih =>
    have hrel := hfg s t hst
    simp only [List.findSome?_cons]
    cases hs : f s <;> cases ht : g t <;> rw [hs, ht] at hrel <;> cases hrel
    case none.none.none => exact ih
    case some.some.some h => exact .some h

private theorem eq_of_rel {α : Type} {a b : Option α} (h : Option.Rel Eq a b) : a = b := by
  cases h with
  | none => rfl
  | some h => rw [h]

private theorem find?_rel {R : Scope → Scope → Prop} {p : Scope → Bool} {l l' : List Scope}
    (h : List.Forall₂ R l l') (hp : ∀ s t, R s t → p s = p t) :
    Option.Rel R (l.find? p) (l'.find? p) := by
  induction h with
  | nil => exact .none
  | @cons s t _ _ hst _ ih =>
    simp only [List.find?_cons, hp s t hst]
    cases p t with
    | true => exact .some hst
    | false => exact ih

private theorem forall₂_of_ids {P : Scope → Scope → Prop} {ids : List (Nat × Nat)}
    {l l' : List Scope} (hl : l.map Scope.id = ids.map Prod.fst)
    (hl' : l'.map Scope.id = ids.map Prod.snd)
    (h : ∀ p ∈ ids, ∀ s ∈ l, ∀ t ∈ l', s.id = p.1 → t.id = p.2 → P s t) :
    List.Forall₂ P l l' := by
  induction ids generalizing l l' with
  | nil =>
    obtain rfl : l = [] := by simpa using hl
    obtain rfl : l' = [] := by simpa using hl'
    exact .nil
  | cons p ids ih =>
    obtain ⟨s, l, rfl, hs, hl⟩ := List.map_eq_cons_iff.mp hl
    obtain ⟨t, l', rfl, ht, hl'⟩ := List.map_eq_cons_iff.mp hl'
    refine .cons (h p (by simp) s (by simp) t (by simp) hs ht) (ih hl hl' ?_)
    intro q hq s' hs' t' ht'
    exact h q (List.mem_cons_of_mem _ hq) s' (List.mem_cons_of_mem _ hs') t'
      (List.mem_cons_of_mem _ ht')

namespace Machine

variable {m m' m'' : Machine} {ids : List Nat}

/-- Every function is registered in the scope that it was declared in. -/
def Housed (m : Machine) : Prop := ∀ s ∈ m.scopes, s.Housed

/-- The live scopes along the links from the home of a function. -/
def reach (m : Machine) (f : Closure) : List Scope := follow m.global (some f.home) m.frames

theorem reach_subset (m : Machine) (f : Closure) : ∀ s ∈ m.reach f, s ∈ m.scopes :=
  fun _ hs => (follow_sublist _ _ _).subset hs

/-- The reach of a function whose home is looked through is what is looked through from there. -/
theorem map_id_reach (h : m.WellNumbered) {f : Closure} {pre post : List Nat}
    (hchain : m.chain.map Scope.id = pre ++ f.home :: post) :
    (m.reach f).map Scope.id = f.home :: post := by
  obtain ⟨l, l', hl, -, hpost⟩ := List.map_eq_append_iff.mp hchain
  obtain ⟨s, l', rfl, hs, rfl⟩ := List.map_eq_cons_iff.mp hpost
  rw [chain_eq_follow] at hl
  rw [reach, ← hs, follow_suffix h.nodup hl, List.map_cons]

/-- The second machine has the scopes of the first one, and those that do not have one of the given
numbers are untouched. -/
structure Confined (ids : List Nat) (m m' : Machine) : Prop where
  stack : m.SameStack m'
  others : ∀ s ∈ m.scopes, s.id ∉ ids → s ∈ m'.scopes

theorem Confined.refl (ids : List Nat) (m : Machine) : Confined ids m m :=
  ⟨.refl m, fun _ hs _ => hs⟩

theorem Confined.trans (h : Confined ids m m') (h' : Confined ids m' m'') : Confined ids m m'' :=
  ⟨h.stack.trans h'.stack, fun s hs hid => h'.others s (h.others s hs hid) hid⟩

theorem Confined.mono {ids' : List Nat} (h : Confined ids m m') (hsub : ids ⊆ ids') :
    Confined ids' m m' :=
  ⟨h.stack, fun s hs hid => h.others s hs fun hmem => hid (hsub hmem)⟩

/-- A scope outside of the given numbers that is on the stack afterwards was there before. -/
theorem Confined.mem_of_mem (h : Confined ids m m') (hm : m.WellNumbered) {s : Scope}
    (hs : s ∈ m'.scopes) (hid : s.id ∉ ids) : s ∈ m.scopes := by
  have hmem : s.id ∈ m.scopes.map Scope.id := by
    rw [← h.stack.ids]
    exact List.mem_map_of_mem hs
  obtain ⟨t, ht, hts⟩ := List.mem_map.mp hmem
  have ht' := h.others t ht (hts ▸ hid)
  rwa [(hm.of_sameStack h.stack).eq_of_id_eq hs ht' hts.symm]

theorem confined_mapScopes {id : Nat} {f : Scope → Scope} (hf : ∀ s, (f s).place = s.place)
    (hid : id ∈ ids) (m : Machine) : Confined ids m (m.mapScopes (Scope.onlyAt id f)) where
  stack := sameStack_mapScopes (Scope.place_onlyAt hf id) m
  others s hs hs' := by
    rw [scopes_mapScopes]
    refine List.mem_map.mpr ⟨s, hs, if_neg fun heq => hs' ?_⟩
    rw [heq]
    exact hid

/-- Leaving a call takes its scope off the stack and no other. -/
theorem scopes_of_enterCall {parent : Option Nat} (h : (m.enterCall parent).SameStack m') :
    ∃ s, s.id = m.nextId ∧ m'.scopes = s :: m'.leaveCall.scopes := by
  have hframes : m'.frames ≠ [] := by
    intro hnil
    have := congrArg List.length h.frames
    simp [hnil, enterCall, enterLinked] at this
  refine ⟨m'.current, h.current_id, ?_⟩
  rw [scopes_leaveCall hframes]
  exact scopes_eq m'

theorem Confined.leaveCall {parent : Option Nat} (hm : m.WellNumbered)
    (h : Confined (m.nextId :: ids) (m.enterCall parent) m') : Confined ids m m'.leaveCall where
  stack := sameStack_leaveCall h.stack
  others s hs hid := by
    have hne : s.id ≠ m.nextId := Nat.ne_of_lt (hm.fresh s hs)
    have hs' := h.others s (by simp [hs]) (by simp [hne, hid])
    obtain ⟨t, ht, hscopes⟩ := scopes_of_enterCall h.stack
    rw [hscopes, List.mem_cons] at hs'
    rcases hs' with rfl | hs'
    · exact absurd ht hne
    · exact hs'

end Machine

/-! ## Pairs of machines -/

/-- The numbers of the scopes that can be reached in two machines, pair by pair, and the two
machines as they were when the current scopes were entered. -/
structure Pairing where
  ids : List (Nat × Nat)
  left : Machine
  right : Machine

namespace Pairing

/-- What is the same in two machines whatever their stacks are. -/
structure Fit (m n : Machine) : Prop where
  numberedLeft : m.WellNumbered
  numberedRight : n.WellNumbered
  housedLeft : m.Housed
  housedRight : n.Housed
  config : m.config = n.config
  callDepth : m.callDepth = n.callDepth

/-- Scopes with paired numbers agree. -/
def Agree (ids : List (Nat × Nat)) (m n : Machine) : Prop :=
  ∀ p ∈ ids, ∀ s ∈ m.scopes, ∀ t ∈ n.scopes, s.id = p.1 → t.id = p.2 → s.Alike t

/-- The scopes along the links from the current ones are paired and agree, and no other scope was
touched. -/
structure Holds (k : Pairing) (m n : Machine) : Prop where
  fit : Fit m n
  chainLeft : m.chain.map Scope.id = k.ids.map Prod.fst
  chainRight : n.chain.map Scope.id = k.ids.map Prod.snd
  agree : Agree k.ids m n
  left : Machine.Confined (k.ids.map Prod.fst) k.left m
  right : Machine.Confined (k.ids.map Prod.snd) k.right n

variable {k : Pairing} {m n m' n' : Machine} {f g : Closure}

namespace Holds

theorem nodupLeft (h : k.Holds m n) : (k.ids.map Prod.fst).Nodup := by
  rw [← h.chainLeft]
  exact h.fit.numberedLeft.nodup.sublist (m.chain_sublist.map _)

theorem nodupRight (h : k.Holds m n) : (k.ids.map Prod.snd).Nodup := by
  rw [← h.chainRight]
  exact h.fit.numberedRight.nodup.sublist (n.chain_sublist.map _)

/-- A number is paired with one number only. -/
theorem fst_eq_iff (h : k.Holds m n) {p q : Nat × Nat} (hp : p ∈ k.ids) (hq : q ∈ k.ids) :
    p.1 = q.1 ↔ p.2 = q.2 := by
  constructor
  · intro heq
    rw [List.inj_on_of_nodup_map h.nodupLeft hp hq heq]
  · intro heq
    rw [List.inj_on_of_nodup_map h.nodupRight hp hq heq]

/-- The scopes in which names are looked up, pair by pair. -/
theorem chain (h : k.Holds m n) :
    List.Forall₂ (fun s t => (s.id, t.id) ∈ k.ids ∧ s ∈ m.scopes ∧ t ∈ n.scopes ∧ s.Alike t)
      m.chain n.chain := by
  refine forall₂_of_ids h.chainLeft h.chainRight ?_
  intro p hp s hs t ht hsp htp
  have hs' := m.chain_subset s hs
  have ht' := n.chain_subset t ht
  refine ⟨?_, hs', ht', h.agree p hp s hs' t ht' hsp htp⟩
  rw [hsp, htp]
  exact hp

theorem current (h : k.Holds m n) : (m.current.id, n.current.id) ∈ k.ids := by
  have hchain := h.chain
  obtain ⟨outer, hm⟩ := m.chain_eq_cons
  obtain ⟨outer', hn⟩ := n.chain_eq_cons
  rw [hm, hn] at hchain
  cases hchain with
  | cons hcurrent _ => exact hcurrent.1

theorem target (h : k.Holds m n) (name : String) :
    ((m.target name).id, (n.target name).id) ∈ k.ids := by
  have howner : Option.Rel _ (m.owner? name) (n.owner? name) :=
    find?_rel h.chain fun s t hst => hst.2.2.2.has name
  simp only [Machine.target]
  cases hm : m.owner? name <;> cases hn : n.owner? name <;> rw [hm, hn] at howner <;> cases howner
  case none.none.none => exact h.current
  case some.some.some h => exact h.1

theorem lookupVariable (h : k.Holds m n) (name : String) :
    m.lookupVariable name = n.lookupVariable name := by
  refine eq_of_rel (findSome?_rel h.chain fun s t hst => ?_)
  rw [hst.2.2.2.vars name]
  cases Entries.get? name t.vars with
  | none => exact .none
  | some v => exact .some rfl

/-- Functions that are found under one name have the same code, and their homes are paired. -/
theorem lookupFunction (h : k.Holds m n) (name : String) :
    Option.Rel (fun f g => f.Alike g ∧ (f.home, g.home) ∈ k.ids) (m.lookupFunction name)
      (n.lookupFunction name) := by
  refine findSome?_rel h.chain fun s t hst => ?_
  obtain ⟨hids, hs, ht, halike⟩ := hst
  have hrel := halike.funs name
  cases hf : Entries.get? name s.funs <;> cases hg : Entries.get? name t.funs <;>
    rw [hf, hg] at hrel <;> cases hrel
  case none.none.none => exact .none
  case some.some.some f g hfg =>
    refine .some ⟨hfg, ?_⟩
    rw [h.fit.housedLeft s hs name f hf, h.fit.housedRight t ht name g hg]
    exact hids

end Holds

/-! ## Operations on pairs -/

theorem Agree.mapScopes {ids : List (Nat × Nat)} {i j : Nat} {u v : Scope → Scope}
    (h : Agree ids m n) (hij : ∀ p ∈ ids, p.1 = i ↔ p.2 = j)
    (hu : ∀ s, (u s).place = s.place) (hv : ∀ s, (v s).place = s.place)
    (halike : ∀ s t, s.Alike t → (u s).Alike (v t)) :
    Agree ids (m.mapScopes (Scope.onlyAt i u)) (n.mapScopes (Scope.onlyAt j v)) := by
  intro p hp s' hs' t' ht' hsp htp
  rw [Machine.scopes_mapScopes] at hs' ht'
  obtain ⟨s, hs, rfl⟩ := List.mem_map.mp hs'
  obtain ⟨t, ht, rfl⟩ := List.mem_map.mp ht'
  rw [Scope.id_eq_of_place (Scope.place_onlyAt hu i s)] at hsp
  rw [Scope.id_eq_of_place (Scope.place_onlyAt hv j t)] at htp
  have hst := h p hp s hs t ht hsp htp
  simp only [Scope.onlyAt]
  by_cases hi : s.id = i
  · have hj : t.id = j := by rw [htp, ← hij p hp, ← hsp, hi]
    rw [if_pos hi, if_pos hj]
    exact halike s t hst
  · have hj : ¬ t.id = j := by rw [htp, ← hij p hp, ← hsp]; exact hi
    rw [if_neg hi, if_neg hj]
    exact hst

private theorem housed_mapScopes {i : Nat} {u : Scope → Scope} (h : m.Housed)
    (hu : ∀ s, s.id = i → s.Housed → (u s).Housed) :
    (m.mapScopes (Scope.onlyAt i u)).Housed := by
  intro s' hs'
  rw [Machine.scopes_mapScopes] at hs'
  obtain ⟨s, hs, rfl⟩ := List.mem_map.mp hs'
  rw [Scope.onlyAt]
  split
  · next hi => exact hu s hi (h s hs)
  · exact h s hs

namespace Holds

/-- A change of two paired scopes that keeps them alike. -/
theorem mapScopes (h : k.Holds m n) {i j : Nat} {u v : Scope → Scope} (hij : (i, j) ∈ k.ids)
    (hu : ∀ s, (u s).place = s.place) (hv : ∀ s, (v s).place = s.place)
    (halike : ∀ s t, s.Alike t → (u s).Alike (v t))
    (huHoused : ∀ s, s.id = i → s.Housed → (u s).Housed)
    (hvHoused : ∀ s, s.id = j → s.Housed → (v s).Housed) :
    k.Holds (m.mapScopes (Scope.onlyAt i u)) (n.mapScopes (Scope.onlyAt j v)) := by
  have hleft := Machine.confined_mapScopes hu (List.mem_map_of_mem (f := Prod.fst) hij) m
  have hright := Machine.confined_mapScopes hv (List.mem_map_of_mem (f := Prod.snd) hij) n
  constructor
  · exact ⟨h.fit.numberedLeft.of_sameStack hleft.stack,
      h.fit.numberedRight.of_sameStack hright.stack,
      housed_mapScopes h.fit.housedLeft huHoused, housed_mapScopes h.fit.housedRight hvHoused,
      h.fit.config, h.fit.callDepth⟩
  · rw [hleft.stack.map_id_chain, h.chainLeft]
  · rw [hright.stack.map_id_chain, h.chainRight]
  · exact h.agree.mapScopes (fun p hp => h.fst_eq_iff hp hij) hu hv halike
  · exact h.left.trans hleft
  · exact h.right.trans hright

theorem assign (h : k.Holds m n) (name : String) (v : Value) :
    k.Holds (m.assign name v) (n.assign name v) := by
  rw [Machine.assign_eq h.fit.numberedLeft, Machine.assign_eq h.fit.numberedRight]
  exact h.mapScopes (h.target name) (Scope.place_bindVariable name v)
    (Scope.place_bindVariable name v) (fun _ _ hst => hst.bindVariable name v)
    (fun _ _ hs => hs) (fun _ _ hs => hs)

theorem setVariable (h : k.Holds m n) (name : String) (v : Value) :
    k.Holds (m.setVariable name v) (n.setVariable name v) := by
  rw [Machine.setVariable_eq h.fit.numberedLeft, Machine.setVariable_eq h.fit.numberedRight]
  exact h.mapScopes h.current (Scope.place_bindVariable name v) (Scope.place_bindVariable name v)
    (fun _ _ hst => hst.bindVariable name v) (fun _ _ hs => hs) (fun _ _ hs => hs)

theorem setFunction (h : k.Holds m n) (name : String) (params : List Parameter)
    (body : List Stmt) :
    k.Holds (m.setFunction name ⟨name, params, body, m.current.id⟩)
      (n.setFunction name ⟨name, params, body, n.current.id⟩) := by
  rw [Machine.setFunction_eq h.fit.numberedLeft, Machine.setFunction_eq h.fit.numberedRight]
  exact h.mapScopes h.current (Scope.place_bindFunction name _) (Scope.place_bindFunction name _)
    (fun _ _ hst => hst.bindFunction name ⟨rfl, rfl, rfl⟩)
    (fun _ hid hs => hs.bindFunction name hid.symm)
    (fun _ hid hs => hs.bindFunction name hid.symm)

theorem halt (h : k.Holds m n) : k.Holds m.halt n.halt where
  fit :=
    ⟨⟨h.fit.numberedLeft.nodup, h.fit.numberedLeft.fresh⟩,
      ⟨h.fit.numberedRight.nodup, h.fit.numberedRight.fresh⟩, h.fit.housedLeft,
      h.fit.housedRight, h.fit.config, h.fit.callDepth⟩
  chainLeft := h.chainLeft
  chainRight := h.chainRight
  agree := h.agree
  left := h.left.trans ⟨⟨rfl, rfl, rfl, rfl, Nat.le_refl _⟩, fun _ hs _ => hs⟩
  right := h.right.trans ⟨⟨rfl, rfl, rfl, rfl, Nat.le_refl _⟩, fun _ hs _ => hs⟩

end Holds

/-! ## Calls -/

/-- The pairing in the scope of a call, given the pairs of numbers in the reach of the function. -/
def enter (ids : List (Nat × Nat)) (f g : Closure) (m n : Machine) : Pairing where
  ids := (m.nextId, n.nextId) :: ids
  left := m.enterCall (some f.home)
  right := n.enterCall (some g.home)

theorem Fit.enterCall (h : Fit m n) (p q : Option Nat) : Fit (m.enterCall p) (n.enterCall q) where
  numberedLeft := h.numberedLeft.enterCall p
  numberedRight := h.numberedRight.enterCall q
  housedLeft := by
    intro s hs
    rw [Machine.scopes_enterCall, List.mem_cons] at hs
    rcases hs with rfl | hs
    · intro name f hf
      simp [Entries.get?] at hf
    · exact h.housedLeft s hs
  housedRight := by
    intro s hs
    rw [Machine.scopes_enterCall, List.mem_cons] at hs
    rcases hs with rfl | hs
    · intro name f hf
      simp [Entries.get?] at hf
    · exact h.housedRight s hs
  config := h.config
  callDepth := congrArg (· + 1) h.callDepth

theorem Fit.leaveCall (h : Fit m n) : Fit m.leaveCall n.leaveCall where
  numberedLeft := h.numberedLeft.leaveCall
  numberedRight := h.numberedRight.leaveCall
  housedLeft s hs := h.housedLeft s (m.leaveCall_sublist.subset hs)
  housedRight s hs := h.housedRight s (n.leaveCall_sublist.subset hs)
  config := h.config
  callDepth := congrArg (· - 1) h.callDepth

/-- The numbers that are paired are those of the scopes in the reach of two functions. -/
structure Reaches (ids : List (Nat × Nat)) (f g : Closure) (m n : Machine) : Prop where
  left : (m.reach f).map Scope.id = ids.map Prod.fst
  right : (n.reach g).map Scope.id = ids.map Prod.snd

/-- A call begins in an empty scope, and behind it names are looked up in the reach of the
function. -/
theorem holds_enter {ids : List (Nat × Nat)} (h : Fit m n) (hreach : Reaches ids f g m n)
    (hagree : Agree ids m n) :
    (enter ids f g m n).Holds (m.enterCall (some f.home)) (n.enterCall (some g.home)) where
  fit := h.enterCall _ _
  chainLeft := congrArg (m.nextId :: ·) hreach.left
  chainRight := congrArg (n.nextId :: ·) hreach.right
  agree := by
    intro p hp s hs t ht hsp htp
    rw [Machine.scopes_enterCall, List.mem_cons] at hs ht
    rcases List.mem_cons.mp hp with rfl | hp
    · rcases hs with rfl | hs
      · rcases ht with rfl | ht
        · exact ⟨fun _ => rfl, fun _ => .none⟩
        · exact absurd htp (Nat.ne_of_lt (h.numberedRight.fresh t ht))
      · exact absurd hsp (Nat.ne_of_lt (h.numberedLeft.fresh s hs))
    · have hleft : p.1 < m.nextId := by
        have hmem : p.1 ∈ (m.reach f).map Scope.id := hreach.left ▸ List.mem_map_of_mem hp
        obtain ⟨s, hs, hid⟩ := List.mem_map.mp hmem
        exact hid ▸ h.numberedLeft.fresh s (m.reach_subset f s hs)
      have hright : p.2 < n.nextId := by
        have hmem : p.2 ∈ (n.reach g).map Scope.id := hreach.right ▸ List.mem_map_of_mem hp
        obtain ⟨t, ht, hid⟩ := List.mem_map.mp hmem
        exact hid ▸ h.numberedRight.fresh t (n.reach_subset g t ht)
      rcases hs with rfl | hs
      · exact absurd hsp (Nat.ne_of_gt hleft)
      · rcases ht with rfl | ht
        · exact absurd htp (Nat.ne_of_gt hright)
        · exact hagree p hp s hs t ht hsp htp
  left := .refl _ _
  right := .refl _ _

/-- What is known of two machines after a call: paired scopes agree, and no other was touched. -/
structure Returns (ids : List (Nat × Nat)) (m n m' n' : Machine) : Prop where
  fit : Fit m' n'
  agree : Agree ids m' n'
  left : Machine.Confined (ids.map Prod.fst) m m'
  right : Machine.Confined (ids.map Prod.snd) n n'

theorem Returns.refl {ids : List (Nat × Nat)} (h : Fit m n) (hagree : Agree ids m n) :
    Returns ids m n m n :=
  ⟨h, hagree, .refl _ _, .refl _ _⟩

theorem returns_leave {ids : List (Nat × Nat)} (h : Fit m n)
    (h' : (enter ids f g m n).Holds m' n') : Returns ids m n m'.leaveCall n'.leaveCall where
  fit := h'.fit.leaveCall
  agree p hp s hs t ht :=
    h'.agree p (List.mem_cons_of_mem _ hp) s (m'.leaveCall_sublist.subset hs) t
      (n'.leaveCall_sublist.subset ht)
  left := h'.left.leaveCall h.numberedLeft
  right := h'.right.leaveCall h.numberedRight

namespace Holds

/-- The reach of a function that was found under a name is a part of what is paired. -/
theorem reaches (h : k.Holds m n) (hhome : (f.home, g.home) ∈ k.ids) :
    ∃ ids, ids ⊆ k.ids ∧ Reaches ids f g m n := by
  obtain ⟨pre, post, hids⟩ := List.append_of_mem hhome
  have hleft : m.chain.map Scope.id = pre.map Prod.fst ++ f.home :: post.map Prod.fst := by
    simp [h.chainLeft, hids]
  have hright : n.chain.map Scope.id = pre.map Prod.snd ++ g.home :: post.map Prod.snd := by
    simp [h.chainRight, hids]
  exact ⟨(f.home, g.home) :: post, by simp [hids], Machine.map_id_reach h.fit.numberedLeft hleft,
    Machine.map_id_reach h.fit.numberedRight hright⟩

/-- A call that only touches paired scopes leads back to the pairing around it: scopes that are
paired but out of its reach are the ones from before. -/
theorem of_returns {ids : List (Nat × Nat)} (h : k.Holds m n) (hsub : ids ⊆ k.ids)
    (h' : Returns ids m n m' n') : k.Holds m' n' where
  fit := h'.fit
  chainLeft := by rw [h'.left.stack.map_id_chain, h.chainLeft]
  chainRight := by rw [h'.right.stack.map_id_chain, h.chainRight]
  agree := by
    intro p hp s hs t ht hsp htp
    by_cases hmem : p ∈ ids
    · exact h'.agree p hmem s hs t ht hsp htp
    -- no other pair in `ids` has a number of `p`, so that both scopes are as they were
    · have hleft : s.id ∉ ids.map Prod.fst := by
        intro hid
        obtain ⟨q, hq, heq⟩ := List.mem_map.mp hid
        exact hmem (List.inj_on_of_nodup_map h.nodupLeft (hsub hq) hp (heq.trans hsp) ▸ hq)
      have hright : t.id ∉ ids.map Prod.snd := by
        intro hid
        obtain ⟨q, hq, heq⟩ := List.mem_map.mp hid
        exact hmem (List.inj_on_of_nodup_map h.nodupRight (hsub hq) hp (heq.trans htp) ▸ hq)
      exact h.agree p hp s (h'.left.mem_of_mem h.fit.numberedLeft hs hleft) t
        (h'.right.mem_of_mem h.fit.numberedRight ht hright) hsp htp
  left := h.left.trans (h'.left.mono (List.map_subset _ hsub))
  right := h.right.trans (h'.right.mono (List.map_subset _ hsub))

end Holds

theorem Fit.sameLimit (h : Fit m n) (excused : Stop → Prop) : SameLimit excused m n where
  enters hm := by rwa [← h.config, ← h.callDepth]
  refuses hm := .inr ⟨by rwa [← h.config, ← h.callDepth], by rw [h.config]⟩

end Pairing

/-- Two runs from machines that agree on what can be reached. -/
def lexicalCoupling : Coupling Pairing where
  rel := Pairing.Holds
  excused _ := False
  binds _ := True
  matched k f g := f.Alike g ∧ (f.home, g.home) ∈ k.ids
  lookupVariable h := h.lookupVariable
  lookupFunction h := h.lookupFunction
  assign h := h.assign
  halt h := h.halt
  setVariable _ h := h.setVariable
  setFunction _ h := h.setFunction
  unimplemented := by
    intro k m n h kind location
    rw [Action.unimplemented_eq, Action.unimplemented_eq, h.fit.config]
    cases n.config.policy with
    | permissive => exact .ok _ h
    | strict => exact .error _ h
  limit h := h.fit.sameLimit _
  sameCode h := ⟨h.1.params, h.1.body⟩
  enter := by
    rintro k m n f g h ⟨-, hhome⟩
    obtain ⟨ids, hsub, hreach⟩ := h.reaches hhome
    have hagree : Pairing.Agree ids m n := fun p hp => h.agree p (hsub hp)
    refine ⟨.enter ids f g m n, trivial, Pairing.holds_enter h.fit hreach hagree, ?_⟩
    intro m' n' h'
    exact h.of_returns hsub (Pairing.returns_leave h.fit h')

/-- What is the same after two calls: the bindings in the reach of their functions, and in each
machine the scopes outside of the reach. -/
structure Machine.SameTrace (f g : Closure) (m n m' n' : Machine) : Prop where
  reach : List.Forall₂ Scope.Alike (m'.reach f) (n'.reach g)
  left : Machine.Confined ((m.reach f).map Scope.id) m m'
  right : Machine.Confined ((n.reach g).map Scope.id) n n'

namespace Pairing

variable {m n m' n' : Machine} {f g : Closure}

/-- Two reaches that agree can be paired scope by scope. -/
theorem exists_reaches (h : Fit m n)
    (hreach : List.Forall₂ Scope.Alike (m.reach f) (n.reach g)) :
    ∃ ids, Reaches ids f g m n ∧ Agree ids m n := by
  have hle := Nat.le_of_eq hreach.length_eq
  have hge := Nat.le_of_eq hreach.length_eq.symm
  refine ⟨((m.reach f).zip (n.reach g)).map fun p => (p.1.id, p.2.id), ⟨?_, ?_⟩, ?_⟩
  · rw [List.map_map, ← List.map_fst_zip hle, List.map_map, List.map_fst_zip hle]
    rfl
  · rw [List.map_map, ← List.map_snd_zip hge, List.map_map, List.map_snd_zip hge]
    rfl
  · intro p hp s hs t ht hsp htp
    obtain ⟨⟨s', t'⟩, hmem, rfl⟩ := List.mem_map.mp hp
    obtain ⟨hs', ht'⟩ := List.of_mem_zip hmem
    obtain rfl := h.numberedLeft.eq_of_id_eq hs (m.reach_subset f _ hs') hsp
    obtain rfl := h.numberedRight.eq_of_id_eq ht (n.reach_subset g _ ht') htp
    exact List.forall₂_zip hreach hmem

theorem Returns.sameTrace {ids : List (Nat × Nat)} (hids : Reaches ids f g m n)
    (h : Returns ids m n m' n') : m.SameTrace f g n m' n' where
  reach := by
    have hleft : (m'.reach f).map Scope.id = ids.map Prod.fst := by
      rw [← hids.left]
      exact h.left.stack.map_id_follow _
    have hright : (n'.reach g).map Scope.id = ids.map Prod.snd := by
      rw [← hids.right]
      exact h.right.stack.map_id_follow _
    refine forall₂_of_ids hleft hright fun p hp s hs t ht => ?_
    exact h.agree p hp s (m'.reach_subset f s hs) t (n'.reach_subset g t ht)
  left := by
    rw [hids.left]
    exact h.left
  right := by
    rw [hids.right]
    exact h.right

end Pairing

/-- The scopes in the reach of a function are all that a call of it depends on and all that it
changes.  Two machines whose other scopes differ in any way end it with the same outcome, given the
same number of levels, so that it ends at all in one if and only if it does in the other. -/
theorem call_depends_on_reach {m n : Machine} {f g : Closure} (hm : m.WellNumbered)
    (hn : n.WellNumbered) (hmHoused : m.Housed) (hnHoused : n.Housed)
    (hconfig : m.config = n.config) (hdepth : m.callDepth = n.callDepth) (hfg : f.Alike g)
    (hreach : List.Forall₂ Scope.Alike (m.reach f) (n.reach g)) (args : List Value)
    (location : Location) :
    (∀ levels,
      (m.perform (callClosure levels f args location)).1 =
          (n.perform (callClosure levels g args location)).1 ∧
        m.SameTrace f g n (m.perform (callClosure levels f args location)).2
          (n.perform (callClosure levels g args location)).2) ∧
      ((∃ levels, (m.perform (callClosure levels f args location)).1 ≠ .error .exhausted) ↔
        ∃ levels, (n.perform (callClosure levels g args location)).1 ≠ .error .exhausted) := by
  have hfit : Pairing.Fit m n := ⟨hm, hn, hmHoused, hnHoused, hconfig, hdepth⟩
  obtain ⟨ids, hids, hagree⟩ := Pairing.exists_reaches hfit hreach
  have hcalls : ∀ levels,
      (m.perform (callClosure levels f args location)).1 =
          (n.perform (callClosure levels g args location)).1 ∧
        m.SameTrace f g n (m.perform (callClosure levels f args location)).2
          (n.perform (callClosure levels g args location)).2 := by
    intro levels
    have hends : Ends (Pairing.Returns ids m n) (fun _ => False)
        (callClosure levels f args location m) (callClosure levels g args location n) :=
      lexicalCoupling.ends_callClosure trivial (hfit.sameLimit _) ⟨hfg.params, hfg.body⟩
        (.refl hfit hagree) (Pairing.holds_enter hfit hids hagree)
        (fun _ _ h => Pairing.returns_leave hfit h) levels args location
    exact ⟨hends.perform.1, hends.perform.2.sameTrace hids⟩
  refine ⟨hcalls, ?_⟩
  constructor
  · rintro ⟨levels, h⟩
    exact ⟨levels, (hcalls levels).1 ▸ h⟩
  · rintro ⟨levels, h⟩
    exact ⟨levels, (hcalls levels).1 ▸ h⟩

/-- A function of the top level that gives back a variable. -/
def readerOfX : Closure where
  name := "f"
  params := []
  body := [.ret (some (.identifier { name := "x" })) {}]
  home := 0

/-- A machine at the top level, where the function is declared. -/
def machineOfReader : Machine :=
  ((Machine.new {}).setVariable "x" .null).setFunction "f" readerOfX

/-- The same in a scope above it, where the variable is bound once more. -/
def machineOfCaller : Machine := machineOfReader.enterScope.setVariable "x" (.bool true)

/-- A callee looks a name up where it was declared and not where it is called. -/
theorem reader_skips_caller :
    (machineOfReader.perform (callClosure 3 readerOfX [] {})).1 = .ok .null ∧
      (machineOfReader.perform (callClosure 3 readerOfX [] {})).1 =
        (machineOfCaller.perform (callClosure 3 readerOfX [] {})).1 := by
  have hreader : machineOfReader.WellNumbered := ⟨by decide, by decide⟩
  have hcaller : machineOfCaller.WellNumbered := ⟨by decide, by decide⟩
  have hglobal : machineOfReader.global.Housed := by
    intro name f hf
    simp only [machineOfReader, Machine.new, Machine.setVariable, Machine.setFunction,
      Machine.changeCurrent, Scope.bindVariable, Scope.bindFunction, Entries.insert,
      Entries.get?] at hf
    split at hf
    · rw [← Option.some.inj hf]
      rfl
    · cases hf
  have hreaderHoused : machineOfReader.Housed := by
    intro s hs
    obtain rfl : s = machineOfReader.global := List.mem_singleton.mp hs
    exact hglobal
  have hcallerHoused : machineOfCaller.Housed := by
    intro s hs
    rcases List.mem_cons.mp hs with rfl | hs
    · intro name f hf
      cases hf
    · exact hreaderHoused s hs
  have halike : readerOfX.Alike readerOfX := ⟨rfl, rfl, rfl⟩
  have hreach : List.Forall₂ Scope.Alike (machineOfReader.reach readerOfX)
      (machineOfCaller.reach readerOfX) := by
    exact .cons (.refl _) .nil
  have hcalls := call_depends_on_reach hreader hcaller hreaderHoused hcallerHoused rfl rfl halike
    hreach [] {}
  exact ⟨rfl, (hcalls.1 3).1⟩

end Treewalk
