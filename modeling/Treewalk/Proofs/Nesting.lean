import Treewalk.Proofs.Balance
import Treewalk.Proofs.History

/-!
# Open calls

A history leads back to the stack that it began with.  In the midst of it some calls are open, each
one entered inside the one before, and between two of them the stack was led back as well.  So the
stack at that time is the one from the beginning with the scopes of the open calls on top of it.

## Main definitions

* `Event.Moves` — the events that make a difference to the stack.
* `Inside` — the events so far lead into calls that are open.
* `History.inside` — so do the events of a history at any time.
-/

namespace Treewalk

/-- An event that enters or leaves a scope. -/
def Event.Moves : Event → Prop
  | .enters _ | .leaves | .opens | .closes => True
  | _ => False

/-- No other event makes a difference to the stack. -/
theorem Event.sameStack (ev : Event) (h : ¬ ev.Moves) (m : Machine) : m.SameStack (ev.apply m) := by
  cases ev with
  | assigns name v => exact Machine.sameStack_assign name v m
  | binds name v => exact Machine.sameStack_changeCurrent (Scope.place_bindVariable name v) m
  | declares name params body =>
    exact Machine.sameStack_changeCurrent (Scope.place_bindFunction name _) m
  | registers name f => exact Machine.sameStack_changeCurrent (Scope.place_bindFunction name f) m
  | evaluates | executes | fails | returns => exact .refl m
  | halts | resumes => exact ⟨rfl, rfl, rfl, rfl, Nat.le_refl _⟩
  | enters | leaves | opens | closes => exact absurd trivial h

theorem Event.Plain.not_moves {ev : Event} (h : ev.Plain) : ¬ ev.Moves := by
  cases ev with
  | enters | leaves | opens | closes => exact h.elim
  | _ => exact not_false

namespace History

variable {events : List Event} {k : Ending}

/-- A history leads back to the stack that it began with. -/
theorem sameStack (h : History events k) (m : Machine) : m.SameStack (m.replay events) := by
  induction h generalizing m with
  | plain hev _ ih => exact (Event.sameStack _ hev.not_moves m).trans (ih _)
  | halt location => exact Event.sameStack .halts not_false m
  | declaration id params body bodyLocation location _ ih =>
    exact (Event.sameStack (.declares id.name params body) not_false m).trans (ih _)
  | call link _ _ _ ihbody ih =>
    rw [Machine.replay_cons, Machine.replay_append, Machine.replay_cons]
    exact (Machine.sameStack_leaveCall (ihbody (m.enterCall link))).trans (ih _)
  | stoppedCall link _ ih =>
    rw [Machine.replay_cons, Machine.replay_append]
    exact Machine.sameStack_leaveCall (ih (m.enterCall link))
  | done | exhausted | fail | ret => exact .refl m

/-- The stack is back where it was after a call. -/
theorem sameStack_call {body : List Event} (h : History body k) (link : Option Nat) (m : Machine) :
    m.SameStack (m.replay (.enters link :: (body ++ [.leaves]))) := by
  rw [Machine.replay_cons, Machine.replay_append]
  exact Machine.sameStack_leaveCall (h.sameStack (m.enterCall link))

end History

/-- The events so far lead into open calls, if there are any.  Before the first of them and between
any two the stack was led back. -/
inductive Inside : Machine → List Event → Prop where
  | level {m : Machine} {past : List Event} : m.SameStack (m.replay past) → Inside m past
  | call {m : Machine} {before past : List Event} (link : Option Nat) :
    m.SameStack (m.replay before) → Inside ((m.replay before).enterCall link) past →
    Inside m (before ++ .enters link :: past)

namespace Inside

variable {m : Machine} {past : List Event}

/-- Events that lead back to the same stack may come before. -/
theorem after (before : List Event) (h : m.SameStack (m.replay before))
    (hpast : Inside (m.replay before) past) : Inside m (before ++ past) := by
  cases hpast with
  | level hlevel =>
    refine .level ?_
    rw [Machine.replay_append]
    exact h.trans hlevel
  | @call _ before' past link hlevel hinner =>
    rw [← Machine.replay_append] at hlevel hinner
    rw [← List.append_assoc]
    exact .call link (h.trans hlevel) hinner

theorem enter {link : Option Nat} (h : Inside (m.enterCall link) past) :
    Inside m (.enters link :: past) :=
  @call m [] past link (.refl m) h

/-- The scopes from before are at the bottom of the stack. -/
theorem ids_suffix (h : Inside m past) :
    m.scopes.map Scope.id <:+ (m.replay past).scopes.map Scope.id := by
  induction h with
  | level hlevel => exact ⟨[], hlevel.ids.symm⟩
  | @call m before past link hlevel _ ih =>
    rw [Machine.replay_append, Machine.replay_cons, ← hlevel.ids]
    exact (List.suffix_cons _ _).trans ih

end Inside

namespace History

variable {events : List Event} {k : Ending}

/-- At every event of a history the events before it lead into open calls. -/
theorem inside_everywhere (h : History events k) (m : Machine) :
    Everywhere (fun past _ _ => Inside m past) events := by
  induction h generalizing m with
  | done => exact .nil
  | exhausted => exact .nil
  | @plain ev _ _ hev _ ih =>
    refine .cons (.level (.refl m)) ((ih (ev.apply m)).mono fun past _ _ h => ?_)
    exact h.after [ev] (Event.sameStack _ hev.not_moves m)
  | halt location => exact .cons (.level (.refl m)) (.cons (.level (.refl m)) .nil)
  | fail f => exact .cons (.level (.refl m)) .nil
  | ret v => exact .cons (.level (.refl m)) .nil
  | declaration id params body bodyLocation location _ ih =>
    refine .cons (.level (.refl m)) (.cons (.level (.refl m)) ?_)
    have hdeclared := Event.sameStack (.declares id.name params body) not_false m
    exact (ih _).mono fun past _ _ h => h.after [_, _] hdeclared
  | @call body _ _ _ link hbody _ _ ihbody ih =>
    have hleaves : Inside m (.enters link :: body) :=
      .enter (.level (hbody.sameStack (m.enterCall link)))
    refine .cons (.level (.refl m)) (.append ?_ (.cons (by simpa using hleaves) ?_))
    · exact (ihbody (m.enterCall link)).mono fun past _ _ h => h.enter
    · refine (ih (m.replay (.enters link :: (body ++ [.leaves])))).mono fun past _ _ h => ?_
      simpa using h.after _ (hbody.sameStack_call link m)
  | @stoppedCall body _ link hbody ih =>
    have hleaves : Inside m (.enters link :: body) :=
      .enter (.level (hbody.sameStack (m.enterCall link)))
    refine .cons (.level (.refl m)) (.append ?_ (.cons (by simpa using hleaves) .nil))
    exact (ih (m.enterCall link)).mono fun past _ _ h => h.enter

/-- The first events of a history lead into open calls. -/
theorem inside (h : History events k) (m : Machine) {past : List Event} (hpast : past <+: events) :
    Inside m past := by
  obtain ⟨later, rfl⟩ := hpast
  cases later with
  | nil =>
    rw [List.append_nil] at h
    exact .level (h.sameStack m)
  | cons ev later => exact h.inside_everywhere m past ev later rfl

end History

end Treewalk
