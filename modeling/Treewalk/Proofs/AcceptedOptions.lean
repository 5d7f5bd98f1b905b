import Mathlib.Data.List.Induction
import Mathlib.Data.List.Nodup
import Treewalk.Proofs.ArgumentGrammar

/-!
# Options of accepted command lines

A command line is accepted exactly if it is spelled by the rules, nothing is mentioned twice, each
value is admissible, and the program file is given in one of the two ways or, if programs are read
from the standard input, in none.  Then the options are what the mentions say.

## Main definitions

* `Mention.Admissible` — values that an argument may have.
* `Options.ofMentions` — options by the mentions.
* `Usable` — mentions that make up a command line.
* `Options.parse_eq_ok_iff` — the command lines that are accepted, and their options.
-/

namespace Treewalk

/-! ## What the mentions say -/

namespace Mention

/-- The value that is given to an argument. -/
def value? (v : Valued) : Mention → Option String
  | .flag _ => none
  | .value w x => if w = v then some x else none

/-- Whether an argument may have the given value. -/
def Admissible : Mention → Prop
  | .flag _ => True
  | .value .program x | .value .input x => x ≠ ""
  | .value .maxDepth x => (readCount? x).isSome

end Mention

/-- The options of the mentions, each of which is there once at most. -/
def Options.ofMentions (ms : List Mention) : Options where
  program := ms.findSome? (Mention.value? .program)
  input := ms.findSome? (Mention.value? .input)
  json := decide (.flag .json ∈ ms)
  run := decide (.flag .run ∈ ms)
  repl := decide (.flag .repl ∈ ms)
  strict := decide (.flag .strict ∈ ms)
  maxDepth := (ms.findSome? (Mention.value? .maxDepth)).bind readCount?

namespace Mention

variable {ms : List Mention} {m : Mention} {o : Options}

theorem value?_eq_some_iff {v : Valued} {x : String} : m.value? v = some x ↔ m = .value v x := by
  cases m with
  | flag f => exact iff_of_false nofun nofun
  | value w y =>
    rw [value?]
    split
    · next h =>
      subst h
      exact ⟨fun h => by rw [Option.some.inj h], fun h => by cases h; rfl⟩
    · next h =>
      refine iff_of_false nofun fun heq => h ?_
      cases heq
      rfl

theorem flag_mem_iff {f : Flag} : .flag f ∈ ms ↔ .flag f ∈ ms.map argument := by
  refine ⟨fun h => List.mem_map_of_mem h, fun h => ?_⟩
  obtain ⟨m, hm, heq⟩ := List.mem_map.mp h
  cases m with
  | flag g =>
    cases heq
    exact hm
  | value v x => cases heq

theorem findSome?_eq_none_iff {v : Valued} :
    ms.findSome? (value? v) = none ↔ .valued v ∉ ms.map argument := by
  rw [List.findSome?_eq_none_iff]
  constructor
  · intro h hmem
    obtain ⟨m, hm, heq⟩ := List.mem_map.mp hmem
    cases m with
    | flag f => cases heq
    | value w x =>
      cases heq
      exact nomatch (value?_eq_some_iff.mpr rfl).symm.trans (h _ hm)
  · intro h m hm
    by_contra hne
    obtain ⟨x, hx⟩ := Option.ne_none_iff_exists'.mp hne
    obtain rfl := value?_eq_some_iff.mp hx
    exact h (List.mem_map_of_mem hm)

theorem guarded_eq_ok_iff {α : Type} {p : Prop} [Decidable p] {e : UsageError} {a b : α} :
    (if p then .error e else .ok a : Except UsageError α) = .ok b ↔ ¬ p ∧ b = a := by
  by_cases h : p <;> simp [h, eq_comm]

theorem ofMentions_concat :
    Options.ofMentions (ms ++ [m]) =
      { program := (Options.ofMentions ms).program.or (m.value? .program)
        input := (Options.ofMentions ms).input.or (m.value? .input)
        json := decide (.flag .json ∈ ms ∨ .flag .json = m)
        run := decide (.flag .run ∈ ms ∨ .flag .run = m)
        repl := decide (.flag .repl ∈ ms ∨ .flag .repl = m)
        strict := decide (.flag .strict ∈ ms ∨ .flag .strict = m)
        maxDepth := ((ms.findSome? (value? .maxDepth)).or (m.value? .maxDepth)).bind readCount? } := by
  simp only [Options.ofMentions, List.findSome?_append, List.findSome?_singleton, List.mem_append,
    List.mem_singleton]

theorem set_flag_ofMentions (f : Flag) :
    (Mention.flag f).set (.ofMentions ms) =
      if .flag f ∈ ms then .error .argumentConflict else .ok (.ofMentions (ms ++ [.flag f])) := by
  rw [ofMentions_concat]
  cases f <;> simp [set, ArgumentState.setFlag, Options.ofMentions, value?]

theorem set_program_ofMentions {x : String} (h : .valued .program ∉ ms.map argument) :
    (Mention.value .program x).set (.ofMentions ms) =
      if x.isEmpty then .error .invalidValue else .ok (.ofMentions (ms ++ [.value .program x])) := by
  rw [ofMentions_concat]
  simp [set, ArgumentState.setValue, Options.ofMentions, value?, findSome?_eq_none_iff.mpr h]

theorem set_input_ofMentions {x : String} (h : .valued .input ∉ ms.map argument) :
    (Mention.value .input x).set (.ofMentions ms) =
      if x.isEmpty then .error .invalidValue else .ok (.ofMentions (ms ++ [.value .input x])) := by
  rw [ofMentions_concat]
  simp [set, ArgumentState.setValue, Options.ofMentions, value?, findSome?_eq_none_iff.mpr h]

theorem set_maxDepth_ofMentions {x : String} (h : .valued .maxDepth ∉ ms.map argument) :
    (Mention.value .maxDepth x).set (.ofMentions ms) =
      if readCount? x = none then .error .valueValidation
      else .ok (.ofMentions (ms ++ [.value .maxDepth x])) := by
  rw [ofMentions_concat]
  cases hx : readCount? x <;>
    simp [set, ArgumentState.setValue, Options.ofMentions, value?, findSome?_eq_none_iff.mpr h, hx]

/-- What has a value is not set again. -/
theorem set_value_ne_ok {v : Valued} {x : String} (hv : v ≠ .program)
    (hadmissible : ∀ m ∈ ms, m.Admissible) (h : .valued v ∈ ms.map argument) :
    (Mention.value v x).set (.ofMentions ms) ≠ .ok o := by
  obtain ⟨y, hy⟩ := Option.ne_none_iff_exists'.mp fun hnone => findSome?_eq_none_iff.mp hnone h
  cases v with
  | program => exact absurd rfl hv
  | input => simp [set, ArgumentState.setValue, Options.ofMentions, hy]
  | maxDepth =>
    obtain ⟨m, hm, hvalue⟩ := List.exists_of_findSome?_eq_some hy
    obtain rfl := value?_eq_some_iff.mp hvalue
    have hcount : (readCount? y).isSome := hadmissible _ hm
    simp [set, ArgumentState.setValue, Options.ofMentions, hy, hcount]

/-- What is mentioned last is set if it has not been mentioned before and is admissible. -/
theorem set_ofMentions_eq_ok_iff (hadmissible : ∀ m ∈ ms, m.Admissible)
    (hm : m.isFile = true → .valued .program ∉ ms.map argument) :
    m.set (.ofMentions ms) = .ok o ↔
      m.argument ∉ ms.map argument ∧ m.Admissible ∧ o = .ofMentions (ms ++ [m]) := by
  cases m with
  | flag f =>
    rw [set_flag_ofMentions, guarded_eq_ok_iff, argument, ← flag_mem_iff]
    exact and_congr_right fun _ => (and_iff_right trivial).symm
  | value v x =>
    by_cases h : .valued v ∈ ms.map argument
    · refine iff_of_false ?_ fun hnew => hnew.1 h
      refine set_value_ne_ok ?_ hadmissible h
      rintro rfl
      exact hm rfl h
    · rw [and_iff_right (show (value v x).argument ∉ _ from h)]
      cases v with
      | program =>
        rw [set_program_ofMentions h, guarded_eq_ok_iff, String.isEmpty_iff]
        rfl
      | input =>
        rw [set_input_ofMentions h, guarded_eq_ok_iff, String.isEmpty_iff]
        rfl
      | maxDepth =>
        rw [set_maxDepth_ofMentions h, guarded_eq_ok_iff, ← ne_eq, ← Option.isSome_iff_ne_none]
        rfl

theorem isFile_iff : m.isFile = true ↔ m.argument = .valued .program := by
  cases m with
  | flag f => exact iff_of_false nofun nofun
  | value v x => cases v <;> first | exact iff_of_true rfl rfl | exact iff_of_false nofun nofun

theorem countP_isFile_eq_zero_iff :
    ms.countP isFile = 0 ↔ .valued .program ∉ ms.map argument := by
  rw [List.countP_eq_zero, List.mem_map]
  constructor
  · rintro h ⟨m, hm, heq⟩
    exact h m hm (isFile_iff.mpr heq)
  · exact fun h m hm hfile => h ⟨m, hm, isFile_iff.mp hfile⟩

theorem countP_isFile_concat_le_one_iff :
    (ms ++ [m]).countP isFile ≤ 1 ↔ ms.countP isFile ≤ 1 ∧
      (m.isFile = true → .valued .program ∉ ms.map argument) := by
  rw [List.countP_append, List.countP_singleton, ← countP_isFile_eq_zero_iff]
  cases m.isFile with
  | false => simp
  | true =>
    simp only [if_true, forall_const]
    omega

theorem nodup_argument_concat_iff :
    ((ms ++ [m]).map argument).Nodup ↔ (ms.map argument).Nodup ∧ m.argument ∉ ms.map argument := by
  rw [List.map_append, List.map_singleton, List.nodup_append]
  refine and_congr_right fun _ => ⟨?_, ?_⟩
  · rintro ⟨-, h⟩ hmem
    exact h _ hmem _ (List.mem_singleton_self _) rfl
  · refine fun h => ⟨List.pairwise_singleton _ _, fun a ha b hb => ?_⟩
    rintro rfl
    exact h (List.mem_singleton.mp hb ▸ ha)

/-- Mentions can be set one after the other exactly if each argument is mentioned once at most and
all values are admissible.  The options are then what the mentions say. -/
theorem foldlM_set_eq_ok_iff :
    ms.foldlM Mention.set {} = .ok o ∧ ms.countP isFile ≤ 1 ↔
      (ms.map argument).Nodup ∧ (∀ m ∈ ms, m.Admissible) ∧ o = .ofMentions ms := by
  induction ms using List.reverseRecOn generalizing o with
  | nil => simp [Options.ofMentions, pure, Except.pure, eq_comm]
  | append_singleton ms m ih =>
    rw [List.foldlM_append, accepted_bind_iff, countP_isFile_concat_le_one_iff,
      nodup_argument_concat_iff, List.forall_mem_append, List.forall_mem_singleton]
    simp only [ArgumentState.foldlM_set_singleton]
    constructor
    · rintro ⟨⟨o', hbefore, hlast⟩, hcount, hfile⟩
      obtain ⟨hnodup, hadmissible, rfl⟩ := ih.mp ⟨hbefore, hcount⟩
      obtain ⟨hnew, hm, rfl⟩ := (set_ofMentions_eq_ok_iff hadmissible hfile).mp hlast
      exact ⟨⟨hnodup, hnew⟩, ⟨hadmissible, hm⟩, rfl⟩
    · rintro ⟨⟨hnodup, hnew⟩, ⟨hadmissible, hm⟩, rfl⟩
      obtain ⟨hbefore, hcount⟩ := ih.mpr ⟨hnodup, hadmissible, rfl⟩
      have hfile : m.isFile = true → .valued .program ∉ ms.map argument :=
        fun h => isFile_iff.mp h ▸ hnew
      refine ⟨⟨_, hbefore, ?_⟩, hcount, hfile⟩
      exact (set_ofMentions_eq_ok_iff hadmissible hfile).mpr ⟨hnew, hm, rfl⟩

/-- The value of an argument that is mentioned once at most. -/
theorem findSome?_eq_some_iff {v : Valued} {x : String} (h : (ms.map argument).Nodup) :
    ms.findSome? (value? v) = some x ↔ .value v x ∈ ms := by
  have hmem : ∀ {y}, ms.findSome? (value? v) = some y → .value v y ∈ ms := by
    intro y hy
    obtain ⟨m, hm, hvalue⟩ := List.exists_of_findSome?_eq_some hy
    exact value?_eq_some_iff.mp hvalue ▸ hm
  refine ⟨hmem, fun hx => ?_⟩
  have hsome : ms.findSome? (value? v) ≠ none := fun hnone =>
    findSome?_eq_none_iff.mp hnone (List.mem_map_of_mem hx)
  obtain ⟨y, hy⟩ := Option.ne_none_iff_exists'.mp hsome
  cases List.inj_on_of_nodup_map h (hmem hy) hx rfl
  exact hy

end Mention

/-! ## Accepted command lines -/

/-- The mentions make up a command line: each argument is mentioned once at most, the values are
admissible, and the program file is given in one way at most, and in one at least unless programs are
read from the standard input. -/
structure Usable (ms : List Mention) : Prop where
  once : (ms.map Mention.argument).Nodup
  admissible : ∀ m ∈ ms, m.Admissible
  exclusive : .valued .program ∉ ms.map Mention.argument ∨ .valued .input ∉ ms.map Mention.argument
  present : .valued .program ∈ ms.map Mention.argument ∨ .valued .input ∈ ms.map Mention.argument ∨
    .flag .repl ∈ ms.map Mention.argument

namespace Options

variable {args : List String} {ms : List Mention} {o o' : Options}

theorem check_eq_ok_iff :
    o.check = .ok o' ↔ (o.program = none ∨ o.input = none) ∧
      (o.program.isSome ∨ o.input.isSome ∨ o.repl = true) ∧ o' = o := by
  unfold check
  cases o.program <;> cases o.input <;> cases o.repl <;> simp [eq_comm]

theorem exists_path_of_check (h : o.check = .ok o) (hrepl : o.repl = false) :
    ∃ path, o.path = some path := by
  obtain ⟨-, hpresent, -⟩ := check_eq_ok_iff.mp h
  rw [hrepl] at hpresent
  rw [← Option.isSome_iff_exists, path]
  obtain hprogram | hinput | hrepl := hpresent
  · simp [hprogram]
  · simp [hinput]
  · cases hrepl

theorem parse_eq_ok_iff_reads :
    parse args = .ok o ↔ ({} : ArgumentState).Reads args o ∧ o.check = .ok o := by
  unfold parse ArgumentState.Reads
  simp only [accepted_bind_iff]
  constructor
  · rintro ⟨t, ht, u, hu, hcheck⟩
    obtain rfl := (check_eq_ok_iff.mp hcheck).2.2
    exact ⟨⟨t, u, ht, hu, rfl⟩, hcheck⟩
  · rintro ⟨⟨t, u, ht, hu, rfl⟩, hcheck⟩
    exact ⟨t, ht, u, hu, hcheck⟩

theorem isSome_value_iff {v : Valued} :
    (ms.findSome? (Mention.value? v)).isSome ↔ .valued v ∈ ms.map Mention.argument := by
  rw [Option.isSome_iff_ne_none, ne_eq, Mention.findSome?_eq_none_iff, not_not]

/-- A command line is accepted exactly if it spells usable mentions, and the options are what they
say. -/
theorem parse_eq_ok_iff :
    parse args = .ok o ↔ ∃ ms, Spells args ms ∧ Usable ms ∧ o = ofMentions ms := by
  have hcheck : ∀ ms, (ofMentions ms).check = .ok (ofMentions ms) ↔
      (.valued .program ∉ ms.map Mention.argument ∨ .valued .input ∉ ms.map Mention.argument) ∧
        (.valued .program ∈ ms.map Mention.argument ∨ .valued .input ∈ ms.map Mention.argument ∨
          .flag .repl ∈ ms.map Mention.argument) := by
    intro ms
    rw [check_eq_ok_iff, ← Mention.findSome?_eq_none_iff, ← Mention.findSome?_eq_none_iff,
      ← isSome_value_iff, ← isSome_value_iff, ← Mention.flag_mem_iff]
    simp [ofMentions]
  rw [parse_eq_ok_iff_reads, ArgumentState.reads_iff]
  constructor
  · rintro ⟨⟨ms, hms, hset, hfile⟩, h⟩
    obtain ⟨honce, hadmissible, rfl⟩ := Mention.foldlM_set_eq_ok_iff.mp ⟨hset, hfile⟩
    obtain ⟨hexclusive, hpresent⟩ := (hcheck ms).mp h
    exact ⟨ms, hms, ⟨honce, hadmissible, hexclusive, hpresent⟩, rfl⟩
  · rintro ⟨ms, hms, ⟨honce, hadmissible, hexclusive, hpresent⟩, rfl⟩
    obtain ⟨hset, hfile⟩ := Mention.foldlM_set_eq_ok_iff.mpr ⟨honce, hadmissible, rfl⟩
    exact ⟨⟨ms, hms, hset, hfile⟩, (hcheck ms).mpr ⟨hexclusive, hpresent⟩⟩

/-- The path is the one that is given, in whichever way. -/
theorem path_ofMentions_eq_some_iff (h : Usable ms) {path : String} :
    (ofMentions ms).path = some path ↔
      .value .program path ∈ ms ∨ .value .input path ∈ ms := by
  rw [← Mention.findSome?_eq_some_iff h.once, ← Mention.findSome?_eq_some_iff h.once, Options.path,
    ofMentions]
  obtain hnone | hnone := h.exclusive
  all_goals
    rw [← Mention.findSome?_eq_none_iff] at hnone
    simp [hnone]

end Options

end Treewalk
