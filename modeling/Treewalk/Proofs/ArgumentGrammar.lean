import Treewalk.Proofs.ArgumentWords

/-!
# The grammar of command lines

A command line mentions flags and arguments with values, in any order.  It can be read exactly if it
spells, by the rules, mentions that can be set one after the other, with one program file at most
that is given by its position.

A value that is an argument of its own is only checked once the argument after it is recognised.  So
what is read from a state is told with the value that is still to be checked there.

## Main definitions

* `Mention` — what one argument says, or two.
* `Spells` — how mentions are spelled.
* `ArgumentState.reads_iff` — what can be read.
-/

namespace Treewalk

/-! ## Mentions and how they are spelled -/

/-- What one argument says, or a name and the value after it. -/
inductive Mention where
  | flag (f : Flag)
  | value (v : Valued) (x : String)
  deriving DecidableEq

namespace Mention

/-- The argument that is mentioned. -/
def argument : Mention → LongArgument
  | .flag f => .flag f
  | .value v _ => .valued v

/-- Whether a program file is given by its position. -/
def isFile : Mention → Bool
  | .value .program _ => true
  | _ => false

/-- Set what is mentioned. -/
def set (o : Options) : Mention → Except UsageError Options
  | .flag f => ArgumentState.setFlag o f
  | .value v x => ArgumentState.setValue o v x

end Mention

/-- The arguments spell the mentions.  A value follows its name after an equals sign or as an argument
of its own, which has to be plain.  All arguments after two dashes are program files. -/
inductive Spells : List String → List Mention → Prop where
  | nil : Spells [] []
  | flag {name : String} {f : Flag} {args : List String} {ms : List Mention} :
    LongArgument.ofName? name = some (.flag f) → Spells args ms →
    Spells (("--" ++ name) :: args) (.flag f :: ms)
  | joined {name x : String} {v : Valued} {args : List String} {ms : List Mention} :
    LongArgument.ofName? name = some (.valued v) → Spells args ms →
    Spells (("--" ++ name ++ "=" ++ x) :: args) (.value v x :: ms)
  | apart {name x : String} {v : Valued} {args : List String} {ms : List Mention} :
    LongArgument.ofName? name = some (.valued v) → isPlain x = true → Spells args ms →
    Spells (("--" ++ name) :: x :: args) (.value v x :: ms)
  | file {x : String} {args : List String} {ms : List Mention} :
    isPlain x = true → Spells args ms → Spells (x :: args) (.value .program x :: ms)
  | rest (files : List String) : Spells ("--" :: files) (files.map (.value .program))

theorem isFile_value {v : Valued} (h : LongArgument.valued v ≠ .valued .program) (x : String) :
    (Mention.value v x).isFile = false := by
  cases v with
  | program => exact absurd rfl h
  | input | maxDepth => rfl

theorem accepted_bind_iff {α β : Type} {r : Except UsageError α} {f : α → Except UsageError β}
    {b : β} : (r >>= f) = .ok b ↔ ∃ a, r = .ok a ∧ f a = .ok b := by
  cases r <;> simp [bind, Except.bind]

/-! ## Taking all arguments -/

namespace ArgumentState

variable {s t u : ArgumentState} {args : List String} {ms : List Mention} {o : Options}

/-- From a state, the options are what is left by all of the arguments. -/
def Reads (s : ArgumentState) (args : List String) (o : Options) : Prop :=
  ∃ t u, args.foldlM take s = .ok t ∧ t.settle = .ok u ∧ u.options = o

/-- Whether a name waits for its value. -/
def Awaits (s : ArgumentState) : Prop := ∃ v, s.pending = some (v, none)

/-- The value that is still to be checked. -/
def given (s : ArgumentState) : List Mention :=
  match s.pending with
  | some (v, some x) => [.value v x]
  | _ => []

theorem not_awaits_of_none (h : s.pending = none) : ¬ s.Awaits := by
  rintro ⟨v, hv⟩
  rw [h] at hv
  cases hv

theorem not_awaits_of_given {v : Valued} {x : String} (h : s.pending = some (v, some x)) :
    ¬ s.Awaits := by
  rintro ⟨w, hw⟩
  rw [h] at hw
  cases hw

theorem foldlM_set_singleton (m : Mention) (o : Options) :
    [m].foldlM Mention.set o = m.set o := by
  rw [List.foldlM_cons]
  exact bind_pure _

theorem settle_eq_ok_iff :
    s.settle = .ok u ↔
      ¬ s.Awaits ∧ ∃ o, s.given.foldlM Mention.set s.options = .ok o ∧
        u = { s with options := o, pending := none } := by
  obtain ⟨options, pending, positional, trailing⟩ := s
  cases pending with
  | none =>
    constructor
    · intro h
      cases h
      exact ⟨not_awaits_of_none rfl, options, rfl, rfl⟩
    · rintro ⟨-, o, ho, rfl⟩
      cases ho
      rfl
  | some p =>
    obtain ⟨v, x⟩ := p
    cases x with
    | none => exact iff_of_false nofun fun h => h.1 ⟨v, rfl⟩
    | some x =>
      rw [settle, accepted_bind_iff, given, foldlM_set_singleton]
      constructor
      · rintro ⟨o, ho, h⟩
        cases h
        exact ⟨not_awaits_of_given rfl, o, ho, rfl⟩
      · rintro ⟨-, o, ho, rfl⟩
        exact ⟨o, ho, rfl⟩

theorem reads_nil_iff :
    s.Reads [] o ↔ ¬ s.Awaits ∧ s.given.foldlM Mention.set s.options = .ok o := by
  constructor
  · rintro ⟨t, u, ht, hu, rfl⟩
    cases ht
    obtain ⟨hs, o, ho, rfl⟩ := settle_eq_ok_iff.mp hu
    exact ⟨hs, ho⟩
  · rintro ⟨hs, ho⟩
    exact ⟨s, _, rfl, settle_eq_ok_iff.mpr ⟨hs, o, ho, rfl⟩, rfl⟩

theorem reads_cons_iff {arg : String} :
    s.Reads (arg :: args) o ↔ ∃ t, s.take arg = .ok t ∧ t.Reads args o := by
  unfold Reads
  simp only [List.foldlM_cons, accepted_bind_iff]
  constructor
  · rintro ⟨t', u, ⟨t, ht, hrest⟩, hu, ho⟩
    exact ⟨t, ht, t', u, hrest, hu, ho⟩
  · rintro ⟨t, ht, t', u, hrest, hu, ho⟩
    exact ⟨t', u, ⟨t, ht, hrest⟩, hu, ho⟩

/-- How many program files are given by their positions, with one that was taken before. -/
def files (s : ArgumentState) (ms : List Mention) : Nat :=
  s.positional.toNat + ms.countP Mention.isFile

theorem files_cons {m : Mention} (hm : m.isFile = false) : s.files (m :: ms) = s.files ms := by
  rw [files, files, List.countP_cons_of_neg (by simp [hm])]

theorem files_file_le_one_iff {x : String} :
    s.files (.value .program x :: ms) ≤ 1 ↔
      s.positional = false ∧ { s with positional := true }.files ms ≤ 1 := by
  rw [files, files, List.countP_cons_of_pos rfl]
  cases s.positional <;> simp [Nat.add_comm]

theorem takePositional_eq_ok_iff {x : String} :
    s.takePositional x = .ok t ↔
      s.positional = false ∧ ∃ u, s.settle = .ok u ∧
        t = { u with pending := some (.program, some x), positional := true } := by
  unfold takePositional
  cases hpos : s.positional with
  | true => exact iff_of_false nofun fun h => nomatch h.1
  | false =>
    rw [if_neg Bool.false_ne_true, accepted_bind_iff]
    constructor
    · rintro ⟨u, hu, h⟩
      cases h
      exact ⟨rfl, u, hu, rfl⟩
    · rintro ⟨-, u, hu, rfl⟩
      exact ⟨u, hu, rfl⟩

/-- After two dashes all arguments are program files. -/
theorem reads_trailing_iff (hs : s.trailing = true) :
    s.Reads args o ↔ ¬ s.Awaits ∧
      (s.given ++ args.map (Mention.value .program)).foldlM Mention.set s.options = .ok o ∧
        s.files (args.map (Mention.value .program)) ≤ 1 := by
  induction args generalizing s with
  | nil =>
    rw [reads_nil_iff, List.map_nil, List.append_nil]
    exact and_congr_right fun _ => (and_iff_left (Bool.toNat_le _)).symm
  | cons x args ih =>
    have htake : s.take x = s.takePositional x := by rw [take, if_pos hs]
    rw [reads_cons_iff, htake, List.map_cons, files_file_le_one_iff]
    constructor
    · rintro ⟨t, ht, hreads⟩
      obtain ⟨hpos, u, hu, rfl⟩ := takePositional_eq_ok_iff.mp ht
      obtain ⟨hawaits, o', ho', rfl⟩ := settle_eq_ok_iff.mp hu
      obtain ⟨-, hset, hfiles⟩ := (ih (by exact hs)).mp hreads
      refine ⟨hawaits, ?_, hpos, hfiles⟩
      rw [List.foldlM_append, ho']
      exact hset
    · rintro ⟨hawaits, hset, hpos, hfiles⟩
      rw [List.foldlM_append] at hset
      obtain ⟨o', ho', hset⟩ := accepted_bind_iff.mp hset
      have hsettle := settle_eq_ok_iff.mpr ⟨hawaits, o', ho', rfl⟩
      refine ⟨_, takePositional_eq_ok_iff.mpr ⟨hpos, _, hsettle, rfl⟩, ?_⟩
      exact (ih (by exact hs)).mpr ⟨not_awaits_of_given rfl, hset, hfiles⟩

/-- Setting what is mentioned, once the value before it is set. -/
theorem settle_bind_set_eq_ok_iff {m : Mention} :
    (s.settle >>= fun u => m.set u.options >>= fun o => .ok { u with options := o }) = .ok t ↔
      ¬ s.Awaits ∧ ∃ o, (s.given ++ [m]).foldlM Mention.set s.options = .ok o ∧
        t = { s with options := o, pending := none } := by
  rw [accepted_bind_iff]
  constructor
  · rintro ⟨u, hu, hset⟩
    obtain ⟨hs, o', ho', rfl⟩ := settle_eq_ok_iff.mp hu
    obtain ⟨o, ho, h⟩ := accepted_bind_iff.mp hset
    cases h
    refine ⟨hs, o, ?_, rfl⟩
    rw [List.foldlM_append, ho']
    exact (foldlM_set_singleton m o').trans ho
  · rintro ⟨hs, o, ho, rfl⟩
    rw [List.foldlM_append] at ho
    obtain ⟨o', ho', ho⟩ := accepted_bind_iff.mp ho
    refine ⟨_, settle_eq_ok_iff.mpr ⟨hs, o', ho', rfl⟩, accepted_bind_iff.mpr ⟨o, ?_, rfl⟩⟩
    exact (foldlM_set_singleton m o').symm.trans ho

theorem takeLong_flag {name : String} {f : Flag}
    (hname : LongArgument.ofName? name = some (.flag f)) :
    s.takeLong name none =
      s.settle >>= fun u => (Mention.flag f).set u.options >>= fun o =>
        .ok { u with options := o } := by
  unfold takeLong
  rw [hname]
  rfl

theorem takeLong_joined {name x : String} {v : Valued}
    (hname : LongArgument.ofName? name = some (.valued v)) :
    s.takeLong name (some x) =
      s.settle >>= fun u => (Mention.value v x).set u.options >>= fun o =>
        .ok { u with options := o } := by
  unfold takeLong
  rw [hname]
  rfl

theorem takeLong_apart {name : String} {v : Valued}
    (hname : LongArgument.ofName? name = some (.valued v)) :
    s.takeLong name none =
      s.settle >>= fun u => .ok { u with pending := some (v, none) } := by
  unfold takeLong
  rw [hname]
  rfl

/-- A name that is taken is the name of an argument, and a flag has no value. -/
theorem takeLong_cases {name : String} {x : Option String} (h : s.takeLong name x = .ok t) :
    (∃ f, LongArgument.ofName? name = some (.flag f) ∧ x = none) ∨
      ∃ v, LongArgument.ofName? name = some (.valued v) := by
  unfold takeLong at h
  split at h
  · cases h
  · next v hname => exact .inr ⟨v, hname⟩
  · next v x hname => exact .inr ⟨v, hname⟩
  · cases h
  · next f hname => exact .inl ⟨f, hname, rfl⟩
  · obtain ⟨_, _, h⟩ := accepted_bind_iff.mp h
    cases h
  · obtain ⟨_, _, h⟩ := accepted_bind_iff.mp h
    cases h

theorem takeShort_ne_ok {c : Char} : s.takeShort c ≠ .ok t := by
  intro h
  unfold takeShort at h
  split at h
  · obtain ⟨_, _, h⟩ := accepted_bind_iff.mp h
    cases h
  split at h
  · obtain ⟨_, _, h⟩ := accepted_bind_iff.mp h
    cases h
  · cases h

theorem not_awaits_of_takeLong {name : String} {x : Option String}
    (h : s.takeLong name x = .ok t) : ¬ s.Awaits := by
  obtain ⟨f, hf, rfl⟩ | ⟨v, hv⟩ := takeLong_cases h
  · rw [takeLong_flag hf] at h
    exact (settle_bind_set_eq_ok_iff.mp h).1
  cases x with
  | none =>
    rw [takeLong_apart hv] at h
    obtain ⟨u, hu, -⟩ := accepted_bind_iff.mp h
    exact (settle_eq_ok_iff.mp hu).1
  | some x =>
    rw [takeLong_joined hv] at h
    exact (settle_bind_set_eq_ok_iff.mp h).1

/-- A name that waits for its value finds it in the next argument. -/
theorem reads_awaiting {v : Valued} (hs : s.trailing = false) (hv : s.pending = some (v, none))
    (h : s.Reads args o) :
    ∃ x rest, args = x :: rest ∧ isPlain x = true ∧
      { s with pending := some (v, some x) }.Reads rest o := by
  have hawaits : s.Awaits := ⟨v, hv⟩
  cases args with
  | nil => exact absurd hawaits (reads_nil_iff.mp h).1
  | cons x rest =>
    obtain ⟨t, ht, hrest⟩ := reads_cons_iff.mp h
    obtain rfl | ⟨name, hne, heq, rfl⟩ | ⟨name, y, heq, rfl⟩ | ⟨c, cs, hc, harg⟩ | hx :=
      word_cases x
    · rw [take_separator hs] at ht
      cases ht
      exact absurd hawaits ((reads_trailing_iff rfl).mp hrest).1
    · rw [take_name hs hne heq] at ht
      exact absurd hawaits (not_awaits_of_takeLong ht)
    · rw [take_joined hs heq] at ht
      exact absurd hawaits (not_awaits_of_takeLong ht)
    · rw [take_short hs hc harg] at ht
      exact absurd ht takeShort_ne_ok
    · rw [take_plain hs hx, hv] at ht
      cases ht
      exact ⟨x, rest, rfl, hx, hrest⟩

/-- The arguments that are read spell mentions, and the mentions set the options. -/
theorem spells_of_reads {s : ArgumentState} {args : List String} (hs : s.trailing = false)
    (hawaits : ¬ s.Awaits) (h : s.Reads args o) :
    ∃ ms, Spells args ms ∧ (s.given ++ ms).foldlM Mention.set s.options = .ok o ∧
      s.files ms ≤ 1 := by
  match args, h with
  | [], h =>
    refine ⟨[], .nil, ?_, Bool.toNat_le _⟩
    rw [List.append_nil]
    exact (reads_nil_iff.mp h).2
  | arg :: args, h =>
    obtain ⟨t, ht, hrest⟩ := reads_cons_iff.mp h
    obtain rfl | ⟨name, hne, heq, rfl⟩ | ⟨name, x, heq, rfl⟩ | ⟨c, cs, hc, harg⟩ | hx :=
      word_cases arg
    · rw [take_separator hs] at ht
      cases ht
      obtain ⟨-, hset, hfiles⟩ := (reads_trailing_iff rfl).mp hrest
      exact ⟨_, .rest args, hset, hfiles⟩
    · rw [take_name hs hne heq] at ht
      obtain ⟨f, hf, -⟩ | ⟨v, hv⟩ := takeLong_cases ht
      · rw [takeLong_flag hf, settle_bind_set_eq_ok_iff] at ht
        obtain ⟨-, o', ho', rfl⟩ := ht
        obtain ⟨ms, hms, hset, hfiles⟩ := spells_of_reads (by exact hs) (not_awaits_of_none rfl) hrest
        refine ⟨_, .flag hf hms, ?_, (files_cons rfl).trans_le hfiles⟩
        rw [List.append_cons, List.foldlM_append, ho']
        exact hset
      · rw [takeLong_apart hv] at ht
        obtain ⟨u, hu, ht⟩ := accepted_bind_iff.mp ht
        obtain ⟨-, o', ho', rfl⟩ := settle_eq_ok_iff.mp hu
        cases ht
        obtain ⟨x, rest, rfl, hx, hrest⟩ := reads_awaiting (by exact hs) rfl hrest
        obtain ⟨ms, hms, hset, hfiles⟩ := spells_of_reads (by exact hs) (not_awaits_of_given rfl) hrest
        have hfile := isFile_value (ofName?_spec hv).2.2 x
        refine ⟨_, .apart hv hx hms, ?_, (files_cons hfile).trans_le hfiles⟩
        rw [List.foldlM_append, ho']
        exact hset
    · rw [take_joined hs heq] at ht
      obtain ⟨f, -, hf⟩ | ⟨v, hv⟩ := takeLong_cases ht
      · cases hf
      · rw [takeLong_joined hv, settle_bind_set_eq_ok_iff] at ht
        obtain ⟨-, o', ho', rfl⟩ := ht
        obtain ⟨ms, hms, hset, hfiles⟩ := spells_of_reads (by exact hs) (not_awaits_of_none rfl) hrest
        have hfile := isFile_value (ofName?_spec hv).2.2 x
        refine ⟨_, .joined hv hms, ?_, (files_cons hfile).trans_le hfiles⟩
        rw [List.append_cons, List.foldlM_append, ho']
        exact hset
    · rw [take_short hs hc harg] at ht
      exact absurd ht takeShort_ne_ok
    · rw [take_plain hs hx] at ht
      have htake : s.takePositional arg = .ok t := by
        split at ht
        · next v hv => exact absurd ⟨v, hv⟩ hawaits
        · exact ht
      obtain ⟨hpos, u, hu, rfl⟩ := takePositional_eq_ok_iff.mp htake
      obtain ⟨-, o', ho', rfl⟩ := settle_eq_ok_iff.mp hu
      obtain ⟨ms, hms, hset, hfiles⟩ := spells_of_reads (by exact hs) (not_awaits_of_given rfl) hrest
      refine ⟨_, .file hx hms, ?_, files_file_le_one_iff.mpr ⟨hpos, hfiles⟩⟩
      rw [List.foldlM_append, ho']
      exact hset
termination_by args.length

/-- What is spelled is read, if the options can be set one after the other. -/
theorem reads_of_spells (h : Spells args ms) (hs : s.trailing = false) (hawaits : ¬ s.Awaits)
    (hset : (s.given ++ ms).foldlM Mention.set s.options = .ok o) (hfiles : s.files ms ≤ 1) :
    s.Reads args o := by
  induction h generalizing s with
  | nil => exact reads_nil_iff.mpr ⟨hawaits, by rwa [List.append_nil] at hset⟩
  | @flag name f args ms hf _ ih =>
    obtain ⟨hne, heq, -⟩ := ofName?_spec hf
    rw [List.append_cons, List.foldlM_append] at hset
    obtain ⟨o', ho', hset⟩ := accepted_bind_iff.mp hset
    refine reads_cons_iff.mpr ⟨{ s with options := o', pending := none }, ?_, ?_⟩
    · rw [take_name hs hne heq, takeLong_flag hf]
      exact settle_bind_set_eq_ok_iff.mpr ⟨hawaits, o', ho', rfl⟩
    · exact ih hs (not_awaits_of_none rfl) hset ((files_cons rfl).symm.trans_le hfiles)
  | @joined name x v args ms hv _ ih =>
    obtain ⟨hne, heq, hfile⟩ := ofName?_spec hv
    rw [List.append_cons, List.foldlM_append] at hset
    obtain ⟨o', ho', hset⟩ := accepted_bind_iff.mp hset
    refine reads_cons_iff.mpr ⟨{ s with options := o', pending := none }, ?_, ?_⟩
    · rw [take_joined hs heq, takeLong_joined hv]
      exact settle_bind_set_eq_ok_iff.mpr ⟨hawaits, o', ho', rfl⟩
    · exact ih hs (not_awaits_of_none rfl) hset ((files_cons (isFile_value hfile x)).symm.trans_le hfiles)
  | @apart name x v args ms hv hx _ ih =>
    obtain ⟨hne, heq, hfile⟩ := ofName?_spec hv
    rw [List.foldlM_append] at hset
    obtain ⟨o', ho', hset⟩ := accepted_bind_iff.mp hset
    have hsettle := settle_eq_ok_iff.mpr ⟨hawaits, o', ho', rfl⟩
    refine reads_cons_iff.mpr ⟨{ s with options := o', pending := some (v, none) }, ?_,
      reads_cons_iff.mpr ⟨{ s with options := o', pending := some (v, some x) }, ?_, ?_⟩⟩
    · rw [take_name hs hne heq, takeLong_apart hv]
      exact accepted_bind_iff.mpr ⟨_, hsettle, rfl⟩
    · rw [take_plain (by exact hs) hx]
    · exact ih hs (not_awaits_of_given rfl) hset
        ((files_cons (isFile_value hfile x)).symm.trans_le hfiles)
  | @file x args ms hx _ ih =>
    rw [List.foldlM_append] at hset
    obtain ⟨o', ho', hset⟩ := accepted_bind_iff.mp hset
    obtain ⟨hpos, hfiles⟩ := files_file_le_one_iff.mp hfiles
    have hsettle := settle_eq_ok_iff.mpr ⟨hawaits, o', ho', rfl⟩
    let t : ArgumentState :=
      { s with options := o', pending := some (.program, some x), positional := true }
    refine reads_cons_iff.mpr ⟨t, ?_, ih hs (not_awaits_of_given rfl) hset hfiles⟩
    rw [take_plain hs hx]
    split
    · next v hv => exact absurd ⟨v, hv⟩ hawaits
    · exact takePositional_eq_ok_iff.mpr ⟨hpos, _, hsettle, rfl⟩
  | rest files =>
    refine reads_cons_iff.mpr ⟨_, take_separator hs, (reads_trailing_iff rfl).mpr ?_⟩
    exact ⟨hawaits, hset, hfiles⟩

/-- All arguments together are read exactly if they spell mentions that can be set one after the
other, with one program file among them at most. -/
theorem reads_iff :
    ({} : ArgumentState).Reads args o ↔
      ∃ ms, Spells args ms ∧ ms.foldlM Mention.set {} = .ok o ∧ ms.countP Mention.isFile ≤ 1 := by
  have hfiles : ∀ ms, ({} : ArgumentState).files ms = ms.countP Mention.isFile :=
    fun ms => Nat.zero_add _
  constructor
  · intro h
    obtain ⟨ms, hms, hset, hle⟩ := spells_of_reads rfl (not_awaits_of_none rfl) h
    exact ⟨ms, hms, hset, (hfiles ms).symm.trans_le hle⟩
  · rintro ⟨ms, hms, hset, hle⟩
    exact reads_of_spells hms rfl (not_awaits_of_none rfl) hset ((hfiles ms).trans_le hle)

end ArgumentState

end Treewalk
