import Treewalk.Command.ReadLoop
import Treewalk.Proofs.Balance
import Treewalk.Proofs.Operation
import Treewalk.Tree.Encode

/-!
# The read loop, line by line

The loop handles the lines before the first `exit`, in order, and each of them on the machine that
the lines before it have left.  What it writes is what is written for each line, with a prompt
before the first line and after every line.  The machine that is left is the one that has run all
programs among the lines, one after the other: a line that is blank or no program does nothing to
it, and a program that fails or is halted leaves what it has bound by then, and no scope or call.

Everything that is written is told letter by letter, but for what the reader of JSON says of a line
that is no program: `report` stands for that, and nothing is assumed about it.

A program that never ends has no place in this, since the loop never comes to the line after it.
With some number of levels a run may give up instead, and only then may more levels make a
difference.

## Main definitions

* `handledLines`, `lineProgram?` — the lines that are handled, and their programs.
* `Machine.afterLines` — the machine that lines leave.
* `Handled` — what a line leads to.
* `LineEnds`, `EachLineEnds` — runs that come to their ends.
* `LineByLine` — what the loop does with all lines.
* `readLines_line_by_line` — the loop as a whole.
-/

namespace Treewalk

/-! ## Lines -/

/-- The text of a line without blanks at its ends. -/
def lineText (line : String) : List Char := Text.trim line.toList

/-- A line that ends the loop: it says `exit` in any letter case. -/
def endsLoop (line : String) : Bool := (lineText line).map Char.toLower == "exit".toList

/-- The lines before the first one that ends the loop. -/
def handledLines (lines : List String) : List String := lines.takeWhile fun line => !endsLoop line

theorem lowerAscii_eq_toLower (c : Char) : Text.lowerAscii c = c.toLower := by
  unfold Text.lowerAscii Char.toLower
  by_cases h : c.val ≥ 'A'.val ∧ c.val ≤ 'Z'.val
  · have hle : c.toNat ≤ 90 := h.2
    have hvalid : (c.toNat + 32).isValidChar := .inl (by omega)
    rw [if_pos (show 'A' ≤ c ∧ c ≤ 'Z' from h), dif_pos h, Char.ofNat, dif_pos hvalid]
    apply Char.ext
    apply UInt32.toNat_inj.mp
    change c.toNat + 32 = (c.val + 32).toNat
    rw [UInt32.toNat_add]
    change c.toNat + 32 = (c.toNat + 32) % _
    omega
  · rw [if_neg (show ¬ ('A' ≤ c ∧ c ≤ 'Z') from h), dif_neg h]

/-- The loop looks for the lines that end it. -/
theorem sameLetters_exit (line : String) :
    Text.sameLetters (lineText line) "exit".toList = endsLoop line := by
  have hlower : Text.lowerAscii = Char.toLower := funext lowerAscii_eq_toLower
  rw [Text.sameLetters, hlower]
  rfl

/-- The program of a line, if it has one. -/
def lineProgram? (line : String) : Option Program :=
  ((Item.record .program).decode (lineText line)).toOption

namespace Machine

/-- Run programs in order. -/
def runAll (levels : Nat) (m : Machine) (ps : List Program) : Machine :=
  ps.foldl (fun m p => (m.run levels p).2) m

/-- The machine that has run the programs of some lines in order. -/
def afterLines (levels : Nat) (m : Machine) (lines : List String) : Machine :=
  m.runAll levels (lines.filterMap lineProgram?)

variable (levels : Nat) (m : Machine)

theorem afterLines_append (lines lines' : List String) :
    m.afterLines levels (lines ++ lines') =
      (m.afterLines levels lines).afterLines levels lines' := by
  rw [afterLines, List.filterMap_append, runAll, List.foldl_append]
  rfl

theorem afterLines_cons (line : String) (lines : List String) :
    m.afterLines levels (line :: lines) =
      (m.afterLines levels [line]).afterLines levels lines :=
  m.afterLines_append levels [line] lines

variable {line : String} in
theorem afterLines_of_none (h : lineProgram? line = none) : m.afterLines levels [line] = m := by
  simp [afterLines, runAll, h]

variable {line : String} in
theorem afterLines_of_some {p : Program} (h : lineProgram? line = some p) :
    m.afterLines levels [line] = (m.run levels p).2 := by
  simp [afterLines, runAll, h]

theorem sameStack_afterLines (lines : List String) : m.SameStack (m.afterLines levels lines) := by
  induction lines generalizing m with
  | nil => exact .refl m
  | cons line lines ih =>
    rw [afterLines_cons]
    refine .trans ?_ (ih _)
    cases h : lineProgram? line with
    | none =>
      rw [m.afterLines_of_none levels h]
      exact .refl m
    | some p =>
      rw [m.afterLines_of_some levels h]
      exact sameStack_run levels p m

end Machine

/-! ## One line -/

/-- What a line leads to.  Nothing comes of a blank line.  A text that is no program is reported,
and the machine stays as it is.  A program is run.  Its value is shown, or that it was halted, or its
fault is reported: with its code, with the place of the node to blame, and with what happened. -/
inductive Handled (report : List Char → String) (levels : Nat) (m : Machine) (line : String) :
    LineResult → Prop where
  | blank : lineText line = [] →
    Handled report levels m line { out := "", diag := "", machine := m }
  | refused {e : DecodeError} : lineText line ≠ [] →
    (Item.record .program).decode (lineText line) = .error e →
    Handled report levels m line
      { out := ""
        diag := "error: invalid program JSON: " ++ report (lineText line) ++ "\n"
        machine := m }
  | completed {p : Program} {c : Completion} {m' : Machine} : lineProgram? line = some p →
    m.run levels p = (.ok c, m') →
    Handled report levels m line
      { out := "=> " ++ c.value.display ++ "\n", diag := "", machine := m' }
  | halted {p : Program} {m' : Machine} : lineProgram? line = some p →
    m.run levels p = (.error .halted, m') →
    Handled report levels m line { out := "halted\n", diag := "", machine := m' }
  | failed {p : Program} {f : Fault} {m' : Machine} : lineProgram? line = some p →
    m.run levels p = (.error (.failed f), m') →
    Handled report levels m line
      { out := ""
        diag := "error[" ++ f.code ++ "]: " ++ f.location.text ++ ": " ++ f.reason ++ "\n"
        machine := m' }

/-- The program of a line, if there is one, comes to its end. -/
def LineEnds (levels : Nat) (m : Machine) (line : String) : Prop :=
  ∀ p, lineProgram? line = some p → (m.run levels p).1 ≠ .error .exhausted

instance (outcome : Except Stop Completion) : Decidable (outcome = .error .exhausted) :=
  match outcome with
  | .ok _ => .isFalse nofun
  | .error stop => decidable_of_iff (stop = .exhausted) ⟨congrArg _, Except.error.inj⟩

instance (levels : Nat) (m : Machine) (line : String) : Decidable (LineEnds levels m line) :=
  decidable_of_iff (∀ p ∈ lineProgram? line, (m.run levels p).1 ≠ .error .exhausted) .rfl

/-- Nothing is read from a blank line. -/
theorem lineProgram?_blank {line : String} (h : lineText line = []) : lineProgram? line = none := by
  have hnil : ((Item.record .program).decode []).toOption.isNone = true := by decide +kernel
  rw [lineProgram?, h]
  exact Option.isNone_iff_eq_none.mp hnil

section OneLine

variable (report : List Char → String) {levels : Nat} {m : Machine} {line : String}

theorem exists_error_of_none (h : lineProgram? line = none) :
    ∃ e, (Item.record .program).decode (lineText line) = .error e := by
  cases hdecode : (Item.record .program).decode (lineText line) with
  | error e => exact ⟨e, rfl⟩
  | ok p =>
    rw [lineProgram?, hdecode] at h
    cases h

theorem decode_of_some {p : Program} (h : lineProgram? line = some p) :
    (Item.record .program).decode (lineText line) = .ok p := by
  cases hdecode : (Item.record .program).decode (lineText line) with
  | error e =>
    rw [lineProgram?, hdecode] at h
    cases h
  | ok p' =>
    rw [lineProgram?, hdecode] at h
    exact congrArg _ (Option.some.inj h)

theorem readLine_of_blank (hblank : lineText line = []) :
    readLine report levels m (lineText line) = { machine := m } := by
  rw [hblank]
  rfl

theorem readLine_of_error {e : DecodeError} (hblank : lineText line ≠ [])
    (hdecode : (Item.record .program).decode (lineText line) = .error e) :
    readLine report levels m (lineText line) =
      { diag := refusal report (lineText line) ++ "\n", machine := m } := by
  rw [readLine, if_neg (by rwa [List.isEmpty_iff]), hdecode]

theorem readLine_of_some {p : Program} (h : lineProgram? line = some p) :
    readLine report levels m (lineText line) =
      match outcomeText (m.run levels p).1 with
      | .ok text => { out := text ++ "\n", machine := (m.run levels p).2 }
      | .error text => { diag := text ++ "\n", machine := (m.run levels p).2 } := by
  have hempty : ¬ (lineText line).isEmpty = true := by
    intro hempty
    rw [lineProgram?_blank (List.isEmpty_iff.mp hempty)] at h
    cases h
  exact (if_neg hempty).trans (decode_of_some h ▸ rfl)

/-- A line without a program leaves the machine as it is, with any levels. -/
theorem readLine_of_none (h : lineProgram? line = none) :
    ∃ diag, ∀ levels m, readLine report levels m (lineText line) = { diag, machine := m } := by
  by_cases hblank : lineText line = []
  · exact ⟨_, fun levels m => readLine_of_blank report hblank⟩
  · obtain ⟨e, hdecode⟩ := exists_error_of_none h
    exact ⟨_, fun levels m => readLine_of_error report hblank hdecode⟩

/-- A fault as it is reported. -/
theorem diagnostic_line (f : Fault) :
    f.diagnostic ++ "\n" =
      "error[" ++ f.code ++ "]: " ++ f.location.text ++ ": " ++ f.reason ++ "\n" := by
  simp only [Fault.diagnostic, Fault.message, String.append_assoc]

theorem handled_readLine (h : LineEnds levels m line) :
    Handled report levels m line (readLine report levels m (lineText line)) := by
  cases hp : lineProgram? line with
  | none =>
    by_cases hblank : lineText line = []
    · rw [readLine_of_blank report hblank]
      exact .blank hblank
    · obtain ⟨e, hdecode⟩ := exists_error_of_none hp
      rw [readLine_of_error report hblank hdecode]
      exact .refused hblank hdecode
  | some p =>
    have hend := h p hp
    rw [readLine_of_some report hp]
    cases hrun : m.run levels p with
    | mk outcome m' =>
      rw [hrun] at hend
      cases outcome with
      | ok c => exact .completed hp hrun
      | error s =>
        cases s with
        | halted => exact .halted hp hrun
        | failed f =>
          change Handled report levels m line { diag := f.diagnostic ++ "\n", machine := m' }
          rw [diagnostic_line]
          exact .failed hp hrun
        | exhausted => exact absurd rfl hend

/-- A line leaves the machine that has run its program, if it has one. -/
theorem machine_readLine (levels : Nat) (m : Machine) (line : String) :
    (readLine report levels m (lineText line)).machine = m.afterLines levels [line] := by
  cases hp : lineProgram? line with
  | none =>
    obtain ⟨diag, hline⟩ := readLine_of_none report hp
    rw [hline, m.afterLines_of_none levels hp]
  | some p =>
    rw [readLine_of_some report hp, m.afterLines_of_some levels hp]
    cases outcomeText (m.run levels p).1 <;> rfl

/-- More levels make no difference to a line that ends. -/
theorem readLine_of_le {more : Nat} (hmore : levels ≤ more) (h : LineEnds levels m line) :
    readLine report more m (lineText line) = readLine report levels m (lineText line) := by
  cases hp : lineProgram? line with
  | none =>
    obtain ⟨diag, hline⟩ := readLine_of_none report hp
    rw [hline, hline]
  | some p =>
    have hrun : m.run more p = m.run levels p := (Operation.run p).perform_of_le hmore (h p hp)
    rw [readLine_of_some report hp, readLine_of_some report hp, hrun]

end OneLine

/-! ## Where a program stops -/

/-- A statement that stops ends the list that it stands in. -/
theorem perform_executeBody_of_stops {levels : Nat} {m m₁ m₂ : Machine} {done rest : List Stmt}
    {s : Stmt} {v : Value} {stop : Stop}
    (hdone : m.perform (executeBody levels done) = (.ok (.normal v), m₁))
    (hstop : m₁.perform (execute levels s) = (.error stop, m₂)) :
    m.perform (executeBody levels (done ++ s :: rest)) = (.error stop, m₂) := by
  have hall : ∀ (last : Value) (m : Machine),
      m.perform (executeAll (execute levels) last done) = (.ok (.normal v), m₁) →
      m.perform (executeAll (execute levels) last (done ++ s :: rest)) = (.error stop, m₂) := by
    clear hdone
    induction done with
    | nil =>
      intro last m h
      obtain rfl : m = m₁ := congrArg Prod.snd h
      rw [List.nil_append, executeAll, Machine.perform_bind, hstop]
    | cons t done ih =>
      intro last m h
      rw [executeAll, Machine.perform_bind] at h
      rw [List.cons_append, executeAll, Machine.perform_bind]
      cases hrun : m.perform (execute levels t) with
      | mk outcome m' =>
        rw [hrun] at h
        cases outcome with
        | error stop' => cases h
        | ok c =>
          cases c with
          | normal v' => exact ih v' m' h
          | returned v' => cases h
  exact hall .absent m hdone

/-! ## All lines -/

theorem handledLines_cons (line : String) (lines : List String) :
    handledLines (line :: lines) = if endsLoop line then [] else line :: handledLines lines := by
  rw [handledLines, List.takeWhile_cons]
  cases endsLoop line <;> rfl

/-- The program of each line that is handled comes to its end, on the machine that the lines before it
leave. -/
def EachLineEnds (levels : Nat) (m : Machine) (lines : List String) : Prop :=
  ∀ before line after, handledLines lines = before ++ line :: after →
    LineEnds levels (m.afterLines levels before) line

section EachLineEnds

variable {levels : Nat} {m : Machine} {line : String} {lines : List String}

theorem eachLineEnds_cons_iff :
    EachLineEnds levels m (line :: lines) ↔
      endsLoop line = true ∨
        LineEnds levels m line ∧ EachLineEnds levels (m.afterLines levels [line]) lines := by
  by_cases hexit : endsLoop line = true
  · refine iff_of_true (fun before next after heq => ?_) (.inl hexit)
    rw [handledLines_cons, if_pos hexit] at heq
    exact absurd heq.symm (by simp)
  rw [or_iff_right hexit]
  unfold EachLineEnds
  rw [handledLines_cons, if_neg hexit]
  constructor
  · refine fun h => ⟨h [] line _ rfl, fun before next after heq => ?_⟩
    rw [← Machine.afterLines_append]
    exact h (line :: before) next after (congrArg _ heq)
  · rintro ⟨hline, hlines⟩ before next after heq
    cases before with
    | nil =>
      obtain rfl := (List.cons.inj heq).1
      exact hline
    | cons first before =>
      obtain ⟨rfl, hrest⟩ := List.cons.inj heq
      rw [Machine.afterLines_cons]
      exact hlines before next after hrest

instance decidableEachLineEnds (levels : Nat) :
    (m : Machine) → (lines : List String) → Decidable (EachLineEnds levels m lines)
  | _, [] => .isTrue fun before _ _ heq => absurd heq.symm (by simp [handledLines])
  | m, line :: lines =>
    haveI := decidableEachLineEnds levels (m.afterLines levels [line]) lines
    decidable_of_iff' _ eachLineEnds_cons_iff

end EachLineEnds

section AllLines

variable (report : List Char → String) (levels : Nat)

/-- What is left behind by each of some lines, on the machine that the lines before it leave. -/
def lineResults (m : Machine) (lines : List String) : List LineResult :=
  lines.mapIdx fun k line =>
    readLine report levels (m.afterLines levels (lines.take k)) (lineText line)

theorem lineResults_cons (m : Machine) (line : String) (lines : List String) :
    lineResults report levels m (line :: lines) =
      readLine report levels m (lineText line) ::
        lineResults report levels (m.afterLines levels [line]) lines := by
  have hafter : ∀ k, m.afterLines levels ((line :: lines).take (k + 1)) =
      (m.afterLines levels [line]).afterLines levels (lines.take k) :=
    fun k => m.afterLines_cons levels line (lines.take k)
  rw [lineResults, List.mapIdx_cons]
  simp only [hafter]
  rfl

/-- The loop from one line on. -/
theorem readLines_cons (m : Machine) (line : String) (lines : List (Option String)) :
    readLines report levels m (some line :: lines) =
      if endsLoop line then { out := "> ", diag := "", machine := m }
      else
        let r := readLine report levels m (lineText line)
        let rest := readLines report levels (m.afterLines levels [line]) lines
        { rest with out := "> " ++ r.out ++ rest.out, diag := r.diag ++ rest.diag } := by
  rw [← machine_readLine report, ← sameLetters_exit]
  rfl

/-- More levels make no difference where all lines end. -/
theorem readLines_of_le {levels more : Nat} (hmore : levels ≤ more) {m : Machine}
    {lines : List String} (h : EachLineEnds levels m lines) :
    readLines report more m (lines.map some) = readLines report levels m (lines.map some) := by
  induction lines generalizing m with
  | nil => rfl
  | cons line lines ih =>
    rw [List.map_cons, readLines_cons, readLines_cons]
    obtain hexit | ⟨hend, hends⟩ := eachLineEnds_cons_iff.mp h
    · rw [if_pos hexit, if_pos hexit]
    · have hline := readLine_of_le report hmore hend
      have hmachine : m.afterLines more [line] = m.afterLines levels [line] := by
        rw [← machine_readLine report, ← machine_readLine report, hline]
      rw [hline, hmachine, ih hends]

/-- The transcript, told by the lines that are handled. -/
theorem readLines_eq (m : Machine) (lines : List String) :
    readLines report levels m (lines.map some) =
      let results := lineResults report levels m (handledLines lines)
      { out := "> " ++ String.join (results.map fun r => r.out ++ "> ")
        diag := String.join (results.map LineResult.diag)
        machine := m.afterLines levels (handledLines lines) } := by
  induction lines generalizing m with
  | nil => rfl
  | cons line lines ih =>
    rw [handledLines_cons, List.map_cons, readLines_cons]
    by_cases hexit : endsLoop line = true
    · rw [if_pos hexit, if_pos hexit]
      rfl
    · rw [if_neg hexit, if_neg hexit, lineResults_cons,
        m.afterLines_cons levels line (handledLines lines), ih]
      simp only [List.map_cons, String.join_cons, String.append_assoc]

end AllLines

/-- What the loop does with all lines, that are all readable.  The lines that are handled are taken
apart as a line, the lines before it and the lines after it. -/
structure LineByLine (report : List Char → String) (levels : Nat) (m : Machine)
    (lines : List String) (t : Transcript) : Prop where
  readable : t.unreadable = false
  out : t.out = "> " ++
    String.join ((lineResults report levels m (handledLines lines)).map fun r => r.out ++ "> ")
  diag : t.diag =
    String.join ((lineResults report levels m (handledLines lines)).map LineResult.diag)
  machine : t.machine = m.runAll levels ((handledLines lines).filterMap lineProgram?)
  /-- Each line is handled on the machine that has run the programs before it. -/
  handled : ∀ before line after, handledLines lines = before ++ line :: after →
    LineEnds levels (m.afterLines levels before) line →
      Handled report levels (m.afterLines levels before) line
        (readLine report levels (m.afterLines levels before) (lineText line))
  /-- A program that stops leaves the machine as the statement that stops does, and so it keeps what
  the statements before that one have bound. -/
  kept : ∀ before line after p, handledLines lines = before ++ line :: after →
    lineProgram? line = some p → ∀ done s rest v m₁ stop m₂, p.body = done ++ s :: rest →
      { m.afterLines levels before with halted := false }.perform (executeBody levels done) =
        (.ok (.normal v), m₁) →
      m₁.perform (execute levels s) = (.error stop, m₂) →
      m.afterLines levels (before ++ [line]) = m₂
  /-- After every line the scopes and the depth of calls are the ones from the start. -/
  stack : ∀ before, before <+: handledLines lines →
    m.SameStack (m.afterLines levels before) ∧
      (m.afterLines levels before).scopeDepth = m.scopeDepth ∧
      (m.afterLines levels before).callDepth = m.callDepth

/-- The read loop, on any machine and any lines.  The results do not depend on the levels if there
are enough of them for each line. -/
theorem readLines_line_by_line (report : List Char → String) (levels : Nat) (m : Machine)
    (lines : List String) :
    LineByLine report levels m lines (readLines report levels m (lines.map some)) ∧
      (EachLineEnds levels m lines → ∀ more, levels ≤ more →
        readLines report more m (lines.map some) = readLines report levels m (lines.map some)) := by
  refine ⟨?_, fun h more hmore => readLines_of_le report hmore h⟩
  rw [readLines_eq]
  exact {
    readable := rfl
    out := rfl
    diag := rfl
    machine := rfl
    handled := fun before line after _ hend => handled_readLine report hend
    kept := by
      intro before line after p _ hp done s rest v m₁ stop m₂ hbody hdone hstop
      rw [Machine.afterLines_append, Machine.afterLines_of_some _ _ hp, Machine.run, hbody,
        perform_executeBody_of_stops hdone hstop]
    stack := fun before _ =>
      have hstack := m.sameStack_afterLines levels before
      ⟨hstack, hstack.scopeDepth, hstack.callDepth⟩ }

/-- A program that is halted after it has declared a name, a blank line, a document that is no
program, a program that calls what is no function, one that reads the name, and the end of the loop
with a line after it. -/
def mixedLines : List String :=
  let line (statements : List Json.Doc) : String :=
    (Json.Doc.ofMembers [("body", .ofList statements)]).compactText
  let named (name : String) : Json.Doc := .ofMembers [("name", .ofString name)]
  let literal := tagged "Literal" [("value", .ofString "a")]
  let declaring := tagged "VariableDeclaration"
    [("declarations", .ofList [.ofMembers [("id", named "x"), ("init", literal)]])]
  let halting := tagged "DebuggerStatement" []
  let evaluating (expression : Json.Doc) :=
    tagged "ExpressionStatement" [("expression", expression)]
  let reading (name : String) := tagged "Identifier" [("name", .ofString name)]
  let calling := tagged "CallExpression" [("callee", reading "ghost"), ("arguments", .ofList [])]
  [line [declaring, halting], "  ", " \x7b\x7d", line [evaluating calling],
    line [evaluating (reading "x")], " Exit ", line [halting]]

theorem mixedLines_line_by_line :
    let report : List Char → String := fun _ => "missing field `body` at line 1 column 2"
    let t := readLines report 9 (.new {}) (mixedLines.map some)
    LineByLine report 9 (.new {}) mixedLines t ∧
      (∀ more, 9 ≤ more → readLines report more (.new {}) (mixedLines.map some) = t) ∧
      t.out = "> halted\n> > > > => a\n> " ∧
      t.diag = "error: invalid program JSON: missing field `body` at line 1 column 2\n" ++
        "error[R002]: <unknown>:0:0: `ghost` is not a function\n" := by
  intro report t
  have hrun : EachLineEnds 9 (.new {}) mixedLines ∧
      t.out = "> halted\n> > > > => a\n> " ∧
      t.diag = "error: invalid program JSON: missing field `body` at line 1 column 2\n" ++
        "error[R002]: <unknown>:0:0: `ghost` is not a function\n" := by
    decide +kernel
  obtain ⟨hlines, hmore⟩ := readLines_line_by_line report 9 (.new {}) mixedLines
  exact ⟨hlines, hmore hrun.1, hrun.2⟩

end Treewalk
