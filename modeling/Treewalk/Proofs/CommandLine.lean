import Treewalk.Command.Response
import Treewalk.Proofs.AcceptedOptions

/-!
# The response to a command line

Options that were accepted can always be carried out: there is one path at most, and one at least
unless programs are read from the standard input.  That no input file was provided is never
reported, to no command line and whatever the files and the standard input are.

## Main definitions

* `noInputFile` — the response to options without a program file.
* `accepted_options_usable` — what holds of options that were accepted.
-/

namespace Treewalk

/-- The response to options without a program file. -/
def noInputFile : Response := failure "error: no input file was provided" ""

theorem ne_noInputFile_of_exit {r : Response} (h : r.exit = 0) : r ≠ noInputFile := by
  rintro rfl
  exact absurd h (by decide)

/-- A diagnostic that begins in another way is another response. -/
theorem failure_ne_noInputFile {diagnostic stdout : String} {start : List Char}
    (hstart : start <+: diagnostic.toList)
    (h : ¬ start <+: "error: no input file was provided\n".toList) :
    failure diagnostic stdout ≠ noInputFile := by
  intro heq
  have hdiagnostic : diagnostic ++ "\n" = "error: no input file was provided\n" :=
    congrArg Response.stderr heq
  rw [← hdiagnostic, String.toList_append] at h
  exact h (hstart.trans (List.prefix_append _ _))

theorem prefix_of_append (s t : String) : s.toList <+: (s ++ t).toList := by
  rw [String.toList_append]
  exact List.prefix_append _ _

theorem respond_error_ne_noInputFile (e : UsageError) : e.respond ≠ noInputFile := by
  intro h
  have hexit := congrArg Response.exit h
  cases e <;> exact absurd hexit (by decide)

theorem failure_outcome_ne_noInputFile {outcome : Except Stop Completion}
    {diagnostic stdout : String} (h : outcomeText outcome = .error diagnostic) :
    failure diagnostic stdout ≠ noInputFile := by
  unfold outcomeText at h
  split at h
  · cases h
  · cases h
  · cases h
    exact failure_ne_noInputFile ((prefix_of_append "error[" _).trans
      ((prefix_of_append _ "]: ").trans (prefix_of_append _ _))) (by decide)
  · cases h
    exact failure_ne_noInputFile List.prefix_rfl (by decide)

section

variable (report : List Char → String) (levels : Nat)

theorem respondRepl_ne_noInputFile (config : Config) (stdin : List UInt8) :
    respondRepl report levels config stdin ≠ noInputFile := by
  unfold respondRepl
  dsimp only
  split
  · intro h
    have hend : (unreadableInput ++ "\n").toList <:+ noInputFile.stderr.toList := by
      rw [← h]
      dsimp only
      rw [String.append_assoc, String.toList_append (s := (readLines _ _ _ _).diag)]
      exact List.suffix_append _ _
    exact absurd hend (by decide)
  · exact ne_noInputFile_of_exit rfl

theorem respondFile_ne_noInputFile (o : Options) (text : String) :
    respondFile report levels o text ≠ noInputFile := by
  unfold respondFile
  split
  · exact failure_ne_noInputFile (prefix_of_append _ _) (by decide)
  · dsimp only
    split
    · split
      · exact ne_noInputFile_of_exit rfl
      · next h => exact failure_outcome_ne_noInputFile h
    · exact ne_noInputFile_of_exit rfl

/-- Options that were checked never have the response to options without a program file. -/
theorem respondOptions_ne_noInputFile {o : Options} (ho : o.check = .ok o)
    (read : String → Except FileFailure (List UInt8)) (stdin : List UInt8) :
    respondOptions report levels o read stdin ≠ noInputFile := by
  unfold respondOptions
  split
  · exact respondRepl_ne_noInputFile report levels o.config stdin
  · next hrepl =>
    obtain ⟨path, hpath⟩ := Options.exists_path_of_check ho (Bool.eq_false_iff.mpr hrepl)
    rw [hpath]
    dsimp only
    split
    · exact failure_ne_noInputFile ((prefix_of_append "error: cannot read `" _).trans
        ((prefix_of_append _ "`: ").trans (prefix_of_append _ _))) (by decide)
    · exact respondFile_ne_noInputFile report levels o _

/-- Nor has any command line, accepted or not. -/
theorem respond_ne_noInputFile (args : List String)
    (read : String → Except FileFailure (List UInt8)) (stdin : List UInt8) :
    respond report levels args read stdin ≠ noInputFile := by
  unfold respond
  split
  · next e _ => exact respond_error_ne_noInputFile e
  · next o ho =>
    have hcheck := (Options.parse_eq_ok_iff_reads.mp ho).2
    exact respondOptions_ne_noInputFile report levels hcheck read stdin

end

/-- Options that are accepted can be carried out.  The arguments spell usable mentions, and the
options are what they say: the program file is given in one way at most, and in one at least unless
programs are read from the standard input, and the path is the one that is given, in whichever way.
So there is one unless programs are read from the standard input, and whatever the files and the
standard input are, the response is never that no input file was provided. -/
theorem accepted_options_usable {args : List String} {o : Options}
    (h : Options.parse args = .ok o) :
    (∃ ms, Spells args ms ∧ Usable ms ∧ o = .ofMentions ms ∧
      ∀ path, o.path = some path ↔ .value .program path ∈ ms ∨ .value .input path ∈ ms) ∧
    (o.program = none ∨ o.input = none) ∧
    (o.program.isSome ∨ o.input.isSome ∨ o.repl = true) ∧
    (o.repl = false → ∃ path, o.path = some path) ∧
    ∀ report levels read stdin,
      respond report levels args read stdin = respondOptions report levels o read stdin ∧
        respondOptions report levels o read stdin ≠ noInputFile := by
  have hcheck := (Options.parse_eq_ok_iff_reads.mp h).2
  obtain ⟨hexclusive, hpresent, -⟩ := Options.check_eq_ok_iff.mp hcheck
  refine ⟨?_, hexclusive, hpresent, Options.exists_path_of_check hcheck,
    fun report levels read stdin => ?_⟩
  · obtain ⟨ms, hms, husable, rfl⟩ := Options.parse_eq_ok_iff.mp h
    exact ⟨ms, hms, husable, rfl, fun path => Options.path_ofMentions_eq_some_iff husable⟩
  · refine ⟨?_, respondOptions_ne_noInputFile report levels hcheck read stdin⟩
    rw [respond, h]

/-- A flag, an option with its value after it, and a program file whose name begins with a dash. -/
def dashedFile : List String := ["--run", "--max-depth", "12", "--", "--input"]

theorem dashedFile_usable :
    let o : Options := { program := some "--input", run := true, maxDepth := some 12 }
    Options.parse dashedFile = .ok o ∧ o.path = some "--input" ∧
      ∀ report levels read stdin, respondOptions report levels o read stdin ≠ noInputFile := by
  intro o
  have h : Options.parse dashedFile = .ok o := by decide
  obtain ⟨-, -, -, -, hrespond⟩ := accepted_options_usable h
  exact ⟨h, rfl, fun report levels read stdin => (hrespond report levels read stdin).2⟩

end Treewalk
