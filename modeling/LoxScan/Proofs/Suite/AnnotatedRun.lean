import LoxScan.Proofs.CommandLine.Script
import LoxScan.Proofs.Source.Comments
import LoxScan.Proofs.Suite.Annotation
import LoxScan.Proofs.Suite.Judgement

/-!
# Running annotated files

An annotated file is run with the scanner itself.  The annotations are comments, so the scanner
shows the scan of the source alone, and the test passes iff the annotations are what is shown: the
lines of output in order, the errors as a set.
-/

namespace LoxScan.Suite

open CommandLine
open Text

theorem isComment_annotations {outputs : List String} (errors : List LexicalError)
    (houtputs : ∀ text ∈ outputs, IsExpectable text) :
    ∀ line ∈ (annotations outputs errors).map String.toList, Grammar.IsComment line := by
  rw [annotations, List.map_append, List.map_map, List.map_map]
  simp only [List.forall_mem_append, List.forall_mem_map, Function.comp_apply]
  refine ⟨fun text htext ↦ ?_, fun e _ ↦ ?_⟩
  · have hnewline := (houtputs text htext).newline
    simp [Grammar.IsComment, outputLine, hnewline]
  · have hnewline := Mark.not_mem_display (.inl rfl) e
    simp [Grammar.IsComment, errorLine, hnewline]

theorem outcomeOfScan_annotated {source : String} {outputs : List String}
    (errors : List LexicalError)
    (hclosed : ∀ e ∈ (Scan.ofText source).errors,
      e.cause ≠ .unterminatedString ∧ e.cause ≠ .unterminatedComment)
    (houtputs : ∀ text ∈ outputs, IsExpectable text) :
    ScanCommand.outcomeOfScan (Scan.ofText (annotated source outputs errors)) =
      ScanCommand.outcomeOfScan (Scan.ofText source) := by
  have hclosed := Grammar.isClosed_of_errors hclosed
  have hcomments : (String.join ((annotations outputs errors).map (· ++ "\n"))).toList =
      Grammar.textOfLines ((annotations outputs errors).map String.toList) :=
    Split.toList_join_endings "\n" _
  have hlines := isComment_annotations errors houtputs
  rw [ScanCommand.outcomeOfScan, annotated, Grammar.dump_append_comments hclosed hcomments hlines,
    Grammar.errors_append_comments hclosed hcomments hlines]
  rfl

namespace Verdict

theorem lines_errorText (errors : List LexicalError) :
    Split.lines (ScanCommand.errorText errors) = errors.map LexicalError.display := by
  have hlines : ∀ line ∈ errors.map LexicalError.display,
      '\n' ∉ line.toList ∧ '\r' ∉ line.toList := by
    rw [List.forall_mem_map]
    exact fun e _ ↦ ⟨Mark.not_mem_display (.inl rfl) e, Mark.not_mem_display (.inr (.inl rfl)) e⟩
  have hjoin := Split.lines_join hlines
  rw [List.map_map] at hjoin
  exact hjoin

theorem reported?_of_mem_map_display {errors : List LexicalError} :
    ∀ line ∈ errors.map LexicalError.display, reported? line = some line := by
  rw [List.forall_mem_map]
  exact fun e _ ↦ Mark.reported?_display e

theorem mem_map_display {errors : List LexicalError} {e : LexicalError} :
    e.display ∈ errors.map LexicalError.display ↔ e ∈ errors :=
  List.mem_map_of_injective fun _ _ ↦ Mark.display_injective

/-- Sets of displayed errors are the same iff the sets of errors are. -/
theorem forall_mem_map_display_iff {errors others : List LexicalError} :
    (∀ text, text ∈ errors.map LexicalError.display ↔ text ∈ others.map LexicalError.display) ↔
      ∀ e, e ∈ errors ↔ e ∈ others := by
  constructor
  · intro h e
    rw [← mem_map_display, h, mem_map_display]
  · intro h text
    simp only [List.mem_map, h]

/-- A scan passes iff its errors are the expected ones and its tokens are shown as expected.  The
exit code says no more than the errors do. -/
theorem failures_outcomeOfScan_eq_nil_iff {e : Expectations} {outputs : List String}
    {errors : List LexicalError} (he : e.States outputs errors) (scan : Scan) :
    failures e (ScanCommand.outcomeOfScan scan) = [] ↔
      outputs = Split.lines scan.dump ∧ ∀ error, error ∈ errors ↔ error ∈ scan.errors := by
  simp only [failures_eq_nil_iff, ScanCommand.outcomeOfScan, linesOf_encode, lines_errorText,
    carries_of_reported reported?_of_mem_map_display, he.mem_errorSet, he.map_text, he.code,
    forall_mem_map_display_iff]
  constructor
  · rintro ⟨-, herrors, -, houtputs⟩
    exact ⟨houtputs.symm, fun error ↦ (herrors error).symm⟩
  · rintro ⟨houtputs, herrors⟩
    have hnil : scan.errors = [] ↔ errors = [] := by
      simp only [List.eq_nil_iff_forall_not_mem, herrors]
    refine ⟨unexpectedLines_of_reported reported?_of_mem_map_display ?_,
      fun error ↦ (herrors error).symm, ?_, houtputs.symm⟩
    · rw [List.forall_mem_map]
      intro error herror
      rw [he.mem_errorSet, mem_map_display]
      exact (herrors error).2 herror
    · rw [Option.some_inj, if_congr hnil rfl rfl]
      rfl

end Verdict

/-- A file with annotations behind a source without marks of its own is a test.  Run with the
scanner, it passes iff the annotated lines of output are those that show the tokens of the source
and the annotated errors are those of the source, in whatever order and number. -/
theorem passes_annotated_iff {tree : FileTree} {binary path source : String}
    {outputs : List String} {errors : List LexicalError}
    (hbinary : FileTree.program tree binary = .ok .scanner)
    (hpath : path.toList.head? ≠ some '-')
    (hread : FileTree.read tree path = .ok (Utf8.encode (annotated source outputs errors)))
    (hsource : '\r' ∉ source.toList)
    (hlines : ∀ line ∈ Split.lines source, IsUnmarked line)
    (hclosed : ∀ e ∈ (Scan.ofText source).errors,
      e.cause ≠ .unterminatedString ∧ e.cause ≠ .unterminatedComment)
    (houtputs : ∀ text ∈ outputs, IsExpectable text) :
    ∃ expectations, Expectations.ofFile (FileTree.read tree path) = (expectations, .ok true) ∧
      (Verdict.ofRun expectations binary (SuiteCommand.launch tree binary path) = [] ↔
        outputs = Split.lines (Scan.ofText source).dump ∧
          ∀ e, e ∈ errors ↔ e ∈ (Scan.ofText source).errors) := by
  obtain ⟨expectations, hstates, hparsed⟩ :=
    Expectations.exists_ofFile_annotated errors hsource hlines houtputs
  have hlaunch := SuiteCommand.launch_scanner hbinary hpath hread
  rw [outcomeOfScan_annotated errors hclosed houtputs] at hlaunch
  refine ⟨expectations, by rw [hread, hparsed], ?_⟩
  rw [hlaunch]
  exact Verdict.failures_outcomeOfScan_eq_nil_iff hstates _

/-- A string over two lines makes three lines of output, and its error is stated twice. -/
theorem passes_annotated_quoted_newline :
    let source := "\"x\n y\" @"
    let outputs := ["STRING \"x", " y\" x", " y", "EOF  null"]
    let errors : List LexicalError := [⟨2, .unexpectedCharacter⟩, ⟨2, .unexpectedCharacter⟩]
    let contents := Utf8.encode (annotated source outputs errors)
    let entries := FileTree.Directory.empty
      |>.put "rox" (.program .scanner)
      |>.put "a.lox" (.file contents)
    let tree : FileTree := ⟨entries, [], trivial⟩
    ∃ expectations, Expectations.ofFile (FileTree.read tree "a.lox") = (expectations, .ok true) ∧
      Verdict.ofRun expectations "./rox" (SuiteCommand.launch tree "./rox" "a.lox") = [] := by
  intro source outputs errors contents entries tree
  have hlines : ∀ line ∈ Split.lines source, IsUnmarked line := by decide +kernel
  have hclosed : ∀ e ∈ (Scan.ofText source).errors,
      e.cause ≠ .unterminatedString ∧ e.cause ≠ .unterminatedComment := by decide +kernel
  have houtputs : ∀ text ∈ outputs, IsExpectable text := by decide +kernel
  have hdump : outputs = Split.lines (Scan.ofText source).dump := by decide +kernel
  have herrors : (Scan.ofText source).errors = [⟨2, .unexpectedCharacter⟩] := by decide +kernel
  have hbinary : FileTree.program tree "./rox" = .ok .scanner := by
    clear_value contents
    rfl
  have hread : FileTree.read tree "a.lox" = .ok contents := by
    clear_value contents
    rfl
  obtain ⟨expectations, htest, hpasses⟩ :=
    passes_annotated_iff hbinary (by decide) hread (by decide) hlines hclosed houtputs
  refine ⟨expectations, htest, hpasses.2 ⟨hdump, fun e ↦ ?_⟩⟩
  rw [herrors]
  simp [errors]

end LoxScan.Suite
