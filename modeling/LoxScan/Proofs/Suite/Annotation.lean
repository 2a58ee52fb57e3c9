import Mathlib.Tactic.MkIffOfInductiveProp
import LoxScan.Proofs.Stream.TextLines
import LoxScan.Proofs.Suite.Marks

/-!
# Annotated files

A source text is annotated with what its scan should show by comments behind it, one for each line
of output and one for each error.  Whatever the text of the annotations, the expectations that are
collected from such a file are the annotated ones, as long as the source itself carries no marks.
-/

namespace LoxScan.Suite

open Text

/-- The comment that states a line of output. -/
def outputLine (text : String) : String := "// expect: " ++ text

/-- The comment that states an error. -/
def errorLine (e : LexicalError) : String := "// " ++ e.display

/-- The comments that state the lines of output and the errors, each on a line of its own. -/
def annotations (outputs : List String) (errors : List LexicalError) : List String :=
  outputs.map outputLine ++ errors.map errorLine

/-- A source with the given annotations behind it. -/
def annotated (source : String) (outputs : List String) (errors : List LexicalError) : String :=
  source ++ "\n" ++ String.join ((annotations outputs errors).map (· ++ "\n"))

/-- A line in which no mark is found. -/
@[mk_iff]
structure IsUnmarked (line : String) : Prop where
  output : Mark.expectedOutput? line = none
  error : Mark.expectedError? line = none
  errorAt : Mark.expectedErrorAt? line = none
  diagnostic : Mark.diagnostic? line = none
  exclusion : Mark.exclusion? line = none

/-- A text that can be annotated as a line of output. -/
@[mk_iff]
structure IsExpectable (text : String) : Prop where
  newline : '\n' ∉ text.toList
  carriageReturn : '\r' ∉ text.toList
  exclusion : ¬ "// nontest".toList <:+: text.toList

instance : DecidablePred IsUnmarked := fun line ↦ decidable_of_iff' _ (isUnmarked_iff line)

instance : DecidablePred IsExpectable := fun text ↦ decidable_of_iff' _ (isExpectable_iff text)

namespace Statement

open Mark

theorem ofLine_of_isUnmarked {line : String} (h : IsUnmarked line) : ofLine line = nothing := by
  rw [ofLine, h.exclusion, h.output, h.errorAt, h.error]
  rfl

theorem ofLine_outputLine {text : String} (h : IsExpectable text) :
    ofLine (outputLine text) = output text := by
  have hline : (outputLine text).toList =
      "// expect:".toList ++ (" ".toList ++ text.toList) := by
    rw [outputLine, String.toList_append, ← List.append_assoc]
    rfl
  have hexclusion : exclusion? (outputLine text) = none := by
    refine exclusion?_eq_none_iff.2 ?_
    rw [outputLine, String.toList_append]
    simpa [List.infix_cons_iff] using h.exclusion
  have hread : readOutput (outputLine text).toList = some (text, []) := by
    rw [readOutput, hline, skip_append, Option.map_some, skip_append, Option.getD_some,
      readLine_of_not_mem h.newline, String.ofList_toList]
  obtain ⟨whole, hfound⟩ := exists_leftmost?_eq hread
  rw [ofLine, hexclusion, expectedOutput?, hfound]
  rfl

theorem toList_errorLine (e : LexicalError) :
    (errorLine e).toList = '/' :: '/' :: ' ' :: e.display.toList := by
  rw [errorLine, String.toList_append]
  rfl

theorem ofLine_errorLine (e : LexicalError) :
    ofLine (errorLine e) = errorAt (lineMessage e) := by
  obtain ⟨later, hdisplay⟩ := exists_toList_display e
  have hslash : '/' ∉ ' ' :: e.display.toList := by
    simpa using not_mem_display (.inr (.inr rfl)) e
  have hexclusion : exclusion? (errorLine e) = none := by
    rw [exclusion?, toList_errorLine]
    refine leftmost?_comment_eq_none "// nontest" (fun text htext ↦ ?_) rfl hslash
      (by simp [hdisplay]) (by simp)
    rw [readExclusion, htext, Option.map_none]
  have houtput : expectedOutput? (errorLine e) = none := by
    rw [expectedOutput?, toList_errorLine]
    refine leftmost?_comment_eq_none "// expect:" (fun text htext ↦ ?_) rfl hslash
      (by simp [hdisplay]) (by simp)
    rw [readOutput, htext, Option.map_none]
  have hread : readErrorAt (errorLine e).toList = some (lineMessage e, []) := by
    rw [readErrorAt, errorLine, String.toList_append, skip_append, Option.bind_some,
      ← display_lineMessage, readLineMessage_display (isReadable_lineMessage e)]
  obtain ⟨whole, hfound⟩ := exists_leftmost?_eq hread
  rw [ofLine, hexclusion, houtput, expectedErrorAt?, hfound]
  rfl

end Statement

/-- The lines of an annotated file: those of the source, with an empty one at the end if the source
ends with a newline, and the annotations. -/
theorem lines_annotated {source : String} {outputs : List String} (errors : List LexicalError)
    (hsource : '\r' ∉ source.toList) (houtputs : ∀ text ∈ outputs, IsExpectable text) :
    Split.lines (annotated source outputs errors) =
      (Split.fieldsOf '\n' source.toList).map String.ofList ++ annotations outputs errors := by
  have hannotations : ∀ line ∈ annotations outputs errors,
      '\n' ∉ line.toList ∧ '\r' ∉ line.toList := by
    intro line hline
    rcases List.mem_append.1 hline with hline | hline
    · obtain ⟨text, htext, rfl⟩ := List.mem_map.1 hline
      have h := houtputs text htext
      simp [outputLine, h.newline, h.carriageReturn]
    · obtain ⟨e, -, rfl⟩ := List.mem_map.1 hline
      have hnewline := Mark.not_mem_display (.inl rfl) e
      have hreturn := Mark.not_mem_display (.inr (.inl rfl)) e
      simp [errorLine, hnewline, hreturn]
  have hjoin := Split.lines_join hannotations
  rw [Split.lines] at hjoin
  rw [Split.lines, annotated, String.toList_append, String.toList_append, List.append_assoc]
  rw [show "\n".toList = ['\n'] from rfl, List.singleton_append,
    Split.linesOf_append_newline_eq_fieldsOf hsource, List.map_append, hjoin]

theorem isUnmarked_of_mem_fieldsOf {source : String} (hsource : '\r' ∉ source.toList)
    (hlines : ∀ line ∈ Split.lines source, IsUnmarked line) :
    ∀ line ∈ (Split.fieldsOf '\n' source.toList).map String.ofList, IsUnmarked line := by
  rcases Split.fieldsOf_eq_linesOf hsource with hfields | hfields
  · rw [hfields]
    exact hlines
  · rw [hfields, List.map_append, List.forall_mem_append]
    refine ⟨hlines, fun line hline ↦ ?_⟩
    rw [List.mem_singleton.1 hline]
    decide

namespace Expectations

/-- What is collected from lines none of which ends the collecting. -/
def addLines (e : Expectations) (first : Nat) : List String → Expectations
  | [] => e
  | line :: lines => (e.add first (Statement.ofLine line)).addLines (first + 1) lines

theorem collect_ok {lines : List String}
    (hlines : ∀ line ∈ lines, Statement.ofLine line ≠ .exclusion) (e : Expectations)
    (first : Nat) :
    e.collect first (lines.map .ok) = (e.addLines first lines, .ok true) := by
  induction lines generalizing e first with
  | nil => rfl
  | cons line lines ih =>
    obtain ⟨hline, hlines⟩ := List.forall_mem_cons.1 hlines
    rw [List.map_cons, addLines, ← ih hlines, collect.eq_def]
    dsimp only
    split
    · contradiction
    · rfl

theorem addLines_append (e : Expectations) (first : Nat) (lines later : List String) :
    e.addLines first (lines ++ later) =
      (e.addLines first lines).addLines (first + lines.length) later := by
  induction lines generalizing e first with
  | nil => rfl
  | cons line lines ih =>
    rw [List.cons_append, addLines, ih, addLines, List.length_cons, Nat.add_assoc, Nat.add_comm 1]

theorem addLines_of_isUnmarked {lines : List String} (hlines : ∀ line ∈ lines, IsUnmarked line)
    (e : Expectations) (first : Nat) : e.addLines first lines = e := by
  induction lines generalizing first with
  | nil => rfl
  | cons line lines ih =>
    obtain ⟨hline, hlines⟩ := List.forall_mem_cons.1 hlines
    rw [addLines, Statement.ofLine_of_isUnmarked hline]
    exact ih hlines _

/-- The expectations are exactly the given lines of output and errors. -/
structure States (outputs : List String) (errors : List LexicalError) (e : Expectations) :
    Prop where
  map_text : e.outputs.map ExpectedOutput.text = outputs
  mem_errorSet : ∀ text, text ∈ e.errorSet ↔ text ∈ errors.map LexicalError.display
  code : e.exitCode = if errors = [] then 0 else malformedCode

theorem states_empty : empty.States [] [] where
  map_text := rfl
  mem_errorSet text := by simp [empty]
  code := rfl

section States

variable {outputs : List String} {errors : List LexicalError} {e : Expectations}

theorem States.addOutput (h : e.States outputs errors) (line : Nat) (text : String) :
    (e.addOutput line text).States (outputs ++ [text]) errors where
  map_text := by
    rw [Expectations.addOutput, List.map_append, h.map_text]
    rfl
  mem_errorSet := h.mem_errorSet
  code := h.code

theorem States.addError (h : e.States outputs errors) (error : LexicalError) :
    (e.addError (Mark.lineMessage error)).States outputs (errors ++ [error]) where
  map_text := h.map_text
  mem_errorSet text := by
    rw [Expectations.addError, OrderedSet.mem_insert, h.mem_errorSet, Mark.display_lineMessage,
      List.map_append, List.mem_append, List.map_singleton, List.mem_singleton, or_comm]
  code := by
    rw [if_neg (List.append_ne_nil_of_right_ne_nil _ (List.cons_ne_nil _ _))]
    rfl

theorem States.addLines_outputs (h : e.States outputs errors) (first : Nat) {texts : List String}
    (htexts : ∀ text ∈ texts, IsExpectable text) :
    (e.addLines first (texts.map outputLine)).States (outputs ++ texts) errors := by
  induction texts generalizing e first outputs with
  | nil => rwa [List.append_nil]
  | cons text texts ih =>
    obtain ⟨htext, htexts⟩ := List.forall_mem_cons.1 htexts
    rw [List.map_cons, addLines, Statement.ofLine_outputLine htext, List.append_cons]
    exact ih (h.addOutput first text) (first + 1) htexts

theorem States.addLines_errors (h : e.States outputs errors) (first : Nat)
    (later : List LexicalError) :
    (e.addLines first (later.map errorLine)).States outputs (errors ++ later) := by
  induction later generalizing e first errors with
  | nil => rwa [List.append_nil]
  | cons error later ih =>
    rw [List.map_cons, addLines, Statement.ofLine_errorLine, List.append_cons]
    exact ih (h.addError error) (first + 1)

end States

/-- An annotated file is a test, and its expectations are those of the annotations. -/
theorem exists_ofFile_annotated {source : String} {outputs : List String}
    (errors : List LexicalError) (hsource : '\r' ∉ source.toList)
    (hlines : ∀ line ∈ Split.lines source, IsUnmarked line)
    (houtputs : ∀ text ∈ outputs, IsExpectable text) :
    ∃ e : Expectations, e.States outputs errors ∧
      ofFile (.ok (Utf8.encode (annotated source outputs errors))) = (e, .ok true) := by
  have hfields := isUnmarked_of_mem_fieldsOf hsource hlines
  have hcollect : ∀ line ∈ Split.lines (annotated source outputs errors),
      Statement.ofLine line ≠ .exclusion := by
    rw [lines_annotated errors hsource houtputs, annotations]
    simp only [List.forall_mem_append, List.forall_mem_map]
    refine ⟨fun line hline ↦ ?_, fun text htext ↦ ?_, fun error _ ↦ ?_⟩
    · rw [Statement.ofLine_of_isUnmarked (hfields _ (List.mem_map_of_mem hline))]
      exact Statement.noConfusion
    · rw [Statement.ofLine_outputLine (houtputs text htext)]
      exact Statement.noConfusion
    · rw [Statement.ofLine_errorLine]
      exact Statement.noConfusion
  refine ⟨empty.addLines 1 (Split.lines (annotated source outputs errors)), ?_, ?_⟩
  · rw [lines_annotated errors hsource houtputs, annotations, addLines_append, addLines_append,
      addLines_of_isUnmarked hfields]
    exact (states_empty.addLines_outputs _ houtputs).addLines_errors _ _
  · rw [ofFile, Feed.entries_ofBytes_encode, collect_ok hcollect]

end Expectations

end LoxScan.Suite
