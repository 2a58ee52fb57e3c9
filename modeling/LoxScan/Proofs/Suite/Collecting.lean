import Mathlib.Data.List.Forall2
import LoxScan.Proofs.Stream.ByteLines
import LoxScan.Proofs.Suite.Annotation

/-!
# What is collected from a file

Every line of a test file counts for at most one expectation, and which one is decided by the marks
that occur in it.  The expectations of a file are those of the lines before the first one that is
not text or that takes the file out, whichever way the collecting ends.
-/

namespace LoxScan.Suite

open Mark Text
open Feed (FallsInto)

inductive Expectation where
  | output (expected : ExpectedOutput)
  | error (text : String)
deriving DecidableEq, Repr

/-- What a line with a number counts for.  A line of output comes before errors, and an error with
a line number of its own before one on the line itself. -/
inductive CountsFor (number : Nat) (line : String) : Option Expectation → Prop where
  | output {text : String} (houtput : OccursFirst OutputForm line.toList text) :
      CountsFor number line (some (.output ⟨number, text⟩))
  | errorAt {m : LineMessage} (houtput : ¬ Occurs OutputForm line.toList)
      (herrorAt : OccursFirst ErrorAtForm line.toList m) :
      CountsFor number line (some (.error m.display))
  | errorHere {message : String} (houtput : ¬ Occurs OutputForm line.toList)
      (herrorAt : ¬ Occurs ErrorAtForm line.toList)
      (herror : OccursFirst ErrorForm line.toList message) :
      CountsFor number line (some (.error (LineMessage.display ⟨toString number, message⟩)))
  | nothing (houtput : ¬ Occurs OutputForm line.toList)
      (herrorAt : ¬ Occurs ErrorAtForm line.toList) (herror : ¬ Occurs ErrorForm line.toList) :
      CountsFor number line none

namespace Statement

def expectation? (number : Nat) : Statement → Option Expectation
  | .output text => some (.output ⟨number, text⟩)
  | .errorAt m => some (.error m.display)
  | .errorHere message => some (.error (LineMessage.display ⟨toString number, message⟩))
  | .exclusion => none
  | .nothing => none

theorem ofLine_eq_exclusion_iff {line : String} :
    ofLine line = exclusion ↔ "// nontest".toList <:+: line.toList := by
  rw [← not_iff_not, ← exclusion?_eq_none_iff, ofLine]
  cases exclusion? line with
  | some found => simp
  | none =>
    simp only [Option.isSome_none, Bool.false_eq_true, if_false, iff_true]
    repeat' split
    all_goals exact Statement.noConfusion

/-- A line that does not take the file out counts for what is read in it, and for nothing else. -/
theorem countsFor_iff {line : String} (hline : ofLine line ≠ exclusion) {number : Nat}
    {item : Option Expectation} :
    CountsFor number line item ↔ item = (ofLine line).expectation? number := by
  have hexclusion : exclusion? line = none :=
    exclusion?_eq_none_iff.2 (mt ofLine_eq_exclusion_iff.2 hline)
  rw [ofLine, hexclusion, expectedOutput?, expectedErrorAt?, expectedError?]
  constructor
  · intro h
    cases h with
    | output houtput =>
      obtain ⟨whole, hfound⟩ := readsForm_output.exists_leftmost?_eq houtput
      rw [hfound]
      rfl
    | errorAt houtput herrorAt =>
      obtain ⟨whole, hfound⟩ := readsForm_errorAt.exists_leftmost?_eq herrorAt
      rw [readsForm_output.leftmost?_eq_none_iff.2 houtput, hfound]
      rfl
    | errorHere houtput herrorAt herror =>
      obtain ⟨whole, hfound⟩ := readsForm_error.exists_leftmost?_eq herror
      rw [readsForm_output.leftmost?_eq_none_iff.2 houtput,
        readsForm_errorAt.leftmost?_eq_none_iff.2 herrorAt, hfound]
      rfl
    | nothing houtput herrorAt herror =>
      rw [readsForm_output.leftmost?_eq_none_iff.2 houtput,
        readsForm_errorAt.leftmost?_eq_none_iff.2 herrorAt,
        readsForm_error.leftmost?_eq_none_iff.2 herror]
      rfl
  · rintro rfl
    cases houtput : leftmost? readOutput line.toList with
    | some found => exact .output (readsForm_output.occursFirst houtput)
    | none =>
      replace houtput := readsForm_output.leftmost?_eq_none_iff.1 houtput
      cases herrorAt : leftmost? readErrorAt line.toList with
      | some found => exact .errorAt houtput (readsForm_errorAt.occursFirst herrorAt)
      | none =>
        replace herrorAt := readsForm_errorAt.leftmost?_eq_none_iff.1 herrorAt
        cases herror : leftmost? readError line.toList with
        | some found => exact .errorHere houtput herrorAt (readsForm_error.occursFirst herror)
        | none => exact .nothing houtput herrorAt (readsForm_error.leftmost?_eq_none_iff.1 herror)

end Statement

def Expectation.output? : Option Expectation → Option ExpectedOutput
  | some (.output expected) => some expected
  | _ => none

namespace Expectations

/-- The collected expectations are those that consecutive lines count for, from the first line of
the file on. -/
structure Collected (items : List (Option Expectation)) (e : Expectations) : Prop where
  outputs : e.outputs = items.filterMap Expectation.output?
  mem_errorSet : ∀ text, text ∈ e.errorSet ↔ some (.error text) ∈ items
  count : e.count = UInt32.ofNat (items.countP Option.isSome)
  exitCode : e.exitCode = if e.errors = [] then 0 else 65
  line_le : ∀ expected ∈ e.outputs, expected.line ≤ items.length
  ascending : e.outputs.Pairwise (·.line < ·.line)
  length_le : e.outputs.length + e.errors.length ≤ items.countP Option.isSome

theorem collected_empty : Collected [] empty where
  outputs := rfl
  mem_errorSet text := by simp [empty]
  count := rfl
  exitCode := rfl
  line_le := List.forall_mem_nil _
  ascending := .nil
  length_le := Nat.le_refl 0

theorem errors_addError_ne_nil (e : Expectations) (m : LineMessage) : (e.addError m).errors ≠ [] :=
  List.ne_nil_of_mem (OrderedSet.mem_insert.2 (.inl rfl))

section Collected

variable {items : List (Option Expectation)} {e : Expectations}

theorem Collected.addNothing (h : e.Collected items) : e.Collected (items ++ [none]) where
  outputs := by simp [h.outputs, Expectation.output?]
  mem_errorSet text := by simp [h.mem_errorSet]
  count := by simp [h.count]
  exitCode := h.exitCode
  line_le expected hmem := by
    rw [List.length_append]
    exact Nat.le_add_right_of_le (h.line_le expected hmem)
  ascending := h.ascending
  length_le := by simp [h.length_le]

theorem Collected.addOutput (h : e.Collected items) (text : String) :
    (e.addOutput (items.length + 1) text).Collected
      (items ++ [some (.output ⟨items.length + 1, text⟩)]) where
  outputs := by simp [Expectations.addOutput, h.outputs, Expectation.output?]
  mem_errorSet other := by simp [Expectations.addOutput, h.mem_errorSet]
  count := by
    rw [List.countP_append, UInt32.ofNat_add, ← h.count]
    rfl
  exitCode := h.exitCode
  line_le expected hmem := by
    rw [List.length_append]
    rcases List.mem_append.1 hmem with hmem | hmem
    · exact Nat.le_add_right_of_le (h.line_le expected hmem)
    · rw [List.mem_singleton.1 hmem]
      exact Nat.le_refl _
  ascending := by
    refine List.pairwise_append.2
      ⟨h.ascending, List.pairwise_singleton _ _, fun earlier hmem _ hlast ↦ ?_⟩
    rw [List.mem_singleton.1 hlast]
    exact Nat.lt_succ_of_le (h.line_le earlier hmem)
  length_le := by
    have hlength := h.length_le
    simp only [Expectations.addOutput, Expectations.errors, List.length_append,
      List.length_singleton, List.countP_append, List.countP_singleton, Option.isSome_some,
      if_true] at hlength ⊢
    omega

theorem Collected.addError (h : e.Collected items) (m : LineMessage) :
    (e.addError m).Collected (items ++ [some (.error m.display)]) where
  outputs := by simp [Expectations.addError, h.outputs, Expectation.output?]
  mem_errorSet other := by simp [Expectations.addError, h.mem_errorSet, or_comm]
  count := by
    rw [List.countP_append, UInt32.ofNat_add, ← h.count]
    rfl
  exitCode := (if_neg (errors_addError_ne_nil e m)).symm
  line_le expected hmem := by
    rw [List.length_append]
    exact Nat.le_add_right_of_le (h.line_le expected hmem)
  ascending := h.ascending
  length_le := by
    have hlength := h.length_le
    have hplace := OrderedSet.length_place_le m.display e.errorSet.toList
    simp only [Expectations.addError, Expectations.errors, OrderedSet.insert, List.countP_append,
      List.countP_singleton, Option.isSome_some, if_true] at hlength ⊢
    omega

theorem Collected.add (h : e.Collected items) (statement : Statement) :
    (e.add (items.length + 1) statement).Collected
      (items ++ [statement.expectation? (items.length + 1)]) := by
  cases statement with
  | output text => exact h.addOutput text
  | errorAt m => exact h.addError m
  | errorHere message => exact h.addError _
  | exclusion => exact h.addNothing
  | nothing => exact h.addNothing

/-- What each of some lines counts for. -/
def itemsOf (lines : List (String × Nat)) : List (Option Expectation) :=
  lines.map fun (line, number) ↦ (Statement.ofLine line).expectation? number

theorem Collected.addLines (h : e.Collected items) (lines : List String) :
    (e.addLines (items.length + 1) lines).Collected
      (items ++ itemsOf (lines.zipIdx (items.length + 1))) := by
  induction lines generalizing e items with
  | nil =>
    rw [List.zipIdx_nil, itemsOf, List.map_nil, List.append_nil]
    exact h
  | cons line lines ih =>
    have hnext := ih (h.add (Statement.ofLine line))
    rw [List.length_append, List.append_assoc] at hnext
    rw [List.zipIdx_cons]
    exact hnext

end Collected

/-- Collecting ends with the file, at a line that encodes no text, or at one that takes the file
out. -/
inductive EndsAt : List (List UInt8) → Except IoError Bool → Prop where
  | finished : EndsAt [] (.ok true)
  | undecodable {line : List UInt8} {later : List (List UInt8)}
      (hline : ∀ text, Utf8.encode text ≠ line) : EndsAt (line :: later) (.error .invalidUtf8)
  | excluded {text : String} {later : List (List UInt8)}
      (htext : "// nontest".toList <:+: text.toList) :
      EndsAt (Utf8.encode text :: later) (.ok false)

theorem exists_collect_eq (e : Expectations) (first : Nat) (lines : List (List UInt8)) :
    ∃ taken left, lines = taken.map Utf8.encode ++ left ∧
      (∀ text ∈ taken, Statement.ofLine text ≠ .exclusion) ∧
      (e.collect first (lines.map Feed.decodeLine)).1 = e.addLines first taken ∧
      EndsAt left (e.collect first (lines.map Feed.decodeLine)).2 := by
  induction lines generalizing e first with
  | nil => exact ⟨[], [], rfl, List.forall_mem_nil _, rfl, .finished⟩
  | cons line lines ih =>
    rw [List.map_cons, Feed.decodeLine]
    cases hdecode : Utf8.decode? line with
    | none =>
      refine ⟨[], line :: lines, rfl, List.forall_mem_nil _, rfl, .undecodable fun text heq ↦ ?_⟩
      rw [Utf8.decode?_eq_some_iff.2 heq] at hdecode
      cases hdecode
    | some text =>
      obtain rfl := Utf8.decode?_eq_some_iff.1 hdecode
      by_cases hexclusion : Statement.ofLine text = .exclusion
      · refine ⟨[], Utf8.encode text :: lines, rfl, List.forall_mem_nil _, ?_, ?_⟩
        · simp [collect, hexclusion, addLines]
        · have hresult : EndsAt (Utf8.encode text :: lines) (.ok false) :=
            .excluded (Statement.ofLine_eq_exclusion_iff.1 hexclusion)
          simpa [collect, hexclusion] using hresult
      · obtain ⟨taken, left, hlines, htaken, hcollect, hends⟩ :=
          ih (e.add first (Statement.ofLine text)) (first + 1)
        have hstep : e.collect first (.ok text :: lines.map Feed.decodeLine) =
            (e.add first (Statement.ofLine text)).collect (first + 1)
              (lines.map Feed.decodeLine) := by
          rw [collect.eq_def]
          dsimp only
          split
          · contradiction
          · rfl
        rw [hstep]
        exact ⟨text :: taken, left, by rw [hlines]; rfl,
          List.forall_mem_cons.2 ⟨hexclusion, htaken⟩, hcollect, hends⟩

/-- A file is collected from the lines in front of the one at which the collecting ends. -/
theorem exists_collected_ofFile (bytes : List UInt8) :
    ∃ (taken : List String) (left : List (List UInt8)),
      FallsInto bytes (taken.map Utf8.encode ++ left) ∧
      (∀ line ∈ taken, Statement.ofLine line ≠ .exclusion) ∧
      (ofFile (.ok bytes)).1.Collected (itemsOf (taken.zipIdx 1)) ∧
      EndsAt left (ofFile (.ok bytes)).2 := by
  obtain ⟨lines, hlines⟩ := Feed.exists_fallsInto bytes
  obtain ⟨taken, left, rfl, htaken, hcollect, hends⟩ := exists_collect_eq empty 1 lines
  rw [← hlines.entries_eq] at hcollect hends
  refine ⟨taken, left, hlines, htaken, ?_, hends⟩
  rw [ofFile, hcollect]
  exact collected_empty.addLines taken

end Expectations

end LoxScan.Suite
