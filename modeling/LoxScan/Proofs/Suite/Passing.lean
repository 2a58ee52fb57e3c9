import LoxScan.Proofs.Suite.Collecting
import LoxScan.Proofs.Suite.Judgement

/-!
# Tests that can be passed

Whatever a file expects was read from single lines, so a program can write all of it line by line.
It passes with that if every error is recognised as itself.  The only errors that are not are those
in which nothing follows the word for an error: no line reports them, so no program passes.
-/

namespace LoxScan.Suite

open Mark Text

/-- What can be read from a line: an output that stays in its line, or an error that can be read
back from what it is displayed as. -/
inductive IsLegible : Expectation → Prop where
  | output {expected : ExpectedOutput} (htext : '\n' ∉ expected.text.toList) :
      IsLegible (.output expected)
  | error {m : LineMessage} (hm : IsReadable m) : IsLegible (.error m.display)

theorem CountsFor.isLegible {number : Nat} {line : String} {item : Expectation}
    (h : CountsFor number line (some item)) : IsLegible item := by
  cases h with
  | output houtput =>
    obtain ⟨front, later, -, ⟨shown, rest, hshown, -, -, rfl⟩, -⟩ := houtput
    apply IsLegible.output
    rw [String.toList_ofList]
    exact fun hmem ↦ hshown ((withoutSpace_suffix shown).mem hmem)
  | errorAt _ herrorAt =>
    obtain ⟨front, later, -, ⟨rest, hm, -, -⟩, -⟩ := herrorAt
    exact .error hm
  | errorHere _ _ herror =>
    obtain ⟨front, later, -, ⟨rest, hmessage, -, -⟩, -⟩ := herror
    exact .error (isReadable_of_isMessage number hmessage)

theorem Statement.isLegible_of_expectation? {line : String} {number : Nat} {item : Expectation}
    (h : (ofLine line).expectation? number = some item) : IsLegible item := by
  have hline : ofLine line ≠ exclusion := by
    intro hexclusion
    rw [hexclusion] at h
    cases h
  exact ((countsFor_iff hline).2 h.symm).isLegible

theorem Mark.IsReadable.newline_not_mem_display {m : LineMessage} (hm : IsReadable m) :
    '\n' ∉ m.display.toList := by
  have hnumber : '\n' ∉ m.number.toList := fun hmem ↦
    absurd (hm.digits _ hmem) (by decide)
  exact not_mem_toList_display (by decide) hnumber hm.line

namespace Expectations

/-- Expectations that a program can be seen to meet line by line. -/
structure Legible (e : Expectations) : Prop where
  outputs : ∀ expected ∈ e.outputs, '\n' ∉ expected.text.toList
  errors : ∀ error ∈ e.errorSet, ∃ m, IsReadable m ∧ error = m.display
  exitCode : ∃ code : UInt8, e.exitCode = code.toNat

theorem Collected.legible {items : List (Option Expectation)} {e : Expectations}
    (h : e.Collected items) (hitems : ∀ item, some item ∈ items → IsLegible item) : e.Legible where
  outputs expected hexpected := by
    rw [h.outputs, List.mem_filterMap] at hexpected
    obtain ⟨item, hitem, heq⟩ := hexpected
    match item, heq with
    | some (.output _), rfl =>
      cases hitems _ hitem with
      | output htext => exact htext
  errors error herror := by
    cases hitems _ ((h.mem_errorSet error).1 herror) with
    | error hm => exact ⟨_, hm, rfl⟩
  exitCode := by
    rw [h.exitCode]
    split
    · exact ⟨0, rfl⟩
    · exact ⟨65, rfl⟩

theorem legible_ofFile (bytes : List UInt8) : (ofFile (.ok bytes)).1.Legible := by
  obtain ⟨taken, left, -, -, hcollected, -⟩ := exists_collected_ofFile bytes
  apply hcollected.legible
  intro item hitem
  obtain ⟨line, -, hline⟩ := List.mem_map.1 hitem
  exact Statement.isLegible_of_expectation? hline

end Expectations

/-- An error with a line number and the word for an error, and nothing behind it. -/
def IsBare (error : String) : Prop :=
  ∃ number : String, number ≠ "" ∧ (∀ c ∈ number.toList, DecimalDigit.isDecimalDigit c) ∧
    error = "[line " ++ number ++ "] Error"

theorem isMessage_error : IsMessage "Error" := ⟨List.prefix_rfl, by decide⟩

theorem display_error (number : String) :
    LineMessage.display ⟨number, "Error"⟩ = "[line " ++ number ++ "] Error" := by
  rw [LineMessage.display, String.append_assoc]
  rfl

theorem Mark.IsReadable.isBare_display_iff {m : LineMessage} (hm : IsReadable m) :
    IsBare m.display ↔ m.message = "Error" := by
  constructor
  · rintro ⟨number, hne, hdigits, hdisplay⟩
    have hbare : IsReadable ⟨number, "Error"⟩ :=
      ⟨by simpa using hne, hdigits, isMessage_error.word, isMessage_error.line⟩
    rw [← display_error] at hdisplay
    rw [hm.eq_of_display_eq hbare hdisplay]
  · intro hmessage
    refine ⟨m.number, ?_, hm.digits, ?_⟩
    · simpa using hm.number_ne_nil
    · rw [← display_error, ← hmessage]

namespace Expectations.Legible

variable {e : Expectations}

/-- No line reports a bare error. -/
theorem not_isBare_of_reported? (he : e.Legible) {error line : String}
    (herror : error ∈ e.errorSet) (hline : Verdict.reported? line = some error) :
    ¬ IsBare error := by
  obtain ⟨m, hm, rfl⟩ := he.errors error herror
  rw [hm.isBare_display_iff]
  exact hm.message_ne_of_reported? hline

theorem reported?_iff (he : e.Legible) {error : String} (herror : error ∈ e.errorSet) :
    Verdict.reported? error = some error ↔ ¬ IsBare error := by
  refine ⟨he.not_isBare_of_reported? herror, fun hbare ↦ ?_⟩
  obtain ⟨m, hm, rfl⟩ := he.errors error herror
  exact hm.reported?_display (mt hm.isBare_display_iff.2 hbare)

end Expectations.Legible

/-- Lines as a program writes them.  With a carriage return in each ending, those that the lines
have themselves are kept. -/
def written (lines : List String) : List UInt8 :=
  Utf8.encode (String.join (lines.map (· ++ "\r\n")))

theorem linesOf_written {lines : List String} (hlines : ∀ line ∈ lines, '\n' ∉ line.toList) :
    Verdict.linesOf (written lines) = lines := by
  rw [written, Verdict.linesOf_encode, Split.lines_join_pair hlines]

/-- What a program leaves that writes what is expected and nothing else. -/
def Expectations.fulfilment (e : Expectations) : Outcome :=
  ⟨written (e.outputs.map ExpectedOutput.text), written e.errors, some e.exitCode⟩

theorem Expectations.Legible.failures_fulfilment {e : Expectations} (he : e.Legible)
    (hreported : ∀ error ∈ e.errorSet, Verdict.reported? error = some error) :
    Verdict.failures e e.fulfilment = [] := by
  have herrors : Verdict.linesOf e.fulfilment.stderr = e.errors := by
    refine linesOf_written fun error herror ↦ ?_
    obtain ⟨m, hm, rfl⟩ := he.errors error herror
    exact hm.newline_not_mem_display
  have houtputs : Verdict.linesOf e.fulfilment.stdout = e.outputs.map ExpectedOutput.text := by
    apply linesOf_written
    rw [List.forall_mem_map]
    exact he.outputs
  rw [Verdict.failures_eq_nil_iff, herrors, houtputs]
  refine ⟨Verdict.unexpectedLines_of_reported hreported fun error herror ↦ herror,
    fun error ↦ Verdict.carries_of_reported hreported, rfl, rfl⟩

/-- A file can be passed iff no error that it expects is bare.  The bare ones are those that are not
recognised as themselves. -/
theorem exists_passing_iff (bytes : List UInt8) (binary : String) :
    let e := (Expectations.ofFile (.ok bytes)).1
    ((∃ (stdout stderr : List UInt8) (code : UInt8),
        Verdict.ofRun e binary (.ok ⟨stdout, stderr, some code.toNat⟩) = []) ↔
      ∀ error ∈ e.errors, ¬ IsBare error) ∧
      ∀ error ∈ e.errors, Verdict.reported? error = some error ↔ ¬ IsBare error := by
  intro e
  have he : e.Legible := Expectations.legible_ofFile bytes
  refine ⟨⟨?_, fun hbare ↦ ?_⟩, fun error herror ↦ he.reported?_iff herror⟩
  · rintro ⟨stdout, stderr, code, hpasses⟩ error herror
    have hcarries := (Verdict.failures_eq_nil_iff.1 hpasses).2.1
    obtain ⟨line, -, hline⟩ := (hcarries error).2 herror
    exact he.not_isBare_of_reported? herror hline
  · obtain ⟨code, hcode⟩ := he.exitCode
    refine ⟨e.fulfilment.stdout, e.fulfilment.stderr, code, ?_⟩
    rw [← hcode]
    exact he.failures_fulfilment fun error herror ↦ (he.reported?_iff herror).2 (hbare error herror)

/-- A comment with the word for an error alone makes a test that no program passes. -/
theorem not_passable_bare_comment :
    ∃ e, Expectations.ofFile (.ok (Utf8.encode "// Error\n")) = (e, .ok true) ∧
      e.errors = ["[line 1] Error"] ∧ Verdict.reported? "[line 1] Error" = none ∧
      ∀ binary outcome, Verdict.ofRun e binary (.ok outcome) ≠ [] := by
  have hlines : Split.lines "// Error\n" = ["// Error"] := by decide +kernel
  have hline : Statement.ofLine "// Error" = .errorHere "Error" := by decide +kernel
  have hfile : Expectations.ofFile (.ok (Utf8.encode "// Error\n")) =
      (Expectations.empty.addError ⟨"1", "Error"⟩, .ok true) := by
    rw [Expectations.ofFile, Feed.entries_ofBytes_encode, hlines, Expectations.collect_ok]
    · rw [Expectations.addLines, hline]
      rfl
    · simp [hline]
  have hbare : IsReadable ⟨"1", "Error"⟩ := isReadable_of_isMessage 1 isMessage_error
  refine ⟨_, hfile, by decide +kernel, by decide +kernel, fun binary outcome hpasses ↦ ?_⟩
  have hcarries := (Verdict.failures_eq_nil_iff.1 hpasses).2.1
  obtain ⟨line, -, hline⟩ := (hcarries (LineMessage.display ⟨"1", "Error"⟩)).2 (by decide +kernel)
  exact hbare.message_ne_of_reported? hline rfl

end LoxScan.Suite
