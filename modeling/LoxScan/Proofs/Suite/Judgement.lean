import Mathlib.Data.List.Basic
import Mathlib.Data.List.Induction
import Mathlib.Data.List.Nodup
import LoxScan.Proofs.Stream.TextLines
import LoxScan.Proofs.Text.ByteOrder
import LoxScan.Suite.Verdict

/-!
# What a verdict says

A verdict lists the ways in which the outcome of a program differs from what a test expects: the
unexpected lines of the error stream up to a number and a count of the others, the expected errors
that are missing there, the exit code, and the output index by index.  It is empty iff the outcome
is the expected one.
-/

namespace LoxScan.Suite.Verdict

open Text (OrderedSet)
open Text.Utf8 (encode)

/-- A line is unexpected if the first error that can be read in it is not an expected one, or if
none can be read and the line is not empty. -/
def IsUnexpected (expected : OrderedSet) (line : String) : Prop :=
  match Mark.diagnostic? line with
  | some found => found.value.display ∉ expected
  | none => line ≠ ""

instance (expected : OrderedSet) : DecidablePred (IsUnexpected expected) := fun line ↦
  match h : Mark.diagnostic? line with
  | some found => decidable_of_iff (found.value.display ∉ expected) (by rw [IsUnexpected, h])
  | none => decidable_of_iff (line ≠ "") (by rw [IsUnexpected, h])

/-- The lines that are shown of some unexpected ones: those in front of which the count, which
goes around after 2^31 - 1, is below ten. -/
def shownOf (lines : List String) : List String :=
  (lines.zipIdx.filter fun (_, number) ↦ Int32.ofNat number < shownLines).map Prod.fst

theorem shownOf_concat (lines : List String) (line : String) :
    shownOf (lines ++ [line]) =
      shownOf lines ++ if Int32.ofNat lines.length < shownLines then [line] else [] := by
  rw [shownOf, List.zipIdx_append, List.filter_append, List.map_append, Nat.zero_add,
    List.zipIdx_singleton, List.filter_singleton]
  by_cases hfew : Int32.ofNat lines.length < shownLines <;> simp [shownOf, hfew]

theorem ofNat_lt_shownLines_iff {n : Nat} (hn : n < 2147483648) :
    Int32.ofNat n < shownLines ↔ n < 10 := by
  rw [Int32.lt_iff_toInt_lt, Int32.toInt_ofNat_of_lt hn]
  exact Int.ofNat_lt

/-- As long as the count has not gone around, the first ten lines are shown. -/
theorem shownOf_eq_take {lines : List String} (hlines : lines.length ≤ 2147483648) :
    shownOf lines = lines.take 10 := by
  induction lines using List.reverseRecOn with
  | nil => rfl
  | append_singleton lines line ih =>
    rw [List.length_append, List.length_singleton] at hlines
    rw [shownOf_concat, ih (Nat.le_of_succ_le hlines)]
    by_cases hfew : lines.length < 10
    · rw [if_pos ((ofNat_lt_shownLines_iff hlines).2 hfew),
        List.take_of_length_le (Nat.le_of_lt hfew),
        List.take_of_length_le (by rw [List.length_append]; exact hfew)]
    · rw [if_neg (mt (ofNat_lt_shownLines_iff hlines).1 hfew), List.append_nil,
        List.take_append_of_le_length (Nat.le_of_not_lt hfew)]

theorem shownOf_eq_nil_iff {lines : List String} : shownOf lines = [] ↔ lines = [] := by
  constructor
  · intro hshown
    cases lines with
    | nil => rfl
    | cons line lines =>
      have hfirst : Int32.ofNat 0 < shownLines := by decide
      rw [shownOf, List.zipIdx_cons, List.filter_cons] at hshown
      dsimp only at hshown
      rw [if_pos (decide_eq_true hfirst)] at hshown
      cases hshown
  · rintro rfl
    rfl

/-- How an unexpected line is shown. -/
def complaint (line : String) : Failure :=
  if (Mark.diagnostic? line).isSome then .unexpectedError line else .unexpectedOutput line

/-- The unexpected ones among the lines of an error stream. -/
def unexpectedLines (expected : OrderedSet) (lines : List String) : List String :=
  lines.filter (IsUnexpected expected)

/-- A line of the error stream reports the error. -/
def Carries (lines : List String) (error : String) : Prop :=
  ∃ line ∈ lines, reported? line = some error

theorem carries_concat {lines : List String} {line error : String} :
    Carries (lines ++ [line]) error ↔ Carries lines error ∨ reported? line = some error := by
  simp [Carries, or_and_right, exists_or]

namespace ErrorCheck

/-- What a check knows after some lines. -/
structure Knows (expected : OrderedSet) (lines : List String) (c : ErrorCheck) : Prop where
  unexpected : c.unexpected = Int32.ofNat (unexpectedLines expected lines).length
  shown : c.shown = (shownOf (unexpectedLines expected lines)).map complaint
  found : ∀ error, error ∈ c.found ↔ error ∈ expected ∧ Carries lines error

theorem knows_start (expected : OrderedSet) : Knows expected [] start where
  unexpected := rfl
  shown := rfl
  found error := by simp [start, Carries]

end ErrorCheck

theorem unexpectedLines_concat_pos {expected : OrderedSet} {lines : List String} {line : String}
    (h : IsUnexpected expected line) :
    unexpectedLines expected (lines ++ [line]) = unexpectedLines expected lines ++ [line] := by
  simp [unexpectedLines, h]

theorem unexpectedLines_concat_neg {expected : OrderedSet} {lines : List String} {line : String}
    (h : ¬ IsUnexpected expected line) :
    unexpectedLines expected (lines ++ [line]) = unexpectedLines expected lines := by
  simp [unexpectedLines, h]

theorem not_mem_of_isUnexpected {expected : OrderedSet} {line error : String}
    (hline : IsUnexpected expected line) (herror : reported? line = some error) :
    error ∉ expected := by
  obtain ⟨mark, hmark, rfl⟩ := Option.map_eq_some_iff.1 herror
  rwa [IsUnexpected, hmark] at hline

theorem isUnexpected_of_not_mem {expected : OrderedSet} {line error : String}
    (hnot : error ∉ expected) (herror : reported? line = some error) :
    IsUnexpected expected line := by
  obtain ⟨mark, hmark, rfl⟩ := Option.map_eq_some_iff.1 herror
  rwa [IsUnexpected, hmark]

namespace ErrorCheck

variable {expected : OrderedSet} {lines : List String} {line : String} {c : ErrorCheck}

theorem read_of_isUnexpected (hline : IsUnexpected expected line) :
    c.read expected line = c.complain (complaint line) := by
  cases hmark : Mark.diagnostic? line with
  | some mark =>
    rw [IsUnexpected, hmark] at hline
    simp [read, reported?, complaint, hmark, hline]
  | none =>
    rw [IsUnexpected, hmark] at hline
    simp [read, reported?, complaint, hmark, hline]

/-- Any other line changes at most the set of errors found. -/
theorem read_of_not_isUnexpected (hline : ¬ IsUnexpected expected line) :
    (c.read expected line).unexpected = c.unexpected ∧
      (c.read expected line).shown = c.shown ∧
      ∀ error, error ∈ (c.read expected line).found ↔
        error ∈ c.found ∨ error ∈ expected ∧ reported? line = some error := by
  cases hmark : Mark.diagnostic? line with
  | some mark =>
    have hmem : mark.value.display ∈ expected := by
      rw [IsUnexpected, hmark] at hline
      exact not_not.1 hline
    have hreported : reported? line = some mark.value.display := by rw [reported?, hmark]; rfl
    simp only [read, hreported, if_pos hmem, OrderedSet.mem_insert, true_and]
    intro error
    constructor
    · rintro (rfl | hfound)
      · exact .inr ⟨hmem, rfl⟩
      · exact .inl hfound
    · rintro (hfound | ⟨-, heq⟩)
      · exact .inr hfound
      · exact .inl (Option.some_inj.1 heq).symm
  | none =>
    have hempty : line = "" := by
      rw [IsUnexpected, hmark] at hline
      exact not_not.1 hline
    have hreported : reported? line = none := by rw [reported?, hmark]; rfl
    simp only [read, hreported, if_pos hempty]
    simp

theorem Knows.read (hc : c.Knows expected lines) (line : String) :
    (c.read expected line).Knows expected (lines ++ [line]) := by
  by_cases hline : IsUnexpected expected line
  · rw [read_of_isUnexpected hline]
    refine ⟨?_, ?_, fun error ↦ ?_⟩
    · rw [unexpectedLines_concat_pos hline, List.length_append, Int32.ofNat_add, ← hc.unexpected]
      rfl
    · rw [unexpectedLines_concat_pos hline, shownOf_concat, List.map_append, ← hc.shown,
        ← hc.unexpected]
      simp only [complain]
      split
      · rfl
      · exact (List.append_nil _).symm
    · have hnot : error ∈ expected → reported? line ≠ some error := fun hexpected herror ↦
        not_mem_of_isUnexpected hline herror hexpected
      rw [carries_concat]
      refine (hc.found error).trans (and_congr_right fun hexpected ↦ ?_)
      rw [or_iff_left (hnot hexpected)]
  · obtain ⟨hunexpected, hshown, hfound⟩ := read_of_not_isUnexpected (c := c) hline
    refine ⟨?_, ?_, fun error ↦ ?_⟩
    · rw [hunexpected, unexpectedLines_concat_neg hline, hc.unexpected]
    · rw [hshown, unexpectedLines_concat_neg hline, hc.shown]
    · rw [hfound, hc.found, carries_concat, and_or_left]

theorem knows_foldl (expected : OrderedSet) (lines : List String) :
    (lines.foldl (ErrorCheck.read expected) start).Knows expected lines := by
  induction lines using List.reverseRecOn with
  | nil => exact knows_start expected
  | append_singleton lines line ih =>
    rw [List.foldl_concat]
    exact ih.read line

end ErrorCheck

/-- The expected errors that no line reports. -/
theorem mem_difference_found {expected : OrderedSet} {lines : List String} {error : String} :
    error ∈ expected.difference (lines.foldl (ErrorCheck.read expected) ErrorCheck.start).found ↔
      error ∈ expected ∧ ¬ Carries lines error := by
  rw [OrderedSet.mem_difference, (ErrorCheck.knows_foldl expected lines).found]
  tauto

/-- What is said of unexpected lines: those that are shown, and how many are not. -/
def complaintsOf (unexpected : List String) : List Failure :=
  (shownOf unexpected).map complaint ++
    if Int32.ofNat unexpected.length > shownLines then
      [.truncated (Int32.ofNat unexpected.length - shownLines)]
    else []

theorem complaintsOf_eq_nil_iff {unexpected : List String} :
    complaintsOf unexpected = [] ↔ unexpected = [] := by
  rw [complaintsOf, List.append_eq_nil_iff, List.map_eq_nil_iff, shownOf_eq_nil_iff,
    and_iff_left_iff_imp]
  rintro rfl
  exact if_neg (by decide)

theorem errorFailures_eq (expected : OrderedSet) (lines : List String) :
    ∃ missing : OrderedSet, (∀ error, error ∈ missing ↔ error ∈ expected ∧ ¬ Carries lines error) ∧
      errorFailures expected lines =
        complaintsOf (unexpectedLines expected lines) ++ missing.toList.map .missingError := by
  have hknows := ErrorCheck.knows_foldl expected lines
  refine ⟨_, fun _ ↦ mem_difference_found, ?_⟩
  rw [errorFailures, ErrorCheck.failures, hknows.shown, hknows.unexpected]
  rfl

theorem carries_of_reported {lines : List String} {error : String}
    (hlines : ∀ line ∈ lines, reported? line = some line) :
    Carries lines error ↔ error ∈ lines := by
  constructor
  · rintro ⟨line, hline, herror⟩
    rw [hlines line hline, Option.some_inj] at herror
    rwa [← herror]
  · exact fun herror ↦ ⟨error, herror, hlines error herror⟩

theorem unexpectedLines_of_reported {expected : OrderedSet} {lines : List String}
    (hlines : ∀ line ∈ lines, reported? line = some line)
    (hexpected : ∀ line ∈ lines, line ∈ expected) : unexpectedLines expected lines = [] := by
  rw [unexpectedLines, List.filter_eq_nil_iff]
  intro line hline hunexpected
  exact not_mem_of_isUnexpected (of_decide_eq_true hunexpected) (hlines line hline)
    (hexpected line hline)

/-! ## The output -/

theorem linesOf_encode (text : String) : linesOf (encode text) = Text.Split.lines text := by
  rw [linesOf, Text.Utf8.decodeLossy_encode]

/-- How the output differs at an index, by a line that is wrong, missing or surplus. -/
def differenceAt? (expected : List ExpectedOutput) (lines : List String) (index : Nat) :
    Option Failure :=
  match expected[index]?, lines[index]? with
  | some e, some line => if e.text = line then none else some (.wrongOutput e line)
  | some e, none => some (.missingOutput e)
  | none, some line => some (.surplusOutput line)
  | none, none => none

theorem filterMap_range_succ {α : Type} (f : Nat → Option α) (n : Nat) :
    (List.range (n + 1)).filterMap f =
      (f 0).toList ++ (List.range n).filterMap fun index ↦ f (index + 1) := by
  rw [List.range_succ_eq_map, List.filterMap_cons, List.filterMap_map]
  cases f 0 <;> rfl

theorem filterMap_range_getElem? {α β : Type} (f : α → β) (items : List α) :
    (List.range items.length).filterMap (fun index ↦ items[index]?.map f) = items.map f := by
  induction items with
  | nil => rfl
  | cons item items ih =>
    rw [List.length_cons, filterMap_range_succ]
    simp only [List.getElem?_cons_zero, List.getElem?_cons_succ, ih]
    rfl

theorem outputFailures_eq (expected : List ExpectedOutput) (lines : List String) :
    outputFailures expected lines =
      (List.range (max lines.length expected.length)).filterMap (differenceAt? expected lines) := by
  fun_induction outputFailures expected lines with
  | case1 lines =>
    have hsurplus : differenceAt? [] lines = fun index ↦ lines[index]?.map .surplusOutput := by
      funext index
      rw [differenceAt?, List.getElem?_nil]
      cases lines[index]? <;> rfl
    rw [hsurplus, List.length_nil, Nat.max_zero, filterMap_range_getElem?]
  | case2 expected _ =>
    have hmissing : differenceAt? expected [] = fun index ↦
        expected[index]?.map .missingOutput := by
      funext index
      rw [differenceAt?, List.getElem?_nil]
      cases expected[index]? <;> rfl
    rw [hmissing, List.length_nil, Nat.zero_max, filterMap_range_getElem?]
  | case3 e rest line lines ih =>
    rw [List.length_cons, List.length_cons, Nat.succ_max_succ, filterMap_range_succ, ih]
    congr 1
    simp only [differenceAt?, List.getElem?_cons_zero]
    split <;> rfl

theorem outputFailures_eq_nil_iff {expected : List ExpectedOutput} {lines : List String} :
    outputFailures expected lines = [] ↔ lines = expected.map ExpectedOutput.text := by
  fun_induction outputFailures expected lines with
  | case1 lines => simp
  | case2 expected _ => exact List.map_eq_nil_iff.trans (List.map_eq_nil_iff.symm.trans eq_comm)
  | case3 e rest line lines ih =>
    rw [List.append_eq_nil_iff, ih, List.map_cons, List.cons.injEq]
    refine and_congr_left fun _ ↦ ?_
    split
    · next heq => simp [heq]
    · next hne => simp [Ne.symm hne]

/-! ## The whole verdict -/

theorem errorFailures_eq_nil_iff {expected : OrderedSet} {lines : List String} :
    errorFailures expected lines = [] ↔
      unexpectedLines expected lines = [] ∧ ∀ error, Carries lines error ↔ error ∈ expected := by
  obtain ⟨missing, hmissing, hfailures⟩ := errorFailures_eq expected lines
  have hnone : unexpectedLines expected lines = [] → ∀ error, Carries lines error →
      error ∈ expected := by
    rintro hnil error ⟨line, hline, herror⟩
    by_contra hnot
    have hmem : line ∈ unexpectedLines expected lines :=
      List.mem_filter.2 ⟨hline, decide_eq_true (isUnexpected_of_not_mem hnot herror)⟩
    rw [hnil] at hmem
    exact List.not_mem_nil hmem
  rw [hfailures, List.append_eq_nil_iff, complaintsOf_eq_nil_iff, List.map_eq_nil_iff,
    List.eq_nil_iff_forall_not_mem (l := missing.toList)]
  constructor
  · rintro ⟨hnil, hfound⟩
    refine ⟨hnil, fun error ↦ ⟨hnone hnil error, fun hexpected ↦ ?_⟩⟩
    by_contra hcarries
    exact hfound error ((hmissing error).2 ⟨hexpected, hcarries⟩)
  · rintro ⟨hnil, hfound⟩
    refine ⟨hnil, fun error hmem ↦ ?_⟩
    obtain ⟨hexpected, hcarries⟩ := (hmissing error).1 hmem
    exact hcarries ((hfound error).2 hexpected)

theorem codeFailures_eq_nil_iff {expected : Int} {actual : Option Int} :
    codeFailures expected actual = [] ↔ actual = some expected := by
  simp [codeFailures]

/-- What is expected in byte order. -/
theorem pairwise_encode (s : OrderedSet) : s.toList.Pairwise (encode · < encode ·) :=
  s.ascending.imp Text.Utf8.encode_lt_encode_iff.2

/-- There are no failures iff nothing is unexpected on the error stream, all expected errors are
there, and code and output are the expected ones. -/
theorem failures_eq_nil_iff {e : Expectations} {outcome : Outcome} :
    failures e outcome = [] ↔
      unexpectedLines e.errorSet (linesOf outcome.stderr) = [] ∧
        (∀ error, Carries (linesOf outcome.stderr) error ↔ error ∈ e.errorSet) ∧
        outcome.code = some e.exitCode ∧
        linesOf outcome.stdout = e.outputs.map ExpectedOutput.text := by
  rw [failures, List.append_eq_nil_iff, List.append_eq_nil_iff, errorFailures_eq_nil_iff,
    codeFailures_eq_nil_iff, outputFailures_eq_nil_iff, and_assoc, and_assoc]

/-- What is shown of an unexpected line. -/
theorem message_comp_complaint : Failure.message ∘ complaint = fun line ↦
    (if (Mark.diagnostic? line).isSome then "Unexpected error: "
      else "Unexpected output on stderr: ") ++ line := by
  funext line
  rw [Function.comp_apply, complaint]
  split <;> rfl

/-- The number of lines that are not shown. -/
theorem message_truncated {n : Nat} (hn : n < 2147483648) :
    (if Int32.ofNat n > shownLines then
        [Failure.truncated (Int32.ofNat n - shownLines)] else []).map Failure.message =
      if 10 < n then ["(truncated " ++ toString (n - 10) ++ " more...)"] else [] := by
  have hmany : Int32.ofNat n > shownLines ↔ 10 < n := by
    rw [gt_iff_lt, Int32.lt_iff_toInt_lt, Int32.toInt_ofNat_of_lt hn]
    exact Int.ofNat_lt
  by_cases h : 10 < n
  · have hrest : Int32.ofNat n - shownLines = Int32.ofNat (n - 10) := by
      rw [Int32.ofNat_sub n 10 (Nat.le_of_lt h)]
      rfl
    have hshow : toString (Int32.ofNat (n - 10)) = toString (n - 10) := by
      calc
        _ = toString (Int32.ofNat (n - 10)).toInt := rfl
        _ = toString ((n - 10 : Nat) : Int) := by
          rw [Int32.toInt_ofNat_of_lt (Nat.lt_of_le_of_lt (Nat.sub_le n 10) hn)]
        _ = _ := rfl
    rw [if_pos (hmany.2 h), if_pos h, hrest, List.map_singleton]
    exact congrArg (fun count ↦ ["(truncated " ++ count ++ " more...)"]) hshow
  · rw [if_neg (mt hmany.1 h), if_neg h, List.map_nil]

theorem message_complaintsOf {unexpected : List String} (h : unexpected.length < 2147483648) :
    (complaintsOf unexpected).map Failure.message =
      (unexpected.take 10).map (fun line ↦
          (if (Mark.diagnostic? line).isSome then "Unexpected error: "
            else "Unexpected output on stderr: ") ++ line) ++
        if 10 < unexpected.length then
          ["(truncated " ++ toString (unexpected.length - 10) ++ " more...)"] else [] := by
  rw [complaintsOf, List.map_append, message_truncated h, shownOf_eq_take (Nat.le_of_lt h),
    List.map_map, message_comp_complaint]

/-- What is said of the output at an index. -/
def outputMessage? (expected : List ExpectedOutput) (lines : List String) (index : Nat) :
    Option String :=
  match expected[index]?, lines[index]? with
  | some e, some line =>
    if e.text = line then none
    else some ("Expected output '" ++ e.text ++ "' on line " ++ toString e.line ++ " and got '" ++
      line ++ "'.")
  | some e, none =>
    some ("Missing expected output '" ++ e.text ++ "' on line " ++ toString e.line ++ ".")
  | none, some line => some ("Got output '" ++ line ++ "' when none was expected.")
  | none, none => none

theorem map_message_differenceAt? (expected : List ExpectedOutput) (lines : List String)
    (index : Nat) :
    (differenceAt? expected lines index).map Failure.message =
      outputMessage? expected lines index := by
  rw [differenceAt?, outputMessage?]
  cases expected[index]? <;> cases lines[index]? <;> dsimp only
  · rfl
  · rfl
  · rfl
  · split <;> rfl

/-- The messages of a test are, in this order, those for the unexpected lines, one for each missing
error in byte order, one for the exit code if it is not the expected one, and one for each index at
which the output differs.  As long as the unexpected lines are fewer than 2^31, the first ten of
them have a message each, and one message has the number of the others.  There are no messages iff
the program does what is expected, and a program that cannot be started has a message of its
own. -/
theorem failures_of_outcome (e : Expectations) (binary : String) (outcome : Outcome) :
    let errorLines := linesOf outcome.stderr
    let lines := linesOf outcome.stdout
    let unexpected := errorLines.filter (IsUnexpected e.errorSet)
    (∃ complaints missing : List String,
        (ofRun e binary (.ok outcome)).map Failure.message =
          complaints ++ missing.map ("Missing expected error: " ++ ·) ++
            (if outcome.code = some e.exitCode then [] else
              ["Expected return code " ++ toString e.exitCode ++ " and got " ++
                (match outcome.code with
                  | some code => "Some(" ++ toString code ++ ")"
                  | none => "None") ++ "."]) ++
            (List.range (max lines.length e.outputs.length)).filterMap
              (outputMessage? e.outputs lines) ∧
        (unexpected.length < 2147483648 → complaints =
          (unexpected.take 10).map (fun line ↦
              (if (Mark.diagnostic? line).isSome then "Unexpected error: "
                else "Unexpected output on stderr: ") ++ line) ++
            if 10 < unexpected.length then
              ["(truncated " ++ toString (unexpected.length - 10) ++ " more...)"] else []) ∧
        missing.Pairwise (encode · < encode ·) ∧
        ∀ error, error ∈ missing ↔ error ∈ e.errorSet ∧ ¬ Carries errorLines error) ∧
      (ofRun e binary (.ok outcome) = [] ↔
        unexpected.length = 0 ∧
          (∀ error, Carries errorLines error ↔ error ∈ e.errorSet) ∧
          outcome.code = some e.exitCode ∧
          lines = e.outputs.map ExpectedOutput.text) ∧
      ∀ error : IoError, (ofRun e binary (.error error)).map Failure.message =
        ["Failed to run " ++ binary ++ ": " ++ error.message] := by
  intro errorLines lines unexpected
  refine ⟨?_, ?_, fun error ↦ rfl⟩
  · obtain ⟨missing, hmissing, hfailures⟩ := errorFailures_eq e.errorSet errorLines
    have hcode : (codeFailures e.exitCode outcome.code).map Failure.message =
        if outcome.code = some e.exitCode then [] else
          ["Expected return code " ++ toString e.exitCode ++ " and got " ++
            Failure.showCode outcome.code ++ "."] := by
      rw [codeFailures]
      split <;> rfl
    refine ⟨(complaintsOf unexpected).map Failure.message, missing.toList, ?_,
      message_complaintsOf, pairwise_encode missing, hmissing⟩
    rw [ofRun, failures, hfailures, outputFailures_eq, List.map_append, List.map_append,
      List.map_append, hcode, List.map_filterMap, List.map_map,
      funext (map_message_differenceAt? e.outputs lines)]
    rfl
  · rw [ofRun, failures_eq_nil_iff, ← List.length_eq_zero_iff]
    rfl

/-- Twelve lines are unexpected, an error is missing, and code and output are wrong. -/
theorem failures_of_twelve_lines :
    let e : Expectations := ⟨[⟨3, "x"⟩], OrderedSet.empty.insert "[line 1] Error: a", 65, 2⟩
    let errorText := "[line 2] Error: b\n" ++ String.join (List.replicate 11 "?\n")
    let outcome : Outcome := ⟨encode "y\n", encode errorText, some 0⟩
    ((linesOf outcome.stderr).filter (IsUnexpected e.errorSet)).length < 2147483648 ∧
      (ofRun e "./rox" (.ok outcome)).map Failure.message =
        ["Unexpected error: [line 2] Error: b"] ++
          List.replicate 9 "Unexpected output on stderr: ?" ++
          ["(truncated 2 more...)", "Missing expected error: [line 1] Error: a",
            "Expected return code 65 and got Some(0).",
            "Expected output 'x' on line 3 and got 'y'."] := by
  intro e errorText outcome
  have herrorLines : linesOf outcome.stderr = "[line 2] Error: b" :: List.replicate 11 "?" := by
    rw [linesOf_encode]
    decide +kernel
  have hlines : linesOf outcome.stdout = ["y"] := by
    rw [linesOf_encode]
    decide +kernel
  have hunexpected : (linesOf outcome.stderr).filter (IsUnexpected e.errorSet) =
      "[line 2] Error: b" :: List.replicate 11 "?" := by
    rw [herrorLines]
    decide +kernel
  have hfew : ((linesOf outcome.stderr).filter (IsUnexpected e.errorSet)).length < 2147483648 := by
    rw [hunexpected]
    decide
  obtain ⟨complaints, missing, hmessages, hcomplaints, hsorted, hmem⟩ :=
    (failures_of_outcome e "./rox" outcome).1
  have hmissing : missing = ["[line 1] Error: a"] := by
    have hcarries : ¬ Carries (linesOf outcome.stderr) "[line 1] Error: a" := by
      rw [herrorLines, Carries]
      decide +kernel
    have hnodup : missing.Nodup := hsorted.imp fun hlt heq ↦ by
      rw [heq] at hlt
      exact List.lt_irrefl _ hlt
    refine List.perm_singleton.1 ((List.perm_ext_iff_of_nodup hnodup (List.nodup_singleton _)).2 ?_)
    intro error
    rw [hmem, List.mem_singleton, OrderedSet.mem_insert]
    constructor
    · rintro ⟨herror | hnone, -⟩
      · exact herror
      · cases hnone
    · rintro rfl
      exact ⟨.inl rfl, hcarries⟩
  refine ⟨hfew, ?_⟩
  rw [hmessages, hcomplaints hfew, hunexpected, hlines, hmissing]
  decide +kernel

/-- A stream of so many lines with a question mark. -/
def flood (n : Nat) : List UInt8 :=
  encode (String.join ((List.replicate n "?").map (· ++ "\n")))

theorem linesOf_flood (n : Nat) : linesOf (flood n) = List.replicate n "?" := by
  rw [flood, linesOf_encode]
  refine Text.Split.lines_join fun line hline ↦ ?_
  rw [List.eq_of_mem_replicate hline]
  decide

theorem unexpectedLines_flood (n : Nat) :
    unexpectedLines OrderedSet.empty (linesOf (flood n)) = List.replicate n "?" := by
  rw [linesOf_flood, unexpectedLines, List.filter_replicate_of_pos]
  decide +kernel

/-- The count of 2^31 unexpected lines is negative, so that nothing is said of those which are not
shown.  And a line that is the text of an expected error does not make up for it if the text ends
with its first word, since no diagnostic does. -/
theorem messages_of_flood_and_of_bare_error :
    ((unexpectedLines OrderedSet.empty (linesOf (flood 2147483648))).length = 2147483648 ∧
      (ofRun .empty "./rox" (.ok ⟨[], flood 2147483648, some 0⟩)).map Failure.message =
        List.replicate 10 "Unexpected output on stderr: ?") ∧
      (ofRun (Expectations.empty.addError ⟨"1", "Error"⟩) "./rox"
          (.ok ⟨[], encode "[line 1] Error\n", some 65⟩)).map Failure.message =
        ["Unexpected output on stderr: [line 1] Error",
          "Missing expected error: [line 1] Error"] := by
  refine ⟨⟨by rw [unexpectedLines_flood, List.length_replicate], ?_⟩, ?_⟩
  · obtain ⟨missing, hmissing, hfailures⟩ :=
      errorFailures_eq OrderedSet.empty (linesOf (flood 2147483648))
    have hnone : missing.toList = [] :=
      List.eq_nil_iff_forall_not_mem.2 fun error herror ↦ by
        cases ((hmissing error).1 herror).1
    have hnegative : ¬ Int32.ofNat 2147483648 > shownLines := by decide
    have hcomplaint : (complaint "?").message = "Unexpected output on stderr: ?" := by
      decide +kernel
    have herrors : (errorFailures OrderedSet.empty (linesOf (flood 2147483648))).map
        Failure.message = List.replicate 10 "Unexpected output on stderr: ?" := by
      rw [hfailures, unexpectedLines_flood, hnone, complaintsOf, List.length_replicate,
        if_neg hnegative, shownOf_eq_take (Nat.le_of_eq List.length_replicate), List.take_replicate,
        List.map_nil, List.append_nil, List.append_nil, List.map_replicate, List.map_replicate,
        hcomplaint]
      rfl
    have hcode : codeFailures Expectations.empty.exitCode (some 0) = [] := rfl
    have houtput : outputFailures Expectations.empty.outputs (linesOf []) = [] := rfl
    rw [ofRun, failures]
    dsimp only
    rw [hcode, houtput, List.append_nil, List.append_nil]
    exact herrors
  · have hlines : linesOf (encode "[line 1] Error\n") = ["[line 1] Error"] := by
      rw [linesOf_encode]
      decide +kernel
    rw [ofRun, failures, hlines]
    decide +kernel

end LoxScan.Suite.Verdict
