import LoxScan.Proofs.Suite.Terminal
import LoxScan.Proofs.Suite.TestFiles

/-!
# Suite runs on a terminal

Between two tests the cursor of the terminal is under a line that nothing depends on.  Each test
erases that line before it shows anything and leaves another one, which stands under the failures
that it has added.  So what a run has shown in the end are the failures of the failed tests, one
test after the other, and the summary.
-/

namespace LoxScan.Suite

open Terminal (Shows under writing)

def IsControl (c : Char) : Prop := c < ' ' ∨ '\x7f' ≤ c ∧ c ≤ '\u009f'

instance (c : Char) : Decidable (IsControl c) :=
  inferInstanceAs (Decidable (c < ' ' ∨ '\x7f' ≤ c ∧ c ≤ '\u009f'))

def IsPlain (text : String) : Prop := ∀ c ∈ text.toList, ¬ IsControl c

instance (text : String) : Decidable (IsPlain text) :=
  List.decidableBAll (fun c ↦ ¬ IsControl c) text.toList

/-- The failures of the test file at a path.  A file that is no test has none. -/
def failuresOf (w : Surroundings) (binary path : String) : List Failure :=
  match Expectations.ofFile (w.read path) with
  | (expectations, .ok true) => Verdict.ofRun expectations binary (w.launch binary path)
  | _ => []

/-- The lines that show the failures of a test. -/
def blockLines (path : String) (failures : List Failure) : List String :=
  ["FAIL: " ++ path, ""] ++ failures.map (fun failure ↦ "\t" ++ failure.message) ++ [""]

/-- The lines that are left of tests: those with the failures of the failed ones. -/
def failureLines (w : Surroundings) (binary : String) (paths : List String) : List String :=
  paths.flatMap fun path ↦
    if failuresOf w binary path = [] then [] else blockLines path (failuresOf w binary path)

def summaryLine (passed failed expectations : UInt32) : String :=
  if failed = 0 then
    "All " ++ toString passed ++ " tests passed (" ++ toString expectations ++ " expectations)."
  else toString passed ++ " tests passed. " ++ toString failed ++ " tests failed."

/-- The paths of the files that a run takes, one after the other. -/
def Plan.taken (p : Plan) (tree : FileTree) : List String :=
  match PathPattern.ofText p.pattern with
  | .error _ => []
  | .ok pattern => (pattern.paths tree).filter p.accepts

variable {kept lines : List String} {spare : Nat} {w : Surroundings} {binary path : String}

theorem failureLines_append (before after : List String) :
    failureLines w binary (before ++ after) =
      failureLines w binary before ++ failureLines w binary after :=
  List.flatMap_append

theorem IsPlain.isText {text : String} (h : IsPlain text) : Terminal.IsText text := by
  intro c hc
  have hplain := h c hc
  refine ⟨?_, ?_, ?_⟩ <;>
  · rintro rfl
    exact hplain (by decide)

theorem isText_toString (n : UInt32) : Terminal.IsText (toString n) := by
  intro c hc
  have hdigit : c.isDigit := Nat.isDigit_of_mem_toDigits (by decide) (by decide)
    (Nat.toList_repr (n := n.toNat) ▸ hc)
  refine ⟨?_, ?_, ?_⟩ <;>
  · rintro rfl
    exact absurd hdigit (by decide)

theorem Counters.shows_stateLine (hkept : kept <+: lines) (hpath : IsPlain path) (c : Counters)
    (colours : Bool) :
    ∃ line, Shows kept (writing lines "" spare) (c.stateLine colours path)
      (writing (lines ++ [line]) "" (spare - 1)) := by
  have hsplit : ")\n" = ")" ++ "\n" := rfl
  change ∃ line, Shows kept _ (_ ++ ")\n") _
  rw [hsplit, ← String.append_assoc]
  exact ⟨_, (Shows.text hkept (by decide))
    |>.append (.paint hkept (isText_toString c.passed) _ _)
    |>.append (.text hkept (by decide))
    |>.append (.paint hkept (isText_toString c.failed) _ _)
    |>.append (.text hkept (by decide))
    |>.append (.paint hkept (isText_toString c.skipped) _ _)
    |>.append (.text hkept (by decide))
    |>.append (.text hkept hpath.isText)
    |>.append (.text hkept (by decide))
    |>.append (.newline hkept)⟩

theorem Counters.shows_summary (hkept : kept <+: lines) (c : Counters) (colours : Bool) :
    Shows kept (writing lines "" spare) (c.summary colours)
      (writing (lines ++ [summaryLine c.passed c.failed c.expectations]) "" (spare - 1)) := by
  have hpassed (written : String) :
      Shows kept (writing lines written spare)
        (Screen.Colour.green.paint colours (toString c.passed))
        (writing lines (written ++ toString c.passed) spare) :=
    .paint hkept (isText_toString c.passed) _ _
  rw [summary, summaryLine]
  split
  · have hsplit : " expectations).\n" = " expectations)." ++ "\n" := rfl
    rw [hsplit, ← String.append_assoc]
    exact (Shows.text hkept (by decide))
      |>.append (hpassed _)
      |>.append (.text hkept (by decide))
      |>.append (.text hkept (isText_toString c.expectations))
      |>.append (.text hkept (by decide))
      |>.append (.newline hkept)
  · have hsplit : " tests failed.\n" = " tests failed." ++ "\n" := rfl
    rw [hsplit, ← String.append_assoc]
    exact (hpassed _)
      |>.append (.text hkept (by decide))
      |>.append (.paint hkept (isText_toString c.failed) _ _)
      |>.append (.text hkept (by decide))
      |>.append (.newline hkept)

/-- The end of a run. -/
theorem Counters.shows_end (lines : List String) (line : String) (c : Counters) (colours : Bool) :
    Shows lines (under (lines ++ [line])) (Screen.eraseLineAbove ++ c.summary colours)
      (under (lines ++ [summaryLine c.passed c.failed c.expectations])) :=
  (Shows.eraseLineAbove List.prefix_rfl line).append (c.shows_summary List.prefix_rfl colours)

theorem shows_failures (hkept : kept <+: lines) {failures : List Failure}
    (hfailures : ∀ failure ∈ failures, IsPlain failure.message) (colours : Bool) :
    Shows kept (under lines)
      (String.join (failures.map fun failure ↦
        "\t" ++ Screen.Colour.blue.paint colours failure.message ++ "\n"))
      (under (lines ++ failures.map fun failure ↦ "\t" ++ failure.message)) := by
  induction failures generalizing lines with
  | nil =>
    rw [List.map_nil, List.map_nil, List.append_nil]
    exact Terminal.Along.nil (Terminal.keeps_writing hkept)
  | cons failure failures ih =>
    obtain ⟨hfailure, hfailures⟩ := List.forall_mem_cons.1 hfailures
    rw [List.map_cons, List.map_cons, String.join_cons, List.append_cons]
    have htab : Shows kept (under lines) "\t" (writing lines ("" ++ "\t") 0) :=
      .text hkept (by decide)
    have hline := htab
      |>.append (.paint hkept hfailure.isText .blue colours)
      |>.append (.newline hkept)
    exact hline.append (ih (List.prefix_append_of_prefix hkept) hfailures)

theorem shows_failureBlock (hkept : kept <+: lines) (hpath : IsPlain path)
    {failures : List Failure} (hfailures : ∀ failure ∈ failures, IsPlain failure.message)
    (colours : Bool) :
    Shows kept (writing lines "" 1) (failureBlock colours path failures)
      (under (lines ++ blockLines path failures)) := by
  have hsplit : "\n\n" = "\n" ++ "\n" := rfl
  have hlater (later : List String) : kept <+: lines ++ later :=
    List.prefix_append_of_prefix hkept
  have hlines : lines ++ blockLines path failures =
      lines ++ ["FAIL: " ++ path] ++ [""] ++
        (failures.map fun failure ↦ "\t" ++ failure.message) ++ [""] := by
    simp [blockLines]
  have hword : Terminal.IsText "FAIL" := by decide
  have htitle : Shows kept (writing lines "" 1)
      (Screen.Colour.red.paint colours "FAIL" ++ ": " ++ path ++ "\n")
      (under (lines ++ ["FAIL: " ++ path])) :=
    (Shows.paint hkept hword _ _)
      |>.append (.text hkept (by decide))
      |>.append (.text hkept hpath.isText)
      |>.append (.newline hkept)
  have hempty : Shows kept (under (lines ++ ["FAIL: " ++ path])) "\n"
      (under (lines ++ ["FAIL: " ++ path] ++ [""])) := .newline (hlater _)
  have hempties : kept <+: lines ++ ["FAIL: " ++ path] ++ [""] :=
    List.prefix_append_of_prefix (hlater _)
  rw [failureBlock, hsplit, ← String.append_assoc, hlines]
  exact (htitle.append hempty)
    |>.append (shows_failures hempties hfailures _)
    |>.append (.newline (List.prefix_append_of_prefix hempties))

namespace RunState

variable {s t : RunState}

/-- What a test shows in place of the line above the cursor. -/
def stateText (s : RunState) (w : Surroundings) (path : String) : String :=
  Screen.eraseLineAbove ++ s.counters.stateLine w.colours path

/-- A test shows the counters, and then its failures in their place if it has any. -/
theorem shown_of_runTest (h : s.runTest w binary path = (t, .ok ())) :
    (failuresOf w binary path = [] ∧ t.shown = s.shown ++ s.stateText w path) ∨
      (failuresOf w binary path ≠ [] ∧ t.shown = s.shown ++ (s.stateText w path ++
        (Screen.eraseLineAbove ++ failureBlock w.colours path (failuresOf w binary path) ++
          "\n"))) := by
  rw [runTest] at h
  rw [failuresOf]
  rcases hparse : Expectations.ofFile (w.read path) with ⟨expectations, error | isTest⟩
  · rw [hparse] at h
    cases h
  rw [hparse] at h
  cases isTest with
  | false =>
    cases h
    exact .inl ⟨rfl, rfl⟩
  | true =>
    dsimp only at h ⊢
    by_cases hempty : Verdict.ofRun expectations binary (w.launch binary path) = []
    · rw [if_pos (List.isEmpty_iff.2 hempty)] at h
      cases h
      exact .inl ⟨hempty, rfl⟩
    · rw [if_neg (mt List.isEmpty_iff.1 hempty)] at h
      cases h
      exact .inr ⟨hempty, String.append_assoc⟩

/-- What a test shows replaces the line above the cursor by the lines with its failures and another
line, and the lines above are kept all the way. -/
theorem exists_shows_of_runTest (h : s.runTest w binary path = (t, .ok ())) (hpath : IsPlain path)
    (hfailures : ∀ failure ∈ failuresOf w binary path, IsPlain failure.message) :
    ∃ text, t.shown = s.shown ++ text ∧ ∀ lines line, ∃ next,
      Shows lines (under (lines ++ [line])) text
        (under (lines ++ failureLines w binary [path] ++ [next])) := by
  have hstate (lines : List String) (line : String) : ∃ next,
      Shows lines (under (lines ++ [line])) (s.stateText w path) (under (lines ++ [next])) := by
    obtain ⟨next, hnext⟩ : ∃ next, Shows lines (writing lines "" 1)
        (s.counters.stateLine w.colours path) (under (lines ++ [next])) :=
      s.counters.shows_stateLine List.prefix_rfl hpath w.colours
    exact ⟨next, (Shows.eraseLineAbove List.prefix_rfl line).append hnext⟩
  rw [failureLines, List.flatMap_singleton]
  rcases shown_of_runTest h with ⟨hempty, hshown⟩ | ⟨hempty, hshown⟩
  · rw [if_pos hempty]
    exact ⟨_, hshown, by simpa using hstate⟩
  · rw [if_neg hempty]
    refine ⟨_, hshown, fun lines line ↦ ⟨"", ?_⟩⟩
    obtain ⟨next, hnext⟩ := hstate lines line
    exact hnext.append ((Shows.eraseLineAbove List.prefix_rfl next)
      |>.append (shows_failureBlock List.prefix_rfl hpath hfailures _)
      |>.append (.newline (List.prefix_append ..)))

theorem exists_shows_of_runTests {paths : List String}
    (h : s.runTests w binary paths = (t, .ok ())) (hpaths : ∀ path ∈ paths, IsPlain path)
    (hfailures : ∀ path ∈ paths, ∀ failure ∈ failuresOf w binary path, IsPlain failure.message) :
    ∃ text, t.shown = s.shown ++ text ∧ ∀ lines line, ∃ next,
      Shows lines (under (lines ++ [line])) text
        (under (lines ++ failureLines w binary paths ++ [next])) := by
  induction paths generalizing s with
  | nil =>
    cases h
    refine ⟨"", by simp, fun lines line ↦ ⟨line, ?_⟩⟩
    rw [failureLines, List.flatMap_nil, List.append_nil]
    exact Terminal.Along.nil (Terminal.keeps_writing (List.prefix_append ..))
  | cons path paths ih =>
    rw [runTests] at h
    split at h
    · cases h
    · next u hfirst =>
      obtain ⟨hpath, hpaths⟩ := List.forall_mem_cons.1 hpaths
      obtain ⟨hfailuresHere, hfailures⟩ := List.forall_mem_cons.1 hfailures
      obtain ⟨first, hshown, hfirst⟩ := exists_shows_of_runTest hfirst hpath hfailuresHere
      obtain ⟨rest, hrest, hlater⟩ := ih h hpaths hfailures
      refine ⟨first ++ rest, by rw [hrest, hshown, String.append_assoc], fun lines line ↦ ?_⟩
      obtain ⟨next, hnext⟩ := hfirst lines line
      obtain ⟨last, hlast⟩ := hlater (lines ++ failureLines w binary [path]) next
      have hlines : failureLines w binary (path :: paths) =
          failureLines w binary [path] ++ failureLines w binary paths :=
        failureLines_append [path] paths
      rw [hlines, ← List.append_assoc]
      exact ⟨last, hnext.append (hlast.mono (List.prefix_append ..))⟩

theorem exists_runTests_of_append {before after : List String}
    (h : s.runTests w binary (before ++ after) = (t, .ok ())) :
    ∃ u, s.runTests w binary before = (u, .ok ()) ∧ u.runTests w binary after = (t, .ok ()) := by
  induction before generalizing s with
  | nil => exact ⟨s, rfl, h⟩
  | cons path before ih =>
    rw [List.cons_append, runTests] at h
    rcases hfirst : s.runTest w binary path with ⟨u, error | _⟩
    · rw [hfirst] at h
      cases h
    · rw [hfirst] at h
      rw [runTests, hfirst]
      exact ih h

end RunState

variable {p : Plan} {tree : FileTree} {s : RunState} {success : Bool}

/-- A run that comes to its end has started with an empty line, shown its tests and replaced the
line above the cursor by the summary. -/
theorem Plan.exists_runTests_of_run (hrun : p.run w tree = (s, .ok success)) :
    ∃ t, RunState.runTests ⟨Counters.zero, "\n"⟩ w p.binary (p.taken tree) = (t, .ok ()) ∧
      s.shown = t.shown ++ (Screen.eraseLineAbove ++ t.counters.summary w.colours) := by
  rw [Plan.run] at hrun
  rw [taken]
  cases hpattern : PathPattern.ofText p.pattern with
  | error error =>
    rw [hpattern] at hrun
    cases hrun
  | ok pattern =>
    rw [hpattern] at hrun
    dsimp only [Plan.runPaths] at hrun ⊢
    rcases htests : RunState.runTests ⟨Counters.zero, "\n"⟩ w p.binary
      ((pattern.paths tree).filter p.accepts) with ⟨t, error | _⟩
    · rw [htests] at hrun
      cases hrun
    · rw [htests] at hrun
      cases hrun
      exact ⟨t, rfl, rfl⟩

/-- A run that comes to its end leaves on the terminal the failures of the failed tests, one test
after the other, and the summary.  After every test, what is there of the failures so far stands
above the cursor, and it is not touched any more. -/
theorem replay_of_run (hrun : p.run w tree = (s, .ok success))
    (hpaths : ∀ path ∈ p.taken tree, IsPlain path)
    (hfailures : ∀ path ∈ p.taken tree, ∀ failure ∈ failuresOf w p.binary path,
      IsPlain failure.message)
    (earlier : List String) :
    (under earlier).replay s.shown =
        under (earlier ++ failureLines w p.binary (p.taken tree) ++
          [summaryLine
            (UInt32.ofNat
              ((p.taken tree).countP fun path ↦ standing? w p.binary path = some .passed))
            (UInt32.ofNat
              ((p.taken tree).countP fun path ↦ standing? w p.binary path = some .failed))
            (UInt32.ofNat (expectationsIn w p.binary (p.taken tree)))]) ∧
      ∀ before after, p.taken tree = before ++ after → ∃ shown later line,
        s.shown = shown ++ later ∧
        (under earlier).replay shown =
          under (earlier ++ failureLines w p.binary before ++ [line]) ∧
        ∀ part, part.toList <+: later.toList →
          earlier ++ failureLines w p.binary before <+:
            ((under earlier).replay (shown ++ part)).linesAbove := by
  obtain ⟨t, htests, hshown⟩ := Plan.exists_runTests_of_run hrun
  have hstart : Shows earlier (under earlier) "\n" (under (earlier ++ [""])) :=
    .newline List.prefix_rfl
  have htallies := tallies_of_runTests rfl htests
  refine ⟨?_, fun before after hsplit ↦ ?_⟩
  · obtain ⟨text, htext, hshows⟩ := RunState.exists_shows_of_runTests htests hpaths hfailures
    obtain ⟨line, hline⟩ := hshows earlier ""
    have hend := t.counters.shows_end (earlier ++ failureLines w p.binary (p.taken tree)) line
      w.colours
    rw [hshown, htext, ← htallies.number, ← htallies.number, ← htallies.expectations]
    exact ((hstart.append hline).append (hend.mono (List.prefix_append ..))).replay_eq
  · rw [hsplit] at htests hpaths hfailures
    obtain ⟨hpathsBefore, hpathsAfter⟩ := List.forall_mem_append.1 hpaths
    obtain ⟨hfailuresBefore, hfailuresAfter⟩ := List.forall_mem_append.1 hfailures
    obtain ⟨u, hbefore, hafter⟩ := RunState.exists_runTests_of_append htests
    obtain ⟨first, hfirst, hshowsFirst⟩ :=
      RunState.exists_shows_of_runTests hbefore hpathsBefore hfailuresBefore
    obtain ⟨second, hsecond, hshowsSecond⟩ :=
      RunState.exists_shows_of_runTests hafter hpathsAfter hfailuresAfter
    obtain ⟨line, hline⟩ := hshowsFirst earlier ""
    obtain ⟨last, hlast⟩ := hshowsSecond (earlier ++ failureLines w p.binary before) line
    have hreplay := (hstart.append hline).replay_eq
    have hlater := hlast.append
      ((t.counters.shows_end _ last w.colours).mono (List.prefix_append ..))
    refine ⟨"\n" ++ first, second ++ (Screen.eraseLineAbove ++ t.counters.summary w.colours), line,
      ?_, hreplay, fun part hpart ↦ ?_⟩
    · rw [hshown, hsecond, hfirst, String.append_assoc]
    · rw [Terminal.replay_append, hreplay]
      exact hlater.keeps_of_prefix hpart

/-- A program that is not found fails the first test, and the second file takes itself out. -/
theorem replay_of_run_not_found :
    let tree := sampleTree "samples"
    let w : Surroundings := ⟨FileTree.read tree, fun _ _ ↦ .error (.refused .missing), true⟩
    let p : Plan := ⟨"./rox", "samples", none⟩
    (∀ path ∈ p.taken tree, IsPlain path) ∧
      (∀ path ∈ p.taken tree, ∀ failure ∈ failuresOf w p.binary path, IsPlain failure.message) ∧
      ∃ s, p.run w tree = (s, .ok false) ∧
        (under ["before"]).replay s.shown =
          under ["before", "FAIL: samples/a.lox", "",
            "\tFailed to run ./rox: No such file or directory (os error 2)", "",
            "0 tests passed. 1 tests failed."] := by
  intro tree w p
  have htaken : p.taken tree = ["samples/a.lox", "samples/b/c.lox"] := by decide +kernel
  have hpaths : ∀ path ∈ p.taken tree, IsPlain path := by
    rw [htaken]
    decide +kernel
  have hfailures : ∀ path ∈ p.taken tree, ∀ failure ∈ failuresOf w p.binary path,
      IsPlain failure.message := by
    rw [htaken]
    decide +kernel
  have hresult : (p.run w tree).2 = .ok false := by decide +kernel
  obtain ⟨s, hrun⟩ := Plan.exists_run_eq hresult
  refine ⟨hpaths, hfailures, s, hrun, ?_⟩
  rw [(replay_of_run hrun hpaths hfailures ["before"]).1, htaken]
  decide +kernel

end LoxScan.Suite
