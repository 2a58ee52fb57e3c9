import LoxScan.Proofs.CommandLine.Requests
import LoxScan.Proofs.CommandLine.Script
import LoxScan.Proofs.Session.Prompt

/-!
# What the command leaves behind

Whatever the arguments, the files and the input are, the outcome of the command follows from what
the arguments ask for.  Its exit code tells a refusal, a script that cannot be scanned, a script
with errors and everything else apart, and by the time it ends both streams are complete.
-/

namespace LoxScan.CommandLine.ScanCommand

open Text (Utf8.encode)
open Session (shownFor toldFor)

/-- Why a script is not scanned: it could not be read, or it is not text. -/
inductive FailsWith : Except IoError (List UInt8) → IoError → Prop where
  | unread (error : IoError) : FailsWith (.error error) error
  | notText {bytes : List UInt8} (h : ∀ text, Utf8.encode text ≠ bytes) :
      FailsWith (.ok bytes) .invalidUtf8

theorem FailsWith.bind_decodeLine {contents : Except IoError (List UInt8)} {error : IoError}
    (h : FailsWith contents error) : contents.bind Feed.decodeLine = .error error := by
  cases h with
  | unread => rfl
  | @notText bytes h =>
    have hdecode : Text.Utf8.decode? bytes = none := by
      rw [Option.eq_none_iff_forall_ne_some]
      intro text htext
      exact h text (Text.Utf8.decode?_eq_some_iff.1 htext)
    rw [Except.bind, Feed.decodeLine, hdecode]

/-- Scripts that do not fail are encoded text. -/
theorem exists_failsWith_or_encode (contents : Except IoError (List UInt8)) :
    (∃ error, FailsWith contents error) ∨ ∃ text, contents = .ok (Utf8.encode text) := by
  cases contents with
  | error error => exact .inl ⟨error, .unread error⟩
  | ok bytes =>
    by_cases htext : ∃ text, Utf8.encode text = bytes
    · obtain ⟨text, rfl⟩ := htext
      exact .inr ⟨text, rfl⟩
    · exact .inl ⟨_, .notText (not_exists.1 htext)⟩

theorem not_failsWith_encode (text : String) (error : IoError) :
    ¬ FailsWith (.ok (Utf8.encode text)) error := by
  intro h
  cases h with
  | notText h => exact h text rfl

theorem scriptOutcome_of_failsWith {contents : Except IoError (List UInt8)} {error : IoError}
    (h : FailsWith contents error) (path : String) :
    scriptOutcome path contents =
      ⟨[], Utf8.encode (path ++ ": " ++ error.message ++ "\n"), some ioErrorCode⟩ := by
  rw [scriptOutcome, Session.runFile, h.bind_decodeLine]
  rfl

theorem code_outcomeOfScan (scan : Scan) :
    (outcomeOfScan scan).code ≠ some ioErrorCode ∧
      ((outcomeOfScan scan).code = some scanErrorCode ↔ scan.errors ≠ []) ∧
      ((outcomeOfScan scan).code = some 0 ↔ scan.errors = []) := by
  rw [outcomeOfScan]
  by_cases herrors : scan.errors = []
  · simp [herrors, ioErrorCode, scanErrorCode]
  · simp [herrors, ioErrorCode, scanErrorCode]

/-- The exit code of a failure is that of no scan. -/
theorem code_scriptOutcome_eq_iff (path : String) (contents : Except IoError (List UInt8)) :
    (scriptOutcome path contents).code = some ioErrorCode ↔ ∃ error, FailsWith contents error := by
  rcases exists_failsWith_or_encode contents with ⟨error, herror⟩ | ⟨text, rfl⟩
  · rw [scriptOutcome_of_failsWith herror]
    exact iff_of_true rfl ⟨error, herror⟩
  · rw [scriptOutcome_encode]
    exact iff_of_false (code_outcomeOfScan _).1 (not_exists.2 (not_failsWith_encode text))

/-- Over bytes that can all be read, the prompt ends without failure. -/
theorem runPrompt_newSession {chunks : List Chunk} {lines : List (List UInt8)}
    (hlines : Feed.FallsInto (chunks.flatMap Chunk.bytes) lines) :
    newSession.runPrompt (Feed.ofDeliveries (chunks.map .chunk)) =
      (newSession.deliver
          (Utf8.encode "> " ++ lines.flatMap fun line ↦ shownFor line ++ Utf8.encode "> ")
          (lines.flatMap toldFor) 0,
        .ok ()) := by
  have hnew : newSession.Unhindered := Session.unhindered_start [] []
  have hrun := hnew.runPrompt hlines.entries_ofDeliveries
  rwa [show newSession.reported = 0 from rfl, ite_self] at hrun

theorem promptOutcome_of_ok {input : Feed} {s : Session}
    (h : newSession.runPrompt input = (s, .ok ())) :
    promptOutcome input = ⟨s.out.written, s.log.writer.written, some 0⟩ := by
  rw [promptOutcome, h]
  exact outcomeOf_empty s 0

theorem run_of_isRefused {arguments : List String} (h : IsRefused arguments)
    (read : String → Except IoError (List UInt8)) (input : Feed) :
    run arguments read input = ⟨Utf8.encode usage, [], some usageCode⟩ := by
  rw [run, ofArguments_of_isRefused h]
  rfl

theorem run_of_acts {flag : Flag} (hflag : flag ∈ grammar.flags) {arguments : List String}
    (h : Acts flag arguments) (read : String → Except IoError (List UInt8)) (input : Feed) :
    run arguments read input =
      textOutcome (if flag.name = helpFlag.name then helpText else versionText) 0 := by
  rw [run, ofArguments_of_acts hflag h]
  by_cases hname : flag.name = helpFlag.name
  · rw [if_pos hname, if_pos hname]
  · rw [if_neg hname, if_neg hname]

/-- The outcome of the command, for all arguments, files and input.  Refused arguments show the
usage and nothing else.  A script that cannot be read or is not text is named with the reason, and
any other script shows all its tokens and reports all its errors.  Without a script the outcome is
that of the prompt, and nothing that is typed changes its exit code. -/
theorem outcome_of_run (arguments : List String) (read : String → Except IoError (List UInt8))
    (chunks : List Chunk) :
    let input := Feed.ofDeliveries (chunks.map .chunk)
    let outcome := run arguments read input
    (IsRefused arguments →
        outcome = ⟨Utf8.encode "Usage: rox [script]\n", [], some 64⟩) ∧
      (∀ flag ∈ grammar.flags, Acts flag arguments →
        outcome.stderr = [] ∧ outcome.code = some 0) ∧
      (∀ path, Accepts arguments (some path) →
        (outcome.code = some 74 ↔ ∃ error, FailsWith (read path) error) ∧
        (∀ error, FailsWith (read path) error → outcome.stdout = [] ∧
          outcome.stderr = Utf8.encode (path ++ ": " ++ error.message ++ "\n")) ∧
        ∀ text, read path = .ok (Utf8.encode text) →
          (outcome.code = some 65 ↔ (Scan.ofText text).errors ≠ []) ∧
          (outcome.code = some 0 ↔ (Scan.ofText text).errors = []) ∧
          outcome.stdout = Utf8.encode (Scan.ofText text).dump ∧
          outcome.stderr = Utf8.encode
            (String.join ((Scan.ofText text).errors.map fun e ↦ e.display ++ "\n"))) ∧
      (Accepts arguments none →
        let s := (newSession.runPrompt input).1
        outcome = ⟨s.out.written, s.log.writer.written, some 0⟩ ∧ s.log.pending = [] ∧
          ∃ lines, Feed.FallsInto (chunks.flatMap Chunk.bytes) lines ∧
            s.out.written =
              Utf8.encode "> " ++ lines.flatMap (fun line ↦ shownFor line ++ Utf8.encode "> ") ∧
            s.log.writer.written = lines.flatMap toldFor) := by
  intro input outcome
  refine ⟨?_, ?_, ?_, ?_⟩
  · intro hrefused
    exact run_of_isRefused hrefused read input
  · intro flag hflag hacts
    have houtcome : outcome = _ := run_of_acts hflag hacts read input
    rw [houtcome]
    exact ⟨rfl, rfl⟩
  · intro path hpath
    have houtcome : outcome = scriptOutcome path (read path) := by
      rw [show outcome = run arguments read input from rfl, run,
        ofArguments_of_accepts_some hpath]
    rw [houtcome]
    refine ⟨code_scriptOutcome_eq_iff path (read path), ?_, ?_⟩
    · intro error herror
      rw [scriptOutcome_of_failsWith herror]
      exact ⟨rfl, rfl⟩
    · intro text htext
      rw [htext, scriptOutcome_encode]
      obtain ⟨-, herrors, hnone⟩ := code_outcomeOfScan (Scan.ofText text)
      exact ⟨herrors, hnone, rfl, rfl⟩
  · intro hprompt
    obtain ⟨lines, hlines⟩ := Feed.exists_fallsInto (chunks.flatMap Chunk.bytes)
    have hrun := runPrompt_newSession hlines
    have houtcome : outcome = promptOutcome input := by
      rw [show outcome = run arguments read input from rfl, run,
        ofArguments_of_accepts_none hprompt]
    rw [houtcome, promptOutcome_of_ok hrun, hrun]
    exact ⟨rfl, rfl, lines, hlines, rfl, rfl⟩

/-- Behind a separator, what looks like a flag is a script, and one too many if there are two.  At
the prompt, an open string and an entry that is not text leave the exit code alone. -/
theorem outcome_of_run_behind_separator :
    let read (path : String) : Except IoError (List UInt8) :=
      if path = "-h" then .ok (Utf8.encode "a @") else .error (.refused .missing)
    let chunks : List Chunk := [⟨[0x22], by decide⟩, ⟨[0x0A, 0xFF], by decide⟩]
    let outcome (arguments : List String) :=
      run arguments read (Feed.ofDeliveries (chunks.map .chunk))
    (IsRefused ["--", "-h", "-h"] ∧
        outcome ["--", "-h", "-h"] = ⟨Utf8.encode "Usage: rox [script]\n", [], some 64⟩) ∧
      (Acts versionFlag ["a", "-Vh"] ∧ (outcome ["a", "-Vh"]).code = some 0) ∧
      (Accepts ["--", "-h"] (some "-h") ∧ (outcome ["--", "-h"]).code = some 65 ∧
        (outcome ["--", "-h"]).stdout = Utf8.encode "IDENTIFIER a null\nEOF  null\n" ∧
        (outcome ["--", "-h"]).stderr = Utf8.encode "[line 1] Error: Unexpected character.\n") ∧
      (Accepts ["a", "--"] (some "a") ∧ (outcome ["a", "--"]).code = some 74 ∧
        (outcome ["a", "--"]).stderr =
          Utf8.encode "a: No such file or directory (os error 2)\n") ∧
      (Accepts ["--"] none ∧ (outcome ["--"]).code = some 0) := by
  intro read chunks outcome
  have hplain : IsPlain "a" := .inr (by decide)
  have hrefused : IsRefused ["--", "-h", "-h"] := isRefused_iff.2 ⟨.surplusArgument "-h", rfl⟩
  have hacts : Acts versionFlag ["a", "-Vh"] :=
    .second (by decide) hplain (.inr (by decide)) []
  have hscript : Accepts ["--", "-h"] (some "-h") := .behind (by decide)
  have hmissing : Accepts ["a", "--"] (some "a") := .closed (by decide) hplain
  obtain ⟨hcode, -, houtcome⟩ :=
    (outcome_of_run ["--", "-h"] read chunks).2.2.1 "-h" hscript
  obtain ⟨herrors, -, hstdout, hstderr⟩ := houtcome "a @" rfl
  obtain ⟨hfailure, hreason, -⟩ :=
    (outcome_of_run ["a", "--"] read chunks).2.2.1 "a" hmissing
  have hfails : FailsWith (read "a") (.refused .missing) := .unread _
  obtain ⟨hprompt, -⟩ := (outcome_of_run ["--"] read chunks).2.2.2 .separator
  refine ⟨⟨hrefused, (outcome_of_run _ read chunks).1 hrefused⟩,
    ⟨hacts, ((outcome_of_run _ read chunks).2.1 _ (by decide) hacts).2⟩,
    ⟨hscript, herrors.2 (by decide +kernel), hstdout.trans ?_, hstderr.trans ?_⟩,
    ⟨hmissing, hfailure.2 ⟨_, hfails⟩, (hreason _ hfails).2.trans ?_⟩, .separator, ?_⟩
  · decide +kernel
  · decide +kernel
  · decide +kernel
  · exact congrArg Outcome.code hprompt

end LoxScan.CommandLine.ScanCommand
