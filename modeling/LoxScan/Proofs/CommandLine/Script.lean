import LoxScan.CommandLine.SuiteCommand
import LoxScan.Proofs.CommandLine.Requests
import LoxScan.Proofs.Session.Unlimited
import LoxScan.Text.RoundTrip

/-!
# Scanning a script from the command line

A single argument that does not look like an option is the path of a script.  The streams of the
command take everything, so it prints all tokens of the script and reports all of its errors, and
the exit code says whether there are any.
-/

namespace LoxScan

open Text (Utf8.encode)

namespace CommandLine

namespace ScanCommand

/-- The error stream of a scan, one error on each line. -/
def errorText (errors : List LexicalError) : String :=
  String.join (errors.map fun e ↦ e.display ++ "\n")

theorem encode_errorText (errors : List LexicalError) :
    Utf8.encode (errorText errors) = errors.flatMap fun e ↦ Utf8.encode (e.display ++ "\n") := by
  rw [errorText, Text.Utf8.encode_join, List.flatMap_map]

theorem exists_run_newSession (source : String) :
    ∃ s : Session, s.out.written = Utf8.encode (Scan.ofText source).dump ∧
      s.log.writer.written = Utf8.encode (errorText (Scan.ofText source).errors) ∧
      newSession.run source = (s, if (Scan.ofText source).errors = [] then .ok ()
        else .error (.scan (Scan.ofText source).errors)) := by
  have hnew : newSession.Unhindered := Session.unhindered_start [] []
  refine ⟨_, rfl, ?_, hnew.run source⟩
  rw [encode_errorText]
  rfl

theorem outcomeOf_empty (s : Session) (code : Int) :
    outcomeOf s "" code = ⟨s.out.written, s.log.writer.written, some code⟩ := by
  rw [outcomeOf, Text.Utf8.encode_empty, List.append_nil]

/-- What is left of the scan of a script when the command has ended. -/
def outcomeOfScan (scan : Scan) : Outcome :=
  ⟨Utf8.encode scan.dump, Utf8.encode (errorText scan.errors),
    some (if scan.errors = [] then 0 else scanErrorCode)⟩

theorem scriptOutcome_encode (path source : String) :
    scriptOutcome path (.ok (Utf8.encode source)) = outcomeOfScan (Scan.ofText source) := by
  obtain ⟨s, hout, herr, hrun⟩ := exists_run_newSession source
  rw [scriptOutcome, Session.runFile_encode, hrun, outcomeOfScan, ← hout, ← herr]
  by_cases herrors : (Scan.ofText source).errors = []
  · rw [if_pos herrors, if_pos herrors]
    exact outcomeOf_empty s 0
  · rw [if_neg herrors, if_neg herrors]
    exact outcomeOf_empty s scanErrorCode

end ScanCommand

namespace SuiteCommand

/-- A path that can be read has no NUL in it and is not empty. -/
theorem path_of_read {tree : FileTree} {path : String} {contents : List UInt8}
    (h : FileTree.read tree path = .ok contents) : FileTree.hasNul path = false ∧ path ≠ "" := by
  constructor
  · by_contra hnul
    rw [Bool.not_eq_false] at hnul
    rw [FileTree.read, if_pos hnul] at h
    cases h
  · rintro rfl
    cases h

/-- Starting the scanner of a tree on a script of the tree scans the script. -/
theorem launch_scanner {tree : FileTree} {binary path source : String}
    (hbinary : FileTree.program tree binary = .ok .scanner)
    (hpath : path.toList.head? ≠ some '-')
    (hread : FileTree.read tree path = .ok (Utf8.encode source)) :
    launch tree binary path = .ok (ScanCommand.outcomeOfScan (Scan.ofText source)) := by
  obtain ⟨hnul, hne⟩ := path_of_read hread
  have hrun : ScanCommand.run [path] (FileTree.read tree) [] =
      ScanCommand.outcomeOfScan (Scan.ofText source) := by
    have haccepts : ScanCommand.Accepts [path] (some path) := .plain hne (.inr hpath)
    rw [ScanCommand.run, ScanCommand.ofArguments_of_accepts_some haccepts]
    dsimp only
    rw [hread, ScanCommand.scriptOutcome_encode]
  rw [launch, launchWithin, hnul, hbinary, ← hrun]
  rfl

end SuiteCommand

end CommandLine

end LoxScan
