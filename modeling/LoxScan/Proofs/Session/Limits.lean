import LoxScan.Proofs.Report.Delivery
import LoxScan.Session

/-!
# Sessions over limited writers

Either writer of a session may run out of room at any byte of anything it is given.  The reports
of a run come first, behind those that earlier runs could not deliver; only when all of them have
arrived are the tokens printed.  So the result of a run tells which of the two writers ran out of
room first, and the errors of the text are returned only when everything has been shown.
-/

namespace LoxScan.Session

/-- What a session can be asked for: to scan a text, what could be read of a file, or the lines
of a feed. -/
inductive Request where
  | run (source : String)
  | runFile (contents : Except IoError (List UInt8))
  | runPrompt (feed : Feed)

/-- The session after a request, which may have failed. -/
def serve (s : Session) : Request → Session
  | .run source => (s.run source).1
  | .runFile contents => (s.runFile contents).1
  | .runPrompt feed => (s.runPrompt feed).1

def serveAll (s : Session) (history : List Request) : Session := history.foldl serve s

/-- A session both of whose writers have kept to their limits. -/
structure Keeps (outLimit errLimit : Option Nat) (s : Session) : Prop where
  out : s.out.Keeps outLimit
  log : s.log.writer.Keeps errLimit

theorem keeps_start (outLimit errLimit : Option Nat) :
    (start (Writer.withLimit outLimit) (Writer.withLimit errLimit)).Keeps outLimit errLimit :=
  ⟨Writer.keeps_withLimit _, Writer.keeps_withLimit _⟩

/-- A property of sessions that outlasts printing, the delivery of reports and forgetting their
number. -/
structure Preserved (P : Session → Prop) : Prop where
  print (s : Session) (text : String) : P s → P (s.print text).1
  report (s : Session) (reports : List Report) :
    P s → P (flushLog { s with log := s.log.reportAll reports }).1
  reset (s : Session) : P s → P { s with log := s.log.reset }

/-- Whether or not the prompt goes on, the session is as the run leaves it. -/
theorem enter_ok_fst (s : Session) (line : String) : (s.enter (.ok line)).1 = (s.run line).1 := by
  rcases hrun : s.run line with ⟨after, result⟩
  simp only [enter, hrun]
  split
  · next heq => exact (congrArg Prod.fst heq).symm
  · next heq => exact (congrArg Prod.fst heq).symm

namespace Preserved

variable {P : Session → Prop} {s : Session}

theorem run (h : Preserved P) (hs : P s) (source : String) : P (s.run source).1 := by
  have hflush := h.report s (Scan.ofText source).reports hs
  unfold Session.run
  dsimp only
  split
  · next heq =>
    rw [heq] at hflush
    exact hflush
  · next flushed heq =>
    rw [heq] at hflush
    have hprint := h.print flushed (Scan.ofText source).dump hflush
    split
    all_goals
      next hprinted =>
      rw [hprinted] at hprint
      exact hprint

theorem runFile (h : Preserved P) (hs : P s) (contents : Except IoError (List UInt8)) :
    P (s.runFile contents).1 := by
  unfold Session.runFile
  split
  · exact hs
  · exact h.run hs _

theorem enter (h : Preserved P) (hs : P s) (entry : Entry) : P (s.enter entry).1 := by
  cases entry with
  | ok line =>
    rw [enter_ok_fst]
    exact h.run hs line
  | error error =>
    simp only [Session.enter]
    split
    · exact h.report s [⟨1, error.message⟩] hs
    · exact hs

theorem answer (h : Preserved P) (hs : P s) (entry : Entry) : P (s.answer entry).1 := by
  have henter := h.enter hs entry
  unfold Session.answer
  split
  · next heq =>
    rw [heq] at henter
    exact henter
  · next heq =>
    rw [heq] at henter
    exact h.print _ _ (h.reset _ henter)

theorem runEntries (h : Preserved P) (hs : P s) (entries : List Entry) :
    P (s.runEntries entries).1 := by
  induction entries generalizing s with
  | nil => exact hs
  | cons entry rest ih =>
    have hanswer := h.answer hs entry
    unfold Session.runEntries
    split
    · next heq =>
      rw [heq] at hanswer
      exact hanswer
    · next heq =>
      rw [heq] at hanswer
      exact ih hanswer

theorem runPrompt (h : Preserved P) (hs : P s) (feed : Feed) : P (s.runPrompt feed).1 := by
  have hprompt := h.print s "> " hs
  unfold Session.runPrompt prompt
  split
  · next heq =>
    rw [heq] at hprompt
    exact hprompt
  · next heq =>
    rw [heq] at hprompt
    exact h.runEntries hprompt _

theorem serve (h : Preserved P) (hs : P s) (request : Request) : P (s.serve request) := by
  cases request with
  | run source => exact h.run hs source
  | runFile contents => exact h.runFile hs contents
  | runPrompt feed => exact h.runPrompt hs feed

theorem serveAll (h : Preserved P) (hs : P s) (history : List Request) :
    P (s.serveAll history) := by
  induction history generalizing s with
  | nil => exact hs
  | cons request history ih => exact ih (h.serve hs request)

end Preserved

section Keeping

variable {outLimit errLimit : Option Nat} {s : Session}

theorem Keeps.print (hs : s.Keeps outLimit errLimit) (text : String) :
    (s.print text).1.Keeps outLimit errLimit :=
  ⟨hs.out.accept _, hs.log⟩

theorem Keeps.flushLog (hs : s.Keeps outLimit errLimit) :
    s.flushLog.1.Keeps outLimit errLimit :=
  ⟨hs.out, hs.log.accept _⟩

theorem Keeps.reportAll (hs : s.Keeps outLimit errLimit) (reports : List Report) :
    Keeps outLimit errLimit { s with log := s.log.reportAll reports } :=
  ⟨hs.out, Log.kept_reportAll (fun _ bytes hw ↦ hw.accept bytes) hs.log reports⟩

theorem preserved_keeps (outLimit errLimit : Option Nat) :
    Preserved (Keeps outLimit errLimit) where
  print _ text hs := hs.print text
  report _ reports hs := (hs.reportAll reports).flushLog
  reset _ hs := ⟨hs.out, hs.log⟩

theorem Keeps.serveAll (hs : s.Keeps outLimit errLimit) (history : List Request) :
    (s.serveAll history).Keeps outLimit errLimit :=
  (preserved_keeps outLimit errLimit).serveAll hs history

end Keeping

open Text (Utf8.encode)

theorem flatMap_lineOf_reports (scan : Scan) :
    scan.reports.flatMap Log.lineOf =
      scan.errors.flatMap fun e ↦ Utf8.encode (e.display ++ "\n") := by
  rw [Scan.reports, List.flatMap_map]
  simp only [Log.lineOf, LexicalError.display_report]

theorem Keeps.exists_print {outLimit errLimit : Option Nat} {s : Session}
    (hs : s.Keeps outLimit errLimit) (text : String) :
    ∃ printed, Writer.Takes outLimit s.out.written (Utf8.encode text) printed ∧
      s.print text = (⟨{ s.out with written := s.out.written ++ printed }, s.log⟩,
        if printed = Utf8.encode text then .ok () else .error .limitReached) := by
  obtain ⟨printed, htakes, hwrite⟩ := hs.out.exists_write (Utf8.encode text)
  refine ⟨printed, htakes, ?_⟩
  simp only [Session.print, hwrite]

/-- The session of a run before its reports are flushed. -/
def logging (s : Session) (source : String) : Session :=
  { s with log := s.log.reportAll (Scan.ofText source).reports }

theorem run_of_flush_error {s t : Session} {source : String} {error : IoError}
    (hflush : (s.logging source).flushLog = (t, .error error)) :
    s.run source = (t, .error (.io error)) := by
  rw [logging] at hflush
  simp only [run, hflush]

theorem run_of_print_error {s t u : Session} {source : String} {error : IoError}
    (hflush : (s.logging source).flushLog = (t, .ok ()))
    (hprint : t.print (Scan.ofText source).dump = (u, .error error)) :
    s.run source = (u, .error (.io error)) := by
  rw [logging] at hflush
  simp only [run, hflush, hprint]

theorem run_of_print_ok {s t u : Session} {source : String}
    (hflush : (s.logging source).flushLog = (t, .ok ()))
    (hprint : t.print (Scan.ofText source).dump = (u, .ok ())) :
    s.run source =
      (u, if (Scan.ofText source).errors = [] then .ok ()
        else .error (.scan (Scan.ofText source).errors)) := by
  rw [logging] at hflush
  simp only [run, hflush, hprint, List.isEmpty_iff]

/-- If there is room for the reports of a text or no limit on what is delivered, as much of them is
delivered as there is room for at the writer, behind those that wait. -/
theorem Keeps.exists_flush_logging {outLimit errLimit : Option Nat} {s : Session}
    (hs : s.Keeps outLimit errLimit) (source : String) :
    let errors := (Scan.ofText source).errors
    let owed := s.log.pending ++ errors.flatMap fun e ↦ Utf8.encode (e.display ++ "\n")
    (errLimit = none ∨ owed.length ≤ 8192) →
      ∃ sent rest, sent ++ rest = owed ∧
        Writer.Takes errLimit s.log.writer.written owed sent ∧
        (s.logging source).flushLog =
          (⟨s.out, ⟨{ s.log.writer with written := s.log.writer.written ++ sent }, rest,
              s.log.reported + errors.length⟩⟩,
            if rest = [] then .ok () else .error .limitReached) := by
  intro errors owed hroom
  have howed : s.log.pending ++ (Scan.ofText source).reports.flatMap Log.lineOf = owed := by
    rw [flatMap_lineOf_reports]
  have hlength : (Scan.ofText source).reports.length = errors.length := by
    rw [Scan.reports, List.length_map]
  rcases hroom with hlimit | hroom
  · have hflush := Log.flush_reportAll_of_unlimited (hs.log.1.trans hlimit)
      (Scan.ofText source).reports
    rw [howed, hlength] at hflush
    refine ⟨owed, [], List.append_nil owed, ?_, ?_⟩
    · rw [hlimit]
      exact Writer.takes_all _ _
    · simp only [Session.flushLog, logging, hflush, if_true]
  · rw [← howed, List.length_append] at hroom
    obtain ⟨sent, rest, hsplit, hsent, hflush⟩ :=
      Log.exists_flush (hs.reportAll (Scan.ofText source).reports).log
    have hreported := Log.reportAll_of_room hroom
    rw [howed, hlength] at hreported
    rw [hreported] at hsplit hsent hflush
    refine ⟨sent, rest, hsplit, hsent, ?_⟩
    simp only [Session.flushLog, logging, hreported, hflush]

/-- After any history, a run first delivers as much of the reports, old and new, as there is room
for at the writer, if they are no more than the log has room for or if the writer takes everything.
Unless all of them have arrived nothing is printed; else as much of the tokens is printed as there
is room for, and the errors of the text are the result only if that is all.  The errors are counted
in every case. -/
theorem run_of_history (outLimit errLimit : Option Nat) (history : List Request)
    (source : String) :
    let s := (start (Writer.withLimit outLimit) (Writer.withLimit errLimit)).serveAll history
    let scan := Scan.ofText source
    let owed := s.log.pending ++ scan.errors.flatMap fun e ↦ Utf8.encode (e.display ++ "\n")
    let tokens := Utf8.encode scan.dump
    (errLimit = none ∨ owed.length ≤ 8192) →
      let (after, result) := s.run source
      after.reported = s.reported + scan.errors.length ∧
      ∃ sent, Writer.Takes errLimit s.log.writer.written owed sent ∧
        after.log.writer.written = s.log.writer.written ++ sent ∧
        sent ++ after.log.pending = owed ∧
        if after.log.pending ≠ [] then
          result = .error (.io .limitReached) ∧ after.out = s.out
        else
          ∃ printed, Writer.Takes outLimit s.out.written tokens printed ∧
            after.out.written = s.out.written ++ printed ∧
            result =
              if printed ≠ tokens then .error (.io .limitReached)
              else if scan.errors = [] then .ok () else .error (.scan scan.errors) := by
  intro s scan owed tokens hroom
  have hkeeps : s.Keeps outLimit errLimit := (keeps_start outLimit errLimit).serveAll history
  obtain ⟨sent, rest, hsplit, hsent, hflush⟩ := hkeeps.exists_flush_logging source hroom
  by_cases hrest : rest = []
  · rw [if_pos hrest] at hflush
    have hflushed : Keeps outLimit errLimit (s.logging source).flushLog.1 :=
      (hkeeps.reportAll scan.reports).flushLog
    rw [hflush] at hflushed
    obtain ⟨printed, hprinted, hprint⟩ := hflushed.exists_print scan.dump
    by_cases hall : printed = tokens
    · rw [if_pos hall] at hprint
      rw [run_of_print_ok hflush hprint]
      refine ⟨rfl, sent, hsent, rfl, hsplit, ?_⟩
      rw [if_neg (not_not.2 hrest)]
      exact ⟨printed, hprinted, rfl, (if_neg (not_not.2 hall)).symm⟩
    · rw [if_neg hall] at hprint
      rw [run_of_print_error hflush hprint]
      refine ⟨rfl, sent, hsent, rfl, hsplit, ?_⟩
      rw [if_neg (not_not.2 hrest)]
      exact ⟨printed, hprinted, rfl, (if_pos hall).symm⟩
  · rw [if_neg hrest] at hflush
    rw [run_of_flush_error hflush]
    refine ⟨rfl, sent, hsent, rfl, hsplit, ?_⟩
    rw [if_pos hrest]
    exact ⟨rfl, rfl⟩

/-- The reports of two texts arrive, and the output breaks off in the second line of the second
dump. -/
theorem run_of_history_short_output :
    let s := (start (Writer.withLimit (some 25)) (Writer.withLimit (some 80))).serveAll [.run "@"]
    let owed := Utf8.encode "[line 2] Error: Unexpected character.\n"
    let tokens := Utf8.encode "NUMBER 1 1.0\nEOF  null\n"
    let (after, result) := s.run "1\n$"
    owed.length ≤ 8192 ∧ s.out.written = Utf8.encode "EOF  null\n" ∧
      s.log.writer.written = Utf8.encode "[line 1] Error: Unexpected character.\n" ∧
      after.out.written = Utf8.encode "EOF  null\nNUMBER 1 1.0\nEO" ∧
      result = .error (.io .limitReached) ∧ after.reported = 2 ∧
      ∃ sent, Writer.Takes (some 80) s.log.writer.written owed sent ∧
        after.log.writer.written = s.log.writer.written ++ sent ∧ sent ++ after.log.pending = owed ∧
        ∃ printed, Writer.Takes (some 25) s.out.written tokens printed ∧
          after.out.written = s.out.written ++ printed := by
  intro s owed tokens
  have howed : s.log.pending ++ (Scan.ofText "1\n$").errors.flatMap
      (fun e ↦ Utf8.encode (e.display ++ "\n")) = owed := by decide +kernel
  have htokens : Utf8.encode (Scan.ofText "1\n$").dump = tokens := by decide +kernel
  have hroom : owed.length ≤ 8192 := by decide +kernel
  have hrun := run_of_history (some 25) (some 80) [.run "@"] "1\n$"
  dsimp only at hrun
  rw [howed, htokens] at hrun
  obtain ⟨-, sent, hsent, hwritten, hsplit, hprinted⟩ := hrun (.inr hroom)
  have hpending : (s.run "1\n$").1.log.pending = [] := by decide +kernel
  rw [if_neg (not_not.2 hpending)] at hprinted
  obtain ⟨printed, htakes, hout, -⟩ := hprinted
  exact ⟨hroom, by decide +kernel, by decide +kernel, by decide +kernel, by decide +kernel,
    by decide +kernel, sent, hsent, hwritten, hsplit, printed, htakes, hout⟩

end LoxScan.Session
