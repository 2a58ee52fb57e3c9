import LoxScan.Proofs.Session.Limits
import LoxScan.Text.RoundTrip

/-!
# Sessions over unlimited writers

Writers that take everything never hold a session up, and between two requests it owes no report.
-/

namespace LoxScan.Session

open Text (Utf8.encode)

/-- Both writers take everything and all reports have been delivered. -/
structure Unhindered (s : Session) : Prop where
  out : s.out.limit = none
  log : s.log.writer.limit = none
  pending : s.log.pending = []

theorem unhindered_start (shown told : List UInt8) :
    (start ⟨none, shown⟩ ⟨none, told⟩).Unhindered :=
  ⟨rfl, rfl, rfl⟩

/-- The session after further bytes have arrived at its two writers, with a new count of its
reports. -/
def deliver (s : Session) (shown told : List UInt8) (count : Nat) : Session :=
  ⟨{ s.out with written := s.out.written ++ shown },
    ⟨{ s.log.writer with written := s.log.writer.written ++ told }, [], count⟩⟩

theorem deliver_deliver (s : Session) (shown told shown' told' : List UInt8) (count count' : Nat) :
    (s.deliver shown told count).deliver shown' told' count' =
      s.deliver (shown ++ shown') (told ++ told') count' := by
  simp only [deliver, List.append_assoc]

namespace Unhindered

variable {s : Session}

theorem deliver (h : s.Unhindered) (shown told : List UInt8) (count : Nat) :
    (s.deliver shown told count).Unhindered :=
  ⟨h.out, h.log, rfl⟩

theorem deliver_nil (h : s.Unhindered) : s.deliver [] [] s.reported = s := by
  rcases s with ⟨out, writer, pending, count⟩
  have hpending : pending = [] := h.pending
  simp only [Session.deliver, reported, hpending, List.append_nil]

theorem print (h : s.Unhindered) (text : String) :
    s.print text = (s.deliver (Utf8.encode text) [] s.reported, .ok ()) := by
  rcases s with ⟨out, writer, pending, count⟩
  have hpending : pending = [] := h.pending
  simp only [Session.print, Writer.write, Writer.accept_of_unlimited h.out, Session.deliver,
    reported, hpending, List.append_nil, List.isEmpty_nil, if_true]

theorem flushLog_reportAll (h : s.Unhindered) (reports : List Report) :
    flushLog { s with log := s.log.reportAll reports } =
      (s.deliver [] (reports.flatMap Log.lineOf) (s.reported + reports.length), .ok ()) := by
  simp only [flushLog, Log.flush_reportAll_of_unlimited h.log, h.pending, Session.deliver, reported,
    List.nil_append, List.append_nil]

/-- A run delivers its errors, then its tokens. -/
theorem run (h : s.Unhindered) (source : String) :
    let scan := Scan.ofText source
    s.run source =
      (s.deliver (Utf8.encode scan.dump)
          (scan.errors.flatMap fun e ↦ Utf8.encode (e.display ++ "\n"))
          (s.reported + scan.errors.length),
        if scan.errors = [] then .ok () else .error (.scan scan.errors)) := by
  intro scan
  have hflush := h.flushLog_reportAll scan.reports
  have hprint := (h.deliver [] (scan.reports.flatMap Log.lineOf)
    (s.reported + scan.reports.length)).print scan.dump
  rw [deliver_deliver] at hprint
  rw [run_of_print_ok hflush hprint, flatMap_lineOf_reports, Scan.reports, List.length_map,
    List.nil_append, List.append_nil]
  rfl

end Unhindered

/-- Running a file that holds a text is running the text. -/
theorem runFile_encode (s : Session) (source : String) :
    s.runFile (.ok (Utf8.encode source)) = s.run source := by
  rw [runFile, Except.bind, Feed.decodeLine, Text.Utf8.decode?_encode]

theorem preserved_unhindered : Preserved Unhindered where
  print s text h := by
    rw [h.print]
    exact h.deliver _ _ _
  report s reports h := by
    rw [h.flushLog_reportAll]
    exact h.deliver _ _ _
  reset s h := ⟨h.out, h.log, h.pending⟩

end LoxScan.Session
