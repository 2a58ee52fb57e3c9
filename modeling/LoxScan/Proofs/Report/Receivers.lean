import LoxScan.Proofs.Session.Limits
import LoxScan.Report.Receiver

/-!
# Accounts of the errors of a scan

An error is recorded in the scan and handed to the receiver by the same step, so at every point of
the text the receiver has been told exactly what the scan has recorded, in the same order.  What it
does with the reports never comes back: the scan is the same for every receiver, and its errors,
the reports of a list, the lines of a log and the result of a session tell the same story.
-/

namespace LoxScan

open Text (Utf8.encode)

namespace Receiver

/-- A receiver that has been handed reports one after another. -/
def reportAll (receiver : Receiver) (reports : List Report) : Receiver :=
  reports.foldl report receiver

theorem reportAll_concat (receiver : Receiver) (reports : List Report) (r : Report) :
    receiver.reportAll (reports ++ [r]) = (receiver.reportAll reports).report r :=
  List.foldl_concat ..

theorem reportAll_collect (received reports : List Report) :
    (collect received).reportAll reports = collect (received ++ reports) := by
  induction reports using List.reverseRecOn with
  | nil => rw [List.append_nil, reportAll, List.foldl_nil]
  | append_singleton reports r ih => rw [reportAll_concat, ih, report, List.append_assoc]

theorem reportAll_log (l : Log) (reports : List Report) :
    (log l).reportAll reports = log (l.reportAll reports) := by
  induction reports using List.reverseRecOn with
  | nil => rfl
  | append_singleton reports r ih =>
    rw [reportAll_concat, ih, Log.reportAll, Log.reportAll, List.foldl_concat]
    rfl

theorem reportAll_discard (reports : List Report) : discard.reportAll reports = discard := by
  induction reports using List.reverseRecOn with
  | nil => rfl
  | append_singleton reports r ih =>
    rw [reportAll_concat, ih]
    rfl

end Receiver

namespace Scanning

variable {first : Receiver} {s : Scanning}

/-- What stands for a token stands for no error. -/
theorem error?_of_token? {p : Piece} {line line' : UInt32} {t : Token}
    (h : p.token? line = some t) : p.error? line' = none := by
  cases p with
  | stray | openString | openComment => cases h
  | _ => rfl

theorem newlines_step (s : Scanning) (p : Piece) :
    (s.step p).newlines = s.newlines + p.newlines := by
  unfold step
  dsimp only
  split
  · rfl
  · split <;> rfl

theorem tokens_step (s : Scanning) (p : Piece) :
    (s.step p).tokens =
      s.tokens ++ (p.token? (Scan.lineAfter (s.newlines + p.newlines))).toList := by
  unfold step
  dsimp only
  split
  · next htoken =>
    rw [htoken]
    rfl
  · next htoken =>
    rw [htoken, Option.toList_none, List.append_nil]
    split <;> rfl

theorem errors_step (s : Scanning) (p : Piece) :
    (s.step p).errors = s.errors ++ (p.error? (Scan.lineAfter s.newlines)).toList := by
  unfold step
  dsimp only
  split
  · next htoken =>
    rw [error?_of_token? htoken, Option.toList_none, List.append_nil]
    rfl
  · split
    · next herror =>
      rw [herror]
      rfl
    · next herror => rw [herror, Option.toList_none, List.append_nil]

/-- The receiver has been handed a report of every recorded error and nothing else. -/
def Accounts (first : Receiver) (s : Scanning) : Prop :=
  s.receiver = first.reportAll (s.errors.map LexicalError.report)

theorem accounts_start (receiver : Receiver) : Accounts receiver (start receiver) := rfl

theorem Accounts.addError (h : Accounts first s) (e : LexicalError) :
    Accounts first (s.addError e) := by
  unfold Accounts at *
  rw [Scanning.addError, List.map_append, List.map_singleton, Receiver.reportAll_concat, ← h]
  rfl

theorem Accounts.step (h : Accounts first s) (p : Piece) : Accounts first (s.step p) := by
  unfold Scanning.step
  dsimp only
  split
  · exact h
  · split
    · apply Accounts.addError
      exact h
    · exact h

theorem Accounts.foldl_step (h : Accounts first s) (pieces : List Piece) :
    Accounts first (pieces.foldl Scanning.step s) := by
  induction pieces generalizing s with
  | nil => exact h
  | cons p pieces ih =>
    rw [List.foldl_cons]
    apply ih
    exact h.step p

/-- What is found does not depend on the receiver. -/
theorem finish_foldl_step (s : Scanning) (pieces : List Piece) :
    (pieces.foldl step s).finish =
      ⟨s.tokens ++ Scan.tokensFrom s.newlines pieces,
        s.errors ++ Scan.errorsFrom s.newlines pieces⟩ := by
  induction pieces generalizing s with
  | nil => rw [List.foldl_nil, finish, Scan.tokensFrom, Scan.errorsFrom, List.append_nil]
  | cons p pieces ih =>
    rw [List.foldl_cons, ih, tokens_step, errors_step, newlines_step, Scan.tokensFrom,
      Scan.errorsFrom, List.append_assoc, List.append_assoc]

end Scanning

namespace Receiver

theorem scan_fst (receiver : Receiver) (source : String) :
    (receiver.scan source).1 = Scan.ofText source := by
  rw [scan, Scanning.finish_foldl_step]
  rfl

theorem scan_snd (receiver : Receiver) (source : String) :
    (receiver.scan source).2 = receiver.reportAll (Scan.ofText source).reports := by
  have haccounts := (Scanning.accounts_start receiver).foldl_step (Piece.cutAll source.toList)
  have herrors : ((Piece.cutAll source.toList).foldl Scanning.step
      (Scanning.start receiver)).errors = (Scan.ofText source).errors :=
    congrArg Scan.errors (scan_fst receiver source)
  rw [Scanning.Accounts, herrors] at haccounts
  exact haccounts

end Receiver

/-- Nothing holds up a run whose writers take everything, whatever is still pending. -/
theorem Session.result_run {s : Session} (hout : s.out.limit = none)
    (hlog : s.log.writer.limit = none) (source : String) :
    (s.run source).2 = if (Scan.ofText source).errors = [] then .ok ()
      else .error (.scan (Scan.ofText source).errors) := by
  obtain ⟨t, hflush, ht⟩ : ∃ t, (s.logging source).flushLog = (t, .ok ()) ∧ t.out = s.out := by
    simp only [Session.flushLog, logging, Log.flush_reportAll_of_unlimited hlog]
    exact ⟨_, rfl, rfl⟩
  obtain ⟨u, hprint⟩ : ∃ u, t.print (Scan.ofText source).dump = (u, .ok ()) := by
    simp only [Session.print, Writer.write, ht, Writer.accept_of_unlimited hout]
    exact ⟨_, rfl⟩
  rw [run_of_print_ok hflush hprint]

/-- The lines of a scan gather in a log that has room for them, and they all reach a writer without
a limit. -/
theorem Log.emitted_reportAll {l : Log} {reports : List Report}
    (hroom : l.writer.limit = none ∨
      l.pending.length + (reports.flatMap lineOf).length ≤ capacity) :
    (l.reportAll reports).emitted = l.emitted ++ reports.flatMap lineOf := by
  rcases hroom with hlimit | hroom
  · rw [← emitted_flush, flush_reportAll_of_unlimited hlimit, emitted, emitted, List.append_nil,
      List.append_assoc]
  · rw [reportAll_of_room hroom, emitted, emitted, List.append_assoc]

end LoxScan
