import Mathlib.Data.List.DropRight
import LoxScan.Proofs.Report.Room
import LoxScan.Source.Scan

/-!
# Delivery of reports

Whatever is done to a log, in whatever order, its writer has received a beginning of the lines of
all reports ever made, and the log holds the rest of them as long as it has the room for all of
them.  A flush that fails has delivered as much as the writer could take and has lost nothing, so
failed flushes leave no trace in what later ones deliver.  The count of reports starts again at each
reset and takes no notice of flushes.
-/

namespace LoxScan.Log

open Text (Utf8.encode)

/-- What can be done to a log that goes on.  A scan reports the errors of a text. -/
inductive Action where
  | report (r : Report)
  | scan (source : String)
  | flush
  | reset
deriving DecidableEq, Repr

/-- The reports that an action makes. -/
def Action.reports : Action → List Report
  | report r => [r]
  | scan source => (Scan.ofText source).reports
  | flush => []
  | reset => []

/-- The log after an action, which may have failed. -/
def perform (l : Log) : Action → Log
  | .report r => l.report r
  | .scan source => l.reportAll (Scan.ofText source).reports
  | .flush => l.flush.1
  | .reset => l.reset

def performAll (l : Log) (actions : List Action) : Log := actions.foldl perform l

/-- All reports of a history, in order. -/
def reportsOf (actions : List Action) : List Report := actions.flatMap Action.reports

/-- What was done after the last reset. -/
def sinceReset (actions : List Action) : List Action := actions.rtakeWhile (· ≠ .reset)

theorem performAll_concat (l : Log) (actions : List Action) (a : Action) :
    l.performAll (actions ++ [a]) = (l.performAll actions).perform a :=
  List.foldl_concat ..

theorem reportsOf_concat (actions : List Action) (a : Action) :
    reportsOf (actions ++ [a]) = reportsOf actions ++ a.reports := by
  simp [reportsOf]

/-- Nothing is lost, repeated or moved by an action for whose reports there is room, and it reaches
the writer only if it is a flush. -/
theorem perform_of_room {l : Log} {a : Action}
    (hroom : l.pending.length + (a.reports.flatMap lineOf).length ≤ capacity) :
    (l.perform a).emitted = l.emitted ++ a.reports.flatMap lineOf ∧
      (a ≠ .flush → (l.perform a).writer = l.writer) := by
  have hreports {reports : List Report}
      (h : l.pending.length + (reports.flatMap lineOf).length ≤ capacity) :
      (l.reportAll reports).emitted = l.emitted ++ reports.flatMap lineOf ∧
        (l.reportAll reports).writer = l.writer := by
    rw [reportAll_of_room h, emitted, emitted, List.append_assoc]
    exact ⟨rfl, rfl⟩
  cases a with
  | report r =>
    obtain ⟨hemitted, hwriter⟩ := hreports hroom
    exact ⟨hemitted, fun _ ↦ hwriter⟩
  | scan source =>
    obtain ⟨hemitted, hwriter⟩ := hreports hroom
    exact ⟨hemitted, fun _ ↦ hwriter⟩
  | flush => exact ⟨by simp [perform, Action.reports], fun hflush ↦ absurd rfl hflush⟩
  | reset => exact ⟨by simp [perform, Action.reports], fun _ ↦ rfl⟩

theorem keeps_perform {limit : Option Nat} {l : Log} (hl : l.writer.Keeps limit) (a : Action) :
    (l.perform a).writer.Keeps limit := by
  cases a with
  | report r => exact kept_reportAll (fun _ bytes hw ↦ hw.accept bytes) hl [r]
  | scan source => exact kept_reportAll (fun _ bytes hw ↦ hw.accept bytes) hl _
  | flush => exact hl.accept l.pending
  | reset => exact hl

/-- A reset is the only action that takes anything off the count. -/
theorem reported_perform_of_ne_reset (l : Log) {a : Action} (ha : a ≠ .reset) :
    (l.perform a).reported = l.reported + a.reports.length := by
  cases a with
  | report r => rfl
  | scan source => exact reported_reportAll l _
  | flush => rfl
  | reset => exact absurd rfl ha

/-- A flush delivers the longest beginning of the pending bytes that there is room for. -/
theorem exists_flush {limit : Option Nat} {l : Log} (hl : l.writer.Keeps limit) :
    ∃ sent rest, sent ++ rest = l.pending ∧
      Writer.Takes limit l.writer.written l.pending sent ∧
      l.flush = (⟨{ l.writer with written := l.writer.written ++ sent }, rest, l.reported⟩,
        if rest = [] then .ok () else .error .limitReached) := by
  obtain ⟨sent, htakes, haccept, hsplit⟩ := hl.exists_accept l.pending
  refine ⟨sent, (l.writer.accept l.pending).2, hsplit, htakes, ?_⟩
  simp only [flush, haccept, List.isEmpty_iff]

theorem emitted_performAll {l : Log} {actions : List Action}
    (hroom : (l.emitted ++ (reportsOf actions).flatMap lineOf).length ≤ capacity) :
    (l.performAll actions).emitted = l.emitted ++ (reportsOf actions).flatMap lineOf := by
  induction actions using List.reverseRecOn with
  | nil => simp [performAll, reportsOf]
  | append_singleton actions a ih =>
    rw [reportsOf_concat, List.flatMap_append, ← List.append_assoc, List.length_append] at hroom
    have hbefore := ih (by omega)
    have hlength : (l.performAll actions).pending.length ≤
        (l.performAll actions).emitted.length := by
      rw [emitted, List.length_append]
      exact Nat.le_add_left _ _
    rw [hbefore] at hlength
    rw [performAll_concat, (perform_of_room (by omega)).1, hbefore, reportsOf_concat,
      List.flatMap_append, List.append_assoc]

theorem keeps_performAll {limit : Option Nat} {l : Log} (hl : l.writer.Keeps limit)
    (actions : List Action) : (l.performAll actions).writer.Keeps limit := by
  induction actions using List.reverseRecOn with
  | nil => exact hl
  | append_singleton actions a ih =>
    rw [performAll_concat]
    exact keeps_perform ih a

theorem reported_performAll (writer : Writer) (actions : List Action) :
    ((ofWriter writer).performAll actions).reported =
      (reportsOf (sinceReset actions)).length := by
  induction actions using List.reverseRecOn with
  | nil => rfl
  | append_singleton actions a ih =>
    rw [performAll_concat]
    by_cases ha : a = .reset
    · have hsince : sinceReset (actions ++ [a]) = [] :=
        List.rtakeWhile_concat_neg _ _ _ (by simp [ha])
      rw [hsince, ha]
      rfl
    · have hsince : sinceReset (actions ++ [a]) = sinceReset actions ++ [a] :=
        List.rtakeWhile_concat_pos _ _ _ (by simp [ha])
      rw [hsince, reported_perform_of_ne_reset _ ha, ih, reportsOf_concat, List.length_append]

section Arrival

variable {most : Nat} {l : Log} {total : List UInt8}

theorem written_flush (hl : l.writer.Keeps (some most)) (htotal : l.emitted = total) :
    l.flush.1.writer.written = total.take most :=
  (hl.written_accept l.pending).trans (congrArg (List.take most) htotal)

theorem result_flush_of_keeps (hl : l.writer.Keeps (some most)) (htotal : l.emitted = total) :
    l.flush.2 = if total.length ≤ most then .ok () else .error .limitReached := by
  rw [result_flush, ← htotal]
  exact if_congr (hl.accept_snd_eq_nil_iff l.pending) rfl rfl

theorem close_eq (l : Log) : l.close = (l.flush.1, l.flush.2.map fun () ↦ l.flush.1.writer) := rfl

end Arrival

/-- After any history whose reports fit into 8192 bytes together, the bytes that have arrived and
those that wait are the lines of all reports in order.  They arrive only when the log is flushed or
closed, and then as many of them as the limit allows, which succeeds iff these are all.  The count
is that of the reports since the last reset. -/
theorem delivery_of_history (most : Nat) (actions : List Action) :
    let line (r : Report) : List UInt8 :=
      Utf8.encode ("[line " ++ toString r.line ++ "] Error: " ++ r.message ++ "\n")
    let total := (reportsOf actions).flatMap line
    let l := (ofWriter (Writer.withLimit (some most))).performAll actions
    total.length ≤ 8192 →
      l.writer.written ++ l.pending = total ∧
        (∀ a, a ≠ .flush → (total ++ a.reports.flatMap line).length ≤ 8192 →
          (l.perform a).writer = l.writer) ∧
        l.flush.1.writer.written = total.take most ∧
        l.flush.2 = (if total.length ≤ most then .ok () else .error .limitReached) ∧
        l.close.1.writer.written = total.take most ∧
        l.close.2 =
          (if total.length ≤ most then .ok l.close.1.writer else .error .limitReached) ∧
        l.reported = (reportsOf (sinceReset actions)).length := by
  intro line total l hroom
  have hkeeps : l.writer.Keeps (some most) :=
    keeps_performAll (Writer.keeps_withLimit _) actions
  have htotal : l.emitted = total := emitted_performAll hroom
  have hpending : l.pending.length ≤ total.length := by
    rw [← htotal, emitted, List.length_append]
    exact Nat.le_add_left _ _
  have hwritten := written_flush hkeeps htotal
  have hresult := result_flush_of_keeps hkeeps htotal
  have hclose : l.close.2 =
      if total.length ≤ most then .ok l.close.1.writer else .error .limitReached := by
    rw [close_eq, hresult]
    split <;> rfl
  refine ⟨htotal, fun a ha hmore ↦ (perform_of_room ?_).2 ha, hwritten, hresult, hwritten, hclose,
    reported_performAll _ actions⟩
  rw [List.length_append] at hmore
  exact Nat.le_trans (Nat.add_le_add_right hpending _) hmore

/-- A flush fails in the middle of the second line, and the count is taken back before the third. -/
theorem delivery_of_failed_flush :
    let actions : List Action :=
      [.report ⟨1, "a"⟩, .flush, .report ⟨2, "b"⟩, .flush, .reset, .report ⟨3, "c"⟩]
    let total := Utf8.encode "[line 1] Error: a\n[line 2] Error: b\n[line 3] Error: c\n"
    let l := (ofWriter (Writer.withLimit (some 30))).performAll actions
    total.length ≤ 8192 ∧
      l.writer.written = Utf8.encode "[line 1] Error: a\n[line 2] Err" ∧
      l.pending = Utf8.encode "or: b\n[line 3] Error: c\n" ∧
      l.writer.written ++ l.pending = total ∧
      l.flush.1.writer.written = total.take 30 ∧ l.flush.2 = .error .limitReached ∧
      l.close.2 = .error .limitReached ∧ l.reported = 1 := by
  intro actions total l
  have htotal : (reportsOf actions).flatMap (fun r ↦
      Utf8.encode ("[line " ++ toString r.line ++ "] Error: " ++ r.message ++ "\n")) = total := by
    decide +kernel
  have hroom : total.length ≤ 8192 := by decide +kernel
  have hlong : ¬ total.length ≤ 30 := by decide +kernel
  have hdelivery := delivery_of_history 30 actions
  dsimp only at hdelivery
  rw [htotal, if_neg hlong, if_neg hlong] at hdelivery
  obtain ⟨hemitted, -, hwritten, hflush, -, hclose, hreported⟩ := hdelivery hroom
  exact ⟨hroom, by decide +kernel, by decide +kernel, hemitted, hwritten, hflush, hclose,
    hreported⟩

end LoxScan.Log
