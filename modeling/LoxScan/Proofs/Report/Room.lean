import LoxScan.Proofs.Stream.LimitedWriter
import LoxScan.Report.Log

/-!
# The room of a log

However the lines of a log come upon the end of its room, the writer receives what it would receive
of all of them at once: bytes are dropped only behind others that the writer has not taken, and then
it takes none of those that come later.  Lines for which there is room wait, all of them, and lines
over a writer without a limit arrive, all of them.
-/

namespace LoxScan.Log

open Text (Utf8.encode)

/-- The writer after everything that waits has been offered to it. -/
def arrived (l : Log) : Writer := (l.writer.accept l.pending).1

variable {l m : Log} {bytes : List UInt8} {error : IoError}

theorem result_flush (l : Log) :
    l.flush.2 = if (l.writer.accept l.pending).2 = [] then .ok () else .error .limitReached := by
  simp [flush]

theorem arrived_hold_flush (l : Log) (later : List UInt8) :
    (l.flush.1.hold later).arrived = (l.hold later).arrived := by
  simp only [arrived, hold, flush, Writer.accept_append l.writer l.pending]

theorem pending_flush_of_ok (h : l.flush.2 = .ok ()) : l.flush.1.pending = [] := by
  rw [result_flush] at h
  split at h
  · next hrest => exact hrest
  · cases h

/-- Nothing arrives any more after a flush that has failed. -/
theorem arrived_hold_flush_of_error (h : l.flush.2 = .error error) (later : List UInt8) :
    (l.flush.1.hold later).arrived = l.flush.1.writer := by
  rw [result_flush] at h
  split at h
  · cases h
  · next hrest =>
    simp only [arrived, hold, flush, Writer.accept_of_left_over hrest]

/-- There is room for some bytes, or nothing waits. -/
theorem makeRoom_eq_ok {size : Nat} (h : l.makeRoom size = (m, .ok ())) :
    (∀ later, (m.hold later).arrived = (l.hold later).arrived) ∧
      (m.pending.length + size ≤ capacity ∨ m.pending = []) := by
  rw [makeRoom] at h
  split at h
  · next hroom =>
    cases h
    exact ⟨fun _ ↦ rfl, .inl hroom⟩
  · have hm : l.flush.1 = m := congrArg Prod.fst h
    have hresult : l.flush.2 = .ok () := congrArg Prod.snd h
    rw [← hm]
    exact ⟨arrived_hold_flush l, .inr (pending_flush_of_ok hresult)⟩

theorem makeRoom_eq_error {size : Nat} (h : l.makeRoom size = (m, .error error))
    (later later' : List UInt8) : (m.hold later).arrived = (l.hold later').arrived := by
  rw [makeRoom] at h
  split at h
  · cases h
  · have hm : l.flush.1 = m := congrArg Prod.fst h
    have hresult : l.flush.2 = .error error := congrArg Prod.snd h
    rw [← arrived_hold_flush l later', ← hm, arrived_hold_flush_of_error hresult,
      arrived_hold_flush_of_error hresult]

/-- Bytes that are as long as the room find nothing waiting. -/
theorem pending_eq_nil_of_long {size : Nat}
    (h : l.pending.length + size ≤ capacity ∨ l.pending = []) (hlong : ¬ size < capacity) :
    l.pending = [] := by
  rcases h with hroom | hnil
  · apply List.eq_nil_of_length_eq_zero
    omega
  · exact hnil

/-- Bytes that have been appended arrive in front of those that come later. -/
theorem append_eq_ok (h : l.append bytes = (m, .ok ())) (later : List UInt8) :
    (m.hold later).arrived = (l.hold (bytes ++ later)).arrived := by
  rw [append] at h
  split at h
  · cases h
  · next roomy hmake =>
    obtain ⟨harrived, hroom⟩ := makeRoom_eq_ok hmake
    rw [← harrived]
    split at h
    · cases h
      simp only [hold, List.append_assoc]
    · next hlong =>
      have hm : { roomy with writer := (roomy.writer.accept bytes).1 } = m := congrArg Prod.fst h
      have hresult : (roomy.writer.write bytes).2 = .ok () := congrArg Prod.snd h
      have hrest : (roomy.writer.accept bytes).2 = [] := by
        simp only [Writer.write] at hresult
        split at hresult
        · next hrest => exact List.isEmpty_iff.1 hrest
        · cases hresult
      rw [← hm]
      simp only [arrived, hold, pending_eq_nil_of_long hroom hlong, List.nil_append,
        Writer.accept_append roomy.writer bytes, hrest]

/-- If bytes are dropped, the writer takes nothing more. -/
theorem append_eq_error (h : l.append bytes = (m, .error error)) (later later' : List UInt8) :
    (m.hold later).arrived = (l.hold (bytes ++ later')).arrived := by
  rw [append] at h
  split at h
  · next failed _ hmake =>
    cases h
    exact makeRoom_eq_error hmake later _
  · next roomy hmake =>
    obtain ⟨harrived, hroom⟩ := makeRoom_eq_ok hmake
    rw [← harrived]
    split at h
    · cases h
    · next hlong =>
      have hm : { roomy with writer := (roomy.writer.accept bytes).1 } = m := congrArg Prod.fst h
      have hresult : (roomy.writer.write bytes).2 = .error error := congrArg Prod.snd h
      have hrest : (roomy.writer.accept bytes).2 ≠ [] := fun hnil ↦ by
        simp only [Writer.write, hnil] at hresult
        cases hresult
      rw [← hm]
      simp only [arrived, hold, pending_eq_nil_of_long hroom hlong, List.nil_append,
        Writer.accept_append roomy.writer bytes, Writer.accept_of_left_over hrest]

/-- Whether or not all parts could be appended, what arrives is what would arrive if they could. -/
theorem arrived_hold_appendAll (l : Log) (parts : List (List UInt8)) (later : List UInt8) :
    ((l.appendAll parts).1.hold later).arrived = (l.hold (parts.flatten ++ later)).arrived := by
  induction parts generalizing l with
  | nil => rfl
  | cons part parts ih =>
    rw [appendAll, List.flatten_cons, List.append_assoc]
    split
    · next herror => exact append_eq_error herror later _
    · next hok => rw [ih, append_eq_ok hok]

theorem flatten_parts (r : Report) : (r.parts.map Utf8.encode).flatten = lineOf r := by
  simp [Report.parts, lineOf, Report.display]

theorem arrived_hold_report (l : Log) (r : Report) (later : List UInt8) :
    ((l.report r).hold later).arrived = (l.hold (lineOf r ++ later)).arrived := by
  rw [← flatten_parts]
  exact arrived_hold_appendAll l _ later

/-- In any state of the log and for any reports, what has arrived after a flush is as much as the
writer takes of what was waiting and the lines of the reports behind it. -/
theorem arrived_hold_reportAll (l : Log) (reports : List Report) (later : List UInt8) :
    ((l.reportAll reports).hold later).arrived =
      (l.hold (reports.flatMap lineOf ++ later)).arrived := by
  unfold reportAll
  induction reports generalizing l with
  | nil => rfl
  | cons r reports ih =>
    rw [List.foldl_cons, ih, arrived_hold_report, List.flatMap_cons, List.append_assoc]

theorem append_of_room (hroom : l.pending.length + bytes.length ≤ capacity)
    (hshort : bytes.length < capacity) : l.append bytes = (l.hold bytes, .ok ()) := by
  simp only [append, makeRoom, if_pos hroom, if_pos hshort]

theorem appendAll_of_room {parts : List (List UInt8)}
    (hroom : l.pending.length + parts.flatten.length ≤ capacity)
    (hshort : ∀ part ∈ parts, part.length < capacity) :
    l.appendAll parts = (l.hold parts.flatten, .ok ()) := by
  induction parts generalizing l with
  | nil => simp [appendAll, hold]
  | cons part parts ih =>
    obtain ⟨hpart, hparts⟩ := List.forall_mem_cons.1 hshort
    rw [List.flatten_cons, List.length_append] at hroom
    rw [appendAll, append_of_room (by omega) hpart]
    have hrest : (l.hold part).pending.length + parts.flatten.length ≤ capacity := by
      simp only [hold, List.length_append]
      omega
    dsimp only
    rw [ih hrest hparts]
    simp only [hold, List.flatten_cons, List.append_assoc]

/-- A report for which there is room waits as a whole. -/
theorem report_of_room {r : Report} (hroom : l.pending.length + (lineOf r).length ≤ capacity) :
    l.report r = ⟨l.writer, l.pending ++ lineOf r, l.reported + 1⟩ := by
  rw [← flatten_parts] at hroom
  have hshort : ∀ part ∈ r.parts.map Utf8.encode, part.length < capacity := by
    have hfirst : (Utf8.encode "[line ").length = 6 := by decide
    have hlast : (Utf8.encode "\n").length = 1 := by decide
    simp only [Report.parts, List.map_cons, List.map_nil, List.flatten_cons, List.flatten_nil,
      List.length_append, List.forall_mem_cons] at hroom ⊢
    refine ⟨?_, ?_, ?_, ?_, ?_, List.forall_mem_nil _⟩ <;> omega
  rw [report, appendAll_of_room hroom hshort, flatten_parts]
  rfl

/-- Reports for which there is room all wait. -/
theorem reportAll_of_room {reports : List Report}
    (hroom : l.pending.length + (reports.flatMap lineOf).length ≤ capacity) :
    l.reportAll reports =
      ⟨l.writer, l.pending ++ reports.flatMap lineOf, l.reported + reports.length⟩ := by
  unfold reportAll
  induction reports generalizing l with
  | nil => simp
  | cons r reports ih =>
    rw [List.flatMap_cons, List.length_append] at hroom
    rw [List.foldl_cons, report_of_room (by omega), ih]
    · simp only [List.flatMap_cons, List.append_assoc, List.length_cons, Nat.add_assoc,
        Nat.add_comm 1]
    · rw [List.length_append]
      omega

section Kept

variable {P : Writer → Prop} (hP : ∀ w bytes, P w → P (Writer.accept w bytes).1)

include hP

/-- What outlasts every write outlasts reports. -/
theorem kept_append (hl : P l.writer) (bytes : List UInt8) : P (l.append bytes).1.writer := by
  have hroom : P (l.makeRoom bytes.length).1.writer := by
    rw [makeRoom]
    split
    · exact hl
    · exact hP _ _ hl
  rw [append]
  split
  · next hmake =>
    rw [hmake] at hroom
    exact hroom
  · next hmake =>
    rw [hmake] at hroom
    split
    · exact hroom
    · exact hP _ _ hroom

theorem kept_appendAll (hl : P l.writer) (parts : List (List UInt8)) :
    P (l.appendAll parts).1.writer := by
  induction parts generalizing l with
  | nil => exact hl
  | cons part parts ih =>
    have hpart := kept_append hP hl part
    rw [appendAll]
    split
    · next happend =>
      rw [happend] at hpart
      exact hpart
    · next happend =>
      rw [happend] at hpart
      exact ih hpart

theorem kept_reportAll (hl : P l.writer) (reports : List Report) :
    P (l.reportAll reports).writer := by
  unfold reportAll
  induction reports generalizing l with
  | nil => exact hl
  | cons r reports ih => exact ih (kept_appendAll hP hl _)

end Kept

theorem limit_reportAll (l : Log) (reports : List Report) :
    (l.reportAll reports).writer.limit = l.writer.limit :=
  kept_reportAll (P := fun w ↦ w.limit = l.writer.limit)
    (fun w bytes hw ↦ (w.limit_accept bytes).trans hw) rfl reports

/-- Without a limit nothing is lost. -/
theorem flush_reportAll_of_unlimited (hl : l.writer.limit = none) (reports : List Report) :
    (l.reportAll reports).flush =
      (⟨{ l.writer with written := l.writer.written ++ (l.pending ++ reports.flatMap lineOf) }, [],
          l.reported + reports.length⟩, .ok ()) := by
  have hlimit := (l.limit_reportAll reports).trans hl
  have harrived := l.arrived_hold_reportAll reports []
  simp only [arrived, hold, List.append_nil, Writer.accept_of_unlimited hlimit,
    Writer.accept_of_unlimited hl] at harrived
  simp only [flush, Writer.accept_of_unlimited hlimit, harrived, reported_reportAll]
  rfl

end LoxScan.Log
