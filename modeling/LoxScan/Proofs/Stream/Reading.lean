import Mathlib.Data.List.TakeWhile
import LoxScan.Proofs.Stream.ByteLines
import LoxScan.Stream.Feed

/-!
# Reading lines from deliveries

Lines that are read one at a time are the lines of the feed as a whole: where a chunk ends and where
a read is interrupted leaves no trace in them.  Up to a read that fails otherwise, these are the
lines that have come to their end; of the bytes behind them nothing is read.
-/

namespace LoxScan

namespace Delivery

/-- The bytes that a read delivers. -/
def bytes : Delivery → List UInt8
  | .chunk c => c.bytes
  | .failure _ => []

/-- A read that fails and is not tried again. -/
def Fails (d : Delivery) : Prop := ∃ error, d = failure error ∧ error.kind ≠ .interrupted

end Delivery

namespace Feed

theorem ofDeliveries_cons_chunk (chunk : Chunk) (later : List Delivery) :
    ofDeliveries (.chunk chunk :: later) = ofBytes chunk.bytes ++ ofDeliveries later :=
  rfl

theorem ofDeliveries_ofBytes_append (bytes : List UInt8) (later : List Delivery) :
    ofDeliveries (Delivery.ofBytes bytes ++ later) = ofBytes bytes ++ ofDeliveries later := by
  rw [Delivery.ofBytes]
  split
  · next hnil => rw [hnil]; rfl
  · rfl

theorem ofDeliveries_cons_interruption {error : IoError} (h : error.kind = .interrupted)
    (later : List Delivery) : ofDeliveries (.failure error :: later) = ofDeliveries later := by
  simp [ofDeliveries, isInterruption, h]

theorem ofDeliveries_cons_failure {error : IoError} (h : error.kind ≠ .interrupted)
    (later : List Delivery) :
    ofDeliveries (.failure error :: later) = .error error :: ofDeliveries later := by
  simp [ofDeliveries, isInterruption, ofDelivery, h]

theorem ofBytes_append (bytes other : List UInt8) :
    ofBytes (bytes ++ other) = ofBytes bytes ++ ofBytes other :=
  List.map_append

/-- Reads that do not fail make a feed of their bytes. -/
theorem ofDeliveries_append_of_not_fails {before : List Delivery}
    (hbefore : ∀ d ∈ before, ¬ d.Fails) (later : List Delivery) :
    ofDeliveries (before ++ later) =
      ofBytes (before.flatMap Delivery.bytes) ++ ofDeliveries later := by
  induction before with
  | nil => rfl
  | cons d before ih =>
    obtain ⟨hd, hlater⟩ := List.forall_mem_cons.1 hbefore
    cases d with
    | chunk chunk =>
      rw [List.cons_append, ofDeliveries_cons_chunk, ih hlater, List.flatMap_cons, ofBytes_append,
        List.append_assoc]
      rfl
    | failure error =>
      have hkind : error.kind = .interrupted := not_not.1 fun h ↦ hd ⟨error, rfl, h⟩
      rw [List.cons_append, ofDeliveries_cons_interruption hkind, ih hlater, List.flatMap_cons]
      rfl

/-- A failure takes the bytes in front of it along. -/
theorem foldr_extendFirst_error (bytes : List UInt8) (error : IoError)
    (later : List (Except IoError (List UInt8))) :
    bytes.foldr extendFirst (.error error :: later) = .error error :: later := by
  induction bytes with
  | nil => rfl
  | cons b bytes ih => rw [List.foldr_cons, ih]; rfl

theorem lines_error (error : IoError) (rest : Feed) :
    lines (.error error :: rest) = .error error :: lines rest := by
  rw [lines]

/-- An unfinished line is lost. -/
theorem lines_ofBytes_append_error {line : List UInt8} (hline : 0x0A ∉ line) (error : IoError)
    (rest : Feed) :
    lines (ofBytes line ++ .error error :: rest) = .error error :: lines rest := by
  rw [lines_ofBytes_append hline (.inr (by simp)), lines_error, foldr_extendFirst_error]

/-- A finished line is read without its ending. -/
theorem lines_ofBytes_append_newline {line : List UInt8} (hline : 0x0A ∉ line) (rest : Feed) :
    lines (ofBytes line ++ .ok 0x0A :: rest) =
      .ok (Reader.withoutReturn line) :: lines rest := by
  by_cases hreturn : line.getLast? = some 0x0D
  · obtain ⟨front, rfl⟩ := List.getLast?_eq_some_iff.1 hreturn
    have hfront : 0x0A ∉ front := fun h ↦ hline (List.mem_append_left _ h)
    have hwithout : Reader.withoutReturn (front ++ [0x0D]) = front := by
      rw [Reader.withoutReturn, if_pos hreturn, List.dropLast_concat]
    rw [hwithout, ofBytes_append, List.append_assoc]
    change lines (ofBytes front ++ .ok 0x0D :: .ok 0x0A :: rest) = _
    rw [lines_ofBytes_append hfront (.inr (by simp)), lines_pair, foldr_extendFirst_ok,
      List.append_nil]
  · rw [Reader.withoutReturn, if_neg hreturn, lines_ofBytes_append hline (.inl hreturn),
      lines_newline, foldr_extendFirst_ok, List.append_nil]

/-- Bytes of which every line has come to its end. -/
def Finished (bytes : List UInt8) : Prop := bytes = [] ∨ bytes.getLast? = some 0x0A

theorem exists_finished_append (bytes : List UInt8) :
    ∃ finished unfinished, bytes = finished ++ unfinished ∧ Finished finished ∧
      0x0A ∉ unfinished := by
  induction bytes using Text.Split.induction_on_separator (0x0A : UInt8) with
  | last line hline => exact ⟨[], line, rfl, .inl rfl, hline⟩
  | ended line rest hline ih =>
    obtain ⟨finished, unfinished, rfl, hfinished, hunfinished⟩ := ih
    refine ⟨line ++ 0x0A :: finished, unfinished, by simp, .inr ?_, hunfinished⟩
    rcases hfinished with rfl | hlast
    · simp
    · rw [List.getLast?_append, List.getLast?_cons, hlast]
      rfl

theorem Finished.of_newline_cons {line rest : List UInt8}
    (h : Finished (line ++ 0x0A :: rest)) : Finished rest := by
  rcases h with hnil | hlast
  · simp at hnil
  · cases rest with
    | nil => exact .inl rfl
    | cons b rest =>
      rw [List.getLast?_append, List.getLast?_cons_cons] at hlast
      rw [List.getLast?_eq_some_getLast (List.cons_ne_nil b rest), Option.some_or] at hlast
      rw [Finished, List.getLast?_eq_some_getLast (List.cons_ne_nil b rest)]
      exact .inr hlast

/-- Finished lines are read whatever follows them. -/
theorem FallsInto.lines_append {bytes : List UInt8} {ls : List (List UInt8)}
    (h : FallsInto bytes ls) (hfinished : Finished bytes) (rest : Feed) :
    lines (ofBytes bytes ++ rest) = ls.map .ok ++ lines rest := by
  induction h with
  | nil => rfl
  | last hne hline =>
    rcases hfinished with hnil | hlast
    · exact absurd hnil hne
    · exact absurd (List.mem_of_getLast? hlast) hline
  | @newline line later ls hline hreturn hrest ih =>
    rw [ofBytes_append, List.append_assoc]
    change lines (ofBytes line ++ .ok 0x0A :: (ofBytes later ++ rest)) = _
    rw [lines_ofBytes_append_newline hline, Reader.withoutReturn, if_neg hreturn,
      ih hfinished.of_newline_cons]
    rfl
  | @pair line later ls hline hrest ih =>
    have hreturned : 0x0A ∉ line ++ [0x0D] := by simp [hline]
    have hwithout : Reader.withoutReturn (line ++ [0x0D]) = line := by
      simp [Reader.withoutReturn]
    have hbytes : line ++ 0x0D :: 0x0A :: later = (line ++ [0x0D]) ++ 0x0A :: later := by simp
    rw [hbytes] at hfinished ⊢
    rw [ofBytes_append, List.append_assoc]
    change lines (ofBytes (line ++ [0x0D]) ++ .ok 0x0A :: (ofBytes later ++ rest)) = _
    rw [lines_ofBytes_append_newline hreturned, hwithout, ih hfinished.of_newline_cons]
    rfl

end Feed

namespace Reader

open Feed

variable {carried : List UInt8} {input left : List Delivery} {line : Except IoError (List UInt8)}

/-- Bytes with a newline are those in front of the first one and those behind it. -/
theorem eq_append_newline_of_dropWhile {bytes rest : List UInt8} {b : UInt8}
    (h : bytes.dropWhile (· ≠ 0x0A) = b :: rest) :
    bytes = bytes.takeWhile (· ≠ 0x0A) ++ 0x0A :: rest ∧ 0x0A ∉ bytes.takeWhile (· ≠ 0x0A) := by
  have hb : b = 0x0A := by
    have hhead := List.head?_dropWhile_not (fun c : UInt8 ↦ decide (c ≠ 0x0A)) bytes
    rw [h] at hhead
    simpa using hhead
  have hsplit := List.takeWhile_append_dropWhile (p := fun c ↦ decide (c ≠ 0x0A)) (l := bytes)
  rw [h, hb] at hsplit
  exact ⟨hsplit.symm, fun hmem ↦ by simpa using List.mem_takeWhile_imp hmem⟩

theorem lines_of_readLine?_eq_none (h : readLine? carried input = none) :
    carried = [] ∧ lines (ofDeliveries input) = [] := by
  fun_induction readLine? carried input with
  | case1 => exact ⟨rfl, rfl⟩
  | case2 => cases h
  | case3 carried error later hkind ih =>
    rw [ofDeliveries_cons_interruption hkind]
    exact ih h
  | case4 => cases h
  | case5 carried chunk later hdrop ih =>
    obtain ⟨hnil, -⟩ := ih h
    exact absurd (List.append_eq_nil_iff.1 hnil).2 chunk.nonempty
  | case6 => cases h

/-- The line that is read is the first one of the feed, and what is left holds the others. -/
theorem lines_of_readLine?_eq_some (hcarried : 0x0A ∉ carried)
    (h : readLine? carried input = some (line, left)) :
    lines (ofBytes carried ++ ofDeliveries input) = line :: lines (ofDeliveries left) := by
  fun_induction readLine? carried input with
  | case1 => cases h
  | case2 carried hne =>
    cases h
    rw [lines_ofBytes_append hcarried (.inr (by simp [ofDeliveries]))]
    exact foldr_extendFirst_nil hne
  | case3 carried error later hkind ih =>
    rw [ofDeliveries_cons_interruption hkind]
    exact ih hcarried h
  | case4 carried error later hkind =>
    cases h
    rw [ofDeliveries_cons_failure hkind, lines_ofBytes_append_error hcarried]
  | case5 carried chunk later hdrop ih =>
    have hbytes : 0x0A ∉ chunk.bytes := fun hmem ↦ by
      simpa using List.dropWhile_eq_nil_iff.1 hdrop _ hmem
    have hcarried' : 0x0A ∉ carried ++ chunk.bytes := by simp [hcarried, hbytes]
    rw [ofDeliveries_cons_chunk, ← List.append_assoc, ← ofBytes_append]
    exact ih hcarried' h
  | case6 carried chunk later b rest hdrop =>
    cases h
    obtain ⟨hbytes, htaken⟩ := eq_append_newline_of_dropWhile hdrop
    have hfeed : ofBytes carried ++ ofDeliveries (.chunk chunk :: later) =
        ofBytes (carried ++ chunk.bytes.takeWhile (· ≠ 0x0A)) ++
          .ok 0x0A :: ofDeliveries (Delivery.ofBytes rest ++ later) := by
      rw [ofDeliveries_cons_chunk, ofDeliveries_ofBytes_append, ofBytes_append, List.append_assoc,
        congrArg ofBytes hbytes, ofBytes_append, List.append_assoc]
      rfl
    rw [hfeed]
    exact lines_ofBytes_append_newline (List.not_mem_append hcarried htaken) _

theorem entries_of_readLine?_eq_none (h : readLine? [] input = none) :
    (ofDeliveries input).entries = [] := by
  rw [entries, (lines_of_readLine?_eq_none h).2, List.map_nil]

theorem entries_of_readLine?_eq_some (h : readLine? [] input = some (line, left)) :
    (ofDeliveries input).entries = line.bind decodeLine :: (ofDeliveries left).entries := by
  have hlines := lines_of_readLine?_eq_some List.not_mem_nil h
  rw [entries, ← List.nil_append (ofDeliveries input)]
  change (lines (ofBytes [] ++ _)).map _ = _
  rw [hlines, List.map_cons]
  rfl

end Reader

/-- The chunks make up the bytes; reads may be interrupted anywhere. -/
inductive Delivers : List UInt8 → List Delivery → Prop where
  | nil : Delivers [] []
  | chunk (chunk : Chunk) {later : List UInt8} {input : List Delivery}
      (hlater : Delivers later input) : Delivers (chunk.bytes ++ later) (.chunk chunk :: input)
  | interruption {bytes : List UInt8} {input : List Delivery} {error : IoError}
      (hkind : error.kind = .interrupted) (hlater : Delivers bytes input) :
      Delivers bytes (.failure error :: input)

theorem Delivers.ofDeliveries_eq {bytes : List UInt8} {input : List Delivery}
    (h : Delivers bytes input) : Feed.ofDeliveries input = Feed.ofBytes bytes := by
  induction h with
  | nil => rfl
  | chunk _ _ ih => rw [Feed.ofDeliveries_cons_chunk, ih, Feed.ofBytes_append]
  | interruption hkind _ ih => rw [Feed.ofDeliveries_cons_interruption hkind, ih]

end LoxScan
