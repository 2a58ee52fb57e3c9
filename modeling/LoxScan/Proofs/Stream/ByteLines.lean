import LoxScan.Proofs.Stream.TextLines
import LoxScan.Proofs.Text.WellFormed

/-!
# Lines of a byte stream

Bytes fall into lines in one way, whatever they encode and however they are delivered.  A line
holds no newline byte, and neither does the text it encodes, since no other character has that byte
among its own.
-/

namespace LoxScan.Feed

/-- The lines that bytes fall into, without their endings.  A newline ends a line, and a carriage
return directly in front of it belongs to the ending; what follows the last newline is a line of
its own unless it is empty. -/
inductive FallsInto : List UInt8 → List (List UInt8) → Prop where
  | nil : FallsInto [] []
  | last {line : List UInt8} (hne : line ≠ []) (hline : 0x0A ∉ line) : FallsInto line [line]
  | newline {line rest : List UInt8} {lines : List (List UInt8)} (hline : 0x0A ∉ line)
      (hreturn : line.getLast? ≠ some 0x0D) (hrest : FallsInto rest lines) :
      FallsInto (line ++ 0x0A :: rest) (line :: lines)
  | pair {line rest : List UInt8} {lines : List (List UInt8)} (hline : 0x0A ∉ line)
      (hrest : FallsInto rest lines) : FallsInto (line ++ 0x0D :: 0x0A :: rest) (line :: lines)

theorem exists_fallsInto (bytes : List UInt8) : ∃ lines, FallsInto bytes lines := by
  induction bytes using Text.Split.induction_on_separator (0x0A : UInt8) with
  | last line hline =>
    by_cases hnil : line = []
    · rw [hnil]
      exact ⟨[], .nil⟩
    · exact ⟨[line], .last hnil hline⟩
  | ended line rest hline ih =>
    obtain ⟨lines, hrest⟩ := ih
    by_cases hreturn : line.getLast? = some 0x0D
    · obtain ⟨front, rfl⟩ := List.getLast?_eq_some_iff.1 hreturn
      have hfront : 0x0A ∉ front := fun h ↦ hline (List.mem_append_left _ h)
      rw [List.append_assoc, List.singleton_append]
      exact ⟨front :: lines, .pair hfront hrest⟩
    · exact ⟨line :: lines, .newline hline hreturn hrest⟩

theorem FallsInto.newline_not_mem {bytes : List UInt8} {lines : List (List UInt8)}
    (h : FallsInto bytes lines) : ∀ line ∈ lines, 0x0A ∉ line := by
  induction h with
  | nil => simp
  | last _ hline => simpa using hline
  | newline hline _ _ ih | pair hline _ ih => exact List.forall_mem_cons.2 ⟨hline, ih⟩

/-- Up to the ending of a line, every byte goes into it. -/
theorem lines_ofBytes_append {line : List UInt8} (hline : 0x0A ∉ line) {rest : Feed}
    (hend : line.getLast? ≠ some 0x0D ∨ rest.head? ≠ some (.ok 0x0A)) :
    lines (ofBytes line ++ rest) = line.foldr extendFirst (lines rest) := by
  induction line with
  | nil => rfl
  | cons b line ih =>
    obtain ⟨hb, hline⟩ := not_or.1 (mt List.mem_cons.2 hline)
    cases line with
    | nil =>
      refine lines_cons (Ne.symm hb) ?_
      rintro ⟨rfl, hhead⟩
      exact hend.elim (fun hreturn ↦ hreturn rfl) (fun hrest ↦ hrest hhead)
    | cons c line =>
      have hc : c ≠ 0x0A := fun h ↦ hline (h ▸ List.mem_cons_self)
      rw [List.foldr_cons, ← ih hline hend]
      refine lines_cons (Ne.symm hb) ?_
      rintro ⟨-, hhead⟩
      exact hc (Except.ok.inj (Option.some.inj hhead))

theorem lines_newline (rest : Feed) : lines (.ok 0x0A :: rest) = .ok [] :: lines rest := by
  rw [lines.eq_def]
  exact if_pos rfl

theorem lines_pair (rest : Feed) :
    lines (.ok 0x0D :: .ok 0x0A :: rest) = .ok [] :: lines rest := by
  rw [← lines_newline]
  rfl

theorem FallsInto.lines_eq {bytes : List UInt8} {ls : List (List UInt8)} (h : FallsInto bytes ls) :
    lines (ofBytes bytes) = ls.map .ok := by
  induction h with
  | nil => rfl
  | @last line hne hline =>
    have hlines : lines (ofBytes line ++ []) = line.foldr extendFirst (lines []) :=
      lines_ofBytes_append hline (.inr (by simp))
    rw [List.append_nil] at hlines
    rw [hlines]
    exact foldr_extendFirst_nil hne
  | @newline line rest ls hline hreturn hrest ih =>
    have hbytes : ofBytes (line ++ 0x0A :: rest) = ofBytes line ++ .ok 0x0A :: ofBytes rest := by
      simp [ofBytes]
    rw [hbytes, lines_ofBytes_append hline (.inl hreturn), lines_newline, foldr_extendFirst_ok,
      List.append_nil, ih, List.map_cons]
  | @pair line rest ls hline hrest ih =>
    have hbytes : ofBytes (line ++ 0x0D :: 0x0A :: rest) =
        ofBytes line ++ .ok 0x0D :: .ok 0x0A :: ofBytes rest := by
      simp [ofBytes]
    rw [hbytes, lines_ofBytes_append hline (.inr (by simp)), lines_pair, foldr_extendFirst_ok,
      List.append_nil, ih, List.map_cons]

/-- There is one way for bytes to fall into lines. -/
theorem FallsInto.eq {bytes : List UInt8} {ls other : List (List UInt8)} (h : FallsInto bytes ls)
    (hother : FallsInto bytes other) : other = ls :=
  (List.map_inj_right fun _ _ ↦ Except.ok.inj).1 (hother.lines_eq.symm.trans h.lines_eq)

theorem ofDeliveries_chunks (chunks : List Chunk) :
    ofDeliveries (chunks.map .chunk) = ofBytes (chunks.flatMap Chunk.bytes) := by
  have hfilter : (chunks.map Delivery.chunk).filter (fun d ↦ !isInterruption d) =
      chunks.map .chunk :=
    List.filter_eq_self.2 fun d hd ↦ by
      obtain ⟨chunk, -, rfl⟩ := List.mem_map.1 hd
      rfl
  rw [ofDeliveries, hfilter, List.flatMap_map, ofBytes, List.map_flatMap]
  rfl

theorem FallsInto.entries_eq {bytes : List UInt8} {ls : List (List UInt8)}
    (h : FallsInto bytes ls) : entries (ofBytes bytes) = ls.map decodeLine := by
  rw [entries, h.lines_eq, List.map_map]
  rfl

/-- The entries are the lines that the bytes fall into, wherever the chunks end. -/
theorem FallsInto.entries_ofDeliveries {chunks : List Chunk} {ls : List (List UInt8)}
    (h : FallsInto (chunks.flatMap Chunk.bytes) ls) :
    (ofDeliveries (chunks.map .chunk)).entries = ls.map decodeLine := by
  rw [ofDeliveries_chunks]
  exact h.entries_eq

/-- Text encoded without newline bytes has no newlines. -/
theorem newline_not_mem_of_decode? {line : List UInt8} (hline : 0x0A ∉ line) {text : String}
    (h : Text.Utf8.decode? line = some text) : '\n' ∉ text.toList := by
  rw [← Text.Utf8.decode?_eq_some_iff.1 h] at hline
  exact fun hmem ↦ hline (List.mem_flatMap.2 ⟨'\n', hmem, by decide⟩)

end LoxScan.Feed
