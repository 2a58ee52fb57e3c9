import LoxScan.Proofs.Source.ScannerCalls

/-!
# Scans of buffers

The table of a buffer has one entry for each character and one for the end, in ascending order, and
each entry is a place where the bytes can be taken apart.  So it makes no difference to a scanner
that its source is kept as bytes: it goes through the same states as over the plain characters.

On its way no position is ever out of place, and in the end it has the scan of the source.
-/

namespace LoxScan.Scanner

variable {characters before rest : List Char} {s : Scanner}

/-- The calls go through the pieces of the rest of the source, and then the loop ends. -/
theorem exists_reaches_finished {newlines : Nat} (h : characters = before ++ rest)
    (hs : s.current = before.length) (hpoint : s.point = .between)
    (hline : s.line = Scan.lineAfter newlines) :
    ∃ t, Reaches (.ofCharacters characters) s t ∧ t.point = .finished ∧
      t.tokens = s.tokens ++ Scan.tokensFrom newlines (Piece.cutAll rest) ∧
      t.errors = s.errors ++ Scan.errorsFrom newlines (Piece.cutAll rest) := by
  fun_induction Piece.cutAll rest generalizing s before newlines with
  | case1 =>
    have hend : characters.length ≤ s.current := by
      rw [h, hs, List.append_nil]
    have hfinish : s.step (.ofCharacters characters) =
        .ok { s with tokens := s.tokens ++ [Token.endOfText s.line], point := .finished } := by
      rw [step, hpoint]
      change Except.ok (if characters.length ≤ s.current then _ else _) = _
      rw [if_pos hend]
    refine ⟨_, .single hfinish, rfl, ?_, (List.append_nil s.errors).symm⟩
    rw [Scan.tokensFrom, hline]
  | case2 c rest ih =>
    have hcut : c :: rest = (Piece.cut c rest).1.text ++ (Piece.cut c rest).2 :=
      (Piece.cut_append c rest).symm
    have hread := reaches_cut hs hpoint h
    rw [hcut, ← List.append_assoc] at h
    generalize (Piece.cut c rest).1 = p at *
    have hcurrent : (s.past p).current = (before ++ p.text).length := by
      rw [List.length_append, ← hs]
      rfl
    have hlater : (s.past p).line = Scan.lineAfter (newlines + p.newlines) := by
      rw [Nat.add_comm, Grammar.lineAfter_add, ← hline]
      rfl
    obtain ⟨t, hrest, hfinished, htokens, herrors⟩ := ih h hcurrent rfl hlater
    refine ⟨t, hread.trans hrest, hfinished, ?_, ?_⟩
    · rw [htokens, Scan.tokensFrom, ← List.append_assoc, ← hlater]
      rfl
    · rw [herrors, Scan.errorsFrom, ← List.append_assoc, ← hline]
      rfl

theorem exists_result (source : String) :
    ∃ s, Reaches (.ofCharacters source.toList) initial s ∧ s.point = .finished ∧
      s.result = Scan.ofText source := by
  have hsplit : source.toList = [] ++ source.toList := rfl
  have hline : initial.line = Scan.lineAfter 0 := rfl
  obtain ⟨s, hreaches, hpoint, htokens, herrors⟩ :=
    exists_reaches_finished (s := initial) hsplit rfl rfl hline
  refine ⟨s, hreaches, hpoint, ?_⟩
  rw [result, htokens, herrors]
  rfl

/-- Over the bytes of a text, a scanner stays inside the characters: no position is out of place
when a part of the text is asked for, every call goes past a character and adds at most one entry,
and the loop comes to its end with the scan of the text. -/
theorem safe_of_text (source : String) :
    (∀ s, Reaches (Buffer.ofText source).view initial s →
      s.start ≤ s.current ∧ s.current ≤ source.toList.length ∧
        ∃ t, s.step (Buffer.ofText source).view = .ok t ∧ AddsAtMostOne s t) ∧
      (∀ first last text, (Buffer.ofText source).view.slice first last = .ok text →
        first ≤ last ∧ last ≤ source.toList.length) ∧
      (∀ s, Reaches (Buffer.ofText source).view initial s → s.point = .opening →
        (∃ t, Returns (Buffer.ofText source).view s t) ∧
          ∀ t, Returns (Buffer.ofText source).view s t →
            s.current < t.current ∧ AddsAtMostOne s t) ∧
      ∃ s, Reaches (Buffer.ofText source).view initial s ∧ s.point = .finished ∧
        s.result = Scan.ofText source := by
  rw [Buffer.view_ofText]
  have hplaced (s : Scanner) (hs : Reaches (.ofCharacters source.toList) initial s) :
      Placed source.toList.length s := hs.placed (placed_initial _)
  refine ⟨fun s hs ↦ ?_, fun first last text hslice ↦ ?_, fun s hs hopening ↦ ?_,
    exists_result source⟩
  · obtain ⟨t, hstep, hmove⟩ := exists_move (hplaced s hs)
    exact ⟨Nat.le_of_add_right_le (hplaced s hs).least, (hplaced s hs).current_le, t, hstep,
      hmove.addsAtMostOne⟩
  · change (if first ≤ last ∧ last ≤ source.toList.length then _ else _) = _ at hslice
    split at hslice
    · next hin => exact hin
    · cases hslice
  · have hcall : s.point ≠ .between := by simp [hopening]
    refine ⟨exists_returns (hplaced s hs) (by simp [hopening]), fun t ht ↦ ?_⟩
    exact ⟨ht.current_lt (hplaced s hs) hopening, (ht.addsAtMostOne (hplaced s hs) hcall).2⟩

end LoxScan.Scanner

namespace LoxScan.Buffer

/-- The table of a text ascends from zero to the number of bytes, with an entry for each character
and one more, each at a boundary of the encoding.  Characters and parts of the text are found by
their numbers, and a scanner over the bytes goes through the states of one over the characters. -/
theorem refines_characters (source : String) :
    ((ofText source).boundaries.Pairwise (· < ·) ∧
        (ofText source).boundaries.head? = some 0 ∧
        (ofText source).boundaries.getLast? = some (Text.Utf8.encode source).length ∧
        (ofText source).boundaries.length = source.toList.length + 1 ∧
        ∀ offset ∈ (ofText source).boundaries, (ofText source).isBoundary offset) ∧
      (∀ i, (ofText source).character? i = source.toList[i]?) ∧
      (∀ first last, (ofText source).slice first last =
        if first ≤ last ∧ last ≤ source.toList.length then
          .ok (String.ofList ((source.toList.drop first).take (last - first)))
        else .error (.part first last)) ∧
      (∀ s, Scanner.Reaches (ofText source).view Scanner.initial s ↔
        Scanner.Reaches (.ofCharacters source.toList) Scanner.initial s) ∧
      ∃ s, Scanner.Reaches (ofText source).view Scanner.initial s ∧ s.point = .finished ∧
        s.result = Scan.ofText source := by
  have hview : (ofText source).view = .ofCharacters source.toList := view_ofText source
  refine ⟨⟨pairwise_boundaries source, ?_, ?_, length_boundaries source, ?_⟩, character?_eq source,
    slice_eq source, fun s ↦ by rw [hview], ?_⟩
  · rw [List.head?_eq_getElem?]
    have hsplit : source.toList = [] ++ source.toList := rfl
    exact getElem?_boundaries hsplit
  · exact List.getLast?_concat
  · intro offset hoffset
    obtain ⟨before, rest, hsplit, rfl⟩ := exists_split_of_mem hoffset
    exact isBoundary_of_split hsplit
  · rw [hview]
    exact Scanner.exists_result source

end LoxScan.Buffer
