import LoxScan.Proofs.Source.Outline

/-!
# Comments blanked out

Every comment of a text can be replaced by blanks that keep its newlines.  Nothing on either side
of it moves closer: the lexeme in front of a comment ends at its first blank as it did at its
opener, and what follows stands as before.  A string or a comment that is never closed reaches the
end of the text, so no opener is left over that could begin another comment.
-/

namespace LoxScan.Grammar

/-- A space for every character but a newline. -/
def fade (text : List Char) : List Char := text.map fun c ↦ if c = '\n' then '\n' else ' '

def Role.isComment : Role → Bool
  | .lineComment | .blockComment => true
  | .blank | .lexeme _ _ | .fault _ => false

/-- The text that stands for a segment when comments are blanked out. -/
def Segment.blanked (s : Segment) : List Char :=
  if s.role.isComment then fade s.text else s.text

def blankOut (source : List Char) : List Char := (segments source).flatMap Segment.blanked

def blankComments (source : String) : String := String.ofList (blankOut source.toList)

/-- The segments of that text. -/
def Segment.faded (s : Segment) : List Segment :=
  if s.role.isComment then (fade s.text).map fun c ↦ ⟨.blank, [c]⟩ else [s]

theorem isBlank_of_mem_fade {text : List Char} : ∀ c ∈ fade text, IsBlank c := by
  intro c hc
  obtain ⟨d, -, rfl⟩ := List.mem_map.1 hc
  split <;> decide

theorem count_fade (text : List Char) : (fade text).count '\n' = text.count '\n' := by
  induction text with
  | nil => rfl
  | cons c text ih =>
    rw [fade, List.map_cons, ← fade, List.count_cons, List.count_cons, ih]
    by_cases hc : c = '\n' <;> simp [hc]

theorem Segment.flatMap_text_faded (s : Segment) : s.faded.flatMap Segment.text = s.blanked := by
  unfold faded blanked
  split
  · rw [List.flatMap_map]
    exact List.flatMap_singleton' _
  · exact List.flatMap_singleton ..

/-- Blanks and whatever else is not a comment stay as they are. -/
theorem Segment.flatMap_blanked_faded (s : Segment) :
    s.faded.flatMap Segment.blanked = s.blanked := by
  rw [← flatMap_text_faded]
  unfold faded
  split
  · rw [List.flatMap_map, List.flatMap_map]
    rfl
  · next hrole => rw [List.flatMap_singleton, List.flatMap_singleton, blanked, if_neg hrole]

theorem Segmentation.blanks {gap rest : List Char} {cut : List Segment}
    (h : Segmentation rest cut) (hgap : ∀ c ∈ gap, IsBlank c) :
    Segmentation (gap ++ rest) (gap.map (fun c ↦ ⟨.blank, [c]⟩) ++ cut) := by
  induction gap with
  | nil => exact h
  | cons c gap ih =>
    obtain ⟨hc, hgap⟩ := List.forall_mem_cons.1 hgap
    exact .cons (s := ⟨.blank, [c]⟩) (.blank hc) (ih hgap)

/-- A segment that is no comment goes on to stand where no more is shown of what follows it. -/
theorem Stands.of_front {role : Role} {text rest later : List Char} (h : Stands role text rest)
    (hrole : ¬ role.isComment) (hfront : front later <+: rest) (hend : rest = [] → later = []) :
    Stands role text later := by
  cases h with
  | blank hblank => exact .blank hblank
  | lineComment _ _ | blockComment _ => exact absurd rfl hrole
  | lexeme hspells hends => exact .lexeme hspells (hends.of_front hfront)
  | unexpected hunclaimed => exact .unexpected hunclaimed
  | openString hbody =>
    rw [hend rfl]
    exact .openString hbody
  | openComment hbody =>
    rw [hend rfl]
    exact .openComment hbody

theorem Segmentation.prefix_front_blanked {source : List Char} {cut : List Segment}
    (h : Segmentation source cut) : front (cut.flatMap Segment.blanked) <+: source := by
  induction h with
  | nil => exact List.nil_prefix
  | @cons s rest cut hstands hrest ih =>
    rw [List.flatMap_cons, Segment.blanked]
    split
    · obtain ⟨c, text, htext⟩ := List.exists_cons_of_ne_nil hstands.text_ne_nil
      have hc : IsBlank (if c = '\n' then '\n' else ' ') := by split <;> decide
      rw [htext, fade, List.map_cons, List.cons_append, front_cons_of_blank hc]
      exact List.nil_prefix
    · exact prefix_front_append ih

theorem Segmentation.blanked {source : List Char} {cut : List Segment}
    (h : Segmentation source cut) :
    Segmentation (cut.flatMap Segment.blanked) (cut.flatMap Segment.faded) := by
  induction h with
  | nil => exact .nil
  | @cons s rest cut hstands hrest ih =>
    rw [List.flatMap_cons, List.flatMap_cons, Segment.blanked, Segment.faded]
    split
    · exact ih.blanks isBlank_of_mem_fade
    · next hrole =>
      have hend : rest = [] → cut.flatMap Segment.blanked = [] := by
        rintro rfl
        rw [(segmentation_iff.1 hrest).trans segments_nil, List.flatMap_nil]
      exact .cons (hstands.of_front hrole hrest.prefix_front_blanked hend) ih

theorem segments_blankOut (source : List Char) :
    segments (blankOut source) = (segments source).flatMap Segment.faded :=
  (segmentation_iff.1 (segmentation_segments source).blanked).symm

theorem blankOut_blankOut (source : List Char) : blankOut (blankOut source) = blankOut source := by
  calc
    blankOut (blankOut source) =
        ((segments source).flatMap Segment.faded).flatMap Segment.blanked := by
      rw [← segments_blankOut, blankOut]
    _ = (segments source).flatMap fun s ↦ s.faded.flatMap Segment.blanked := List.flatMap_assoc
    _ = blankOut source := by simp only [Segment.flatMap_blanked_faded, blankOut]

theorem landmarks_blanks (newlines : Nat) (gap : List Char) (rest : List Segment) :
    landmarks newlines (gap.map (fun c ↦ ⟨.blank, [c]⟩) ++ rest) =
      landmarks (newlines + gap.count '\n') rest := by
  induction gap generalizing newlines with
  | nil => rfl
  | cons c gap ih =>
    rw [List.map_cons, List.cons_append, landmarks, ih, ← List.singleton_append (l := gap),
      List.count_append, Nat.add_assoc]
    rfl

theorem landmarks_faded (newlines : Nat) (s : Segment) (rest : List Segment) :
    landmarks newlines (s.faded ++ rest) = landmarks newlines (s :: rest) := by
  unfold Segment.faded
  split
  · next hrole =>
    have hsilent : s.role.isSilent := by
      obtain ⟨role, text⟩ := s
      cases role with
      | lineComment | blockComment => rfl
      | blank | lexeme _ _ | fault _ => cases hrole
    rw [landmarks_blanks, count_fade, landmarks, if_pos hsilent, List.nil_append]
  · rfl

theorem landmarks_flatMap_faded (newlines : Nat) (cut : List Segment) :
    landmarks newlines (cut.flatMap Segment.faded) = landmarks newlines cut := by
  induction cut generalizing newlines with
  | nil => rfl
  | cons s cut ih => rw [List.flatMap_cons, landmarks_faded, landmarks, landmarks, ih]

theorem outline_blankOut (newlines : Nat) (source : List Char) :
    outline newlines (blankOut source) = outline newlines source := by
  rw [outline, segments_blankOut, landmarks_flatMap_faded, outline]

theorem Segment.count_blanked (s : Segment) : s.blanked.count '\n' = s.text.count '\n' := by
  unfold blanked
  split
  · exact count_fade s.text
  · rfl

theorem count_blankOut (source : List Char) :
    (blankOut source).count '\n' = source.count '\n' := by
  have hcount : List.count '\n' ∘ Segment.blanked = List.count '\n' ∘ Segment.text :=
    funext Segment.count_blanked
  calc
    (blankOut source).count '\n' = ((segments source).flatMap Segment.text).count '\n' := by
      rw [blankOut, List.count_flatMap, List.count_flatMap, hcount]
    _ = source.count '\n' := by rw [flatMap_text_segments]

theorem ofText_blankComments (source : String) :
    Scan.ofText (blankComments source) = Scan.ofText source := by
  have htext : (blankComments source).toList = blankOut source.toList := String.toList_ofList
  have htokens : (Scan.ofText (blankComments source)).tokens = (Scan.ofText source).tokens := by
    rw [tokens_eq_outline, tokens_eq_outline, htext, outline_blankOut, count_blankOut]
  have herrors : (Scan.ofText (blankComments source)).errors = (Scan.ofText source).errors := by
    rw [errors_eq_outline, errors_eq_outline, htext, outline_blankOut]
  exact congrArg₂ Scan.mk htokens herrors

/-- Comments can be blanked out in one way, by a space for each of their characters that is not a
newline.  The scan of the text is then the same, with all lines, and blanking it out again changes
nothing. -/
theorem scan_blankComments (source : String) :
    (∃ cut, Segmentation source.toList cut ∧
      (∀ other, Segmentation source.toList other → other = cut) ∧
      (blankComments source).toList = cut.flatMap Segment.blanked) ∧
    Scan.ofText (blankComments source) = Scan.ofText source ∧
    blankComments (blankComments source) = blankComments source := by
  refine ⟨⟨segments source.toList, segmentation_segments _, fun _ ↦ segmentation_iff.1,
    String.toList_ofList⟩, ofText_blankComments source, ?_⟩
  rw [blankComments, blankComments, String.toList_ofList, blankOut_blankOut]

/-- A point behind a comment does not join the digit in front of it, and quotes hide an opener. -/
example : blankComments "1/*\n*/.5 \"//\" // \"" = "1  \n  .5 \"//\"     " := by decide +kernel

end LoxScan.Grammar
