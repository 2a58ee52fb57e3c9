import LoxScan.Proofs.Source.Concatenation

/-!
# Comments behind a text

Lines of comments hold neither tokens nor errors.  So the comments that follow a text which leaves
no string and no comment open change nothing in its scan but the line on which it ends, and that
line is not displayed.
-/

namespace LoxScan.Grammar

/-- A line that is a comment from its beginning to its end. -/
def IsComment (line : List Char) : Prop := ['/', '/'] <+: line ∧ '\n' ∉ line

/-- Each of the lines with a newline behind it. -/
def textOfLines (lines : List (List Char)) : List Char := lines.flatMap (· ++ ['\n'])

theorem IsComment.stands {line : List Char} (h : IsComment line) (rest : List Char) :
    Stands .lineComment line ('\n' :: rest) := by
  obtain ⟨⟨body, rfl⟩, hnewline⟩ := h
  have hbody : '\n' ∉ body := fun hmem ↦ hnewline (List.mem_append_right _ hmem)
  refine .lineComment hbody ?_
  rintro c ⟨⟩
  rfl

theorem segments_textOfLines {lines : List (List Char)} (hlines : ∀ line ∈ lines, IsComment line) :
    segments (textOfLines lines) =
      lines.flatMap fun line ↦ [⟨.lineComment, line⟩, ⟨.blank, ['\n']⟩] := by
  induction lines with
  | nil => exact segments_nil
  | cons line lines ih =>
    obtain ⟨hline, hlines⟩ := List.forall_mem_cons.1 hlines
    have hblank : segments ('\n' :: textOfLines lines) =
        ⟨.blank, ['\n']⟩ :: segments (textOfLines lines) :=
      segments_of_stands (.blank (by decide))
    rw [textOfLines, List.flatMap_cons, List.append_assoc, List.singleton_append]
    rw [segments_of_stands (hline.stands _), ← textOfLines, hblank, ih hlines, List.flatMap_cons]
    rfl

theorem filterMap_segments_textOfLines {α : Type} {f : Segment → Option α}
    {lines : List (List Char)} (hlines : ∀ line ∈ lines, IsComment line)
    (hcomment : ∀ line, f ⟨.lineComment, line⟩ = none) (hblank : f ⟨.blank, ['\n']⟩ = none) :
    (segments (textOfLines lines)).filterMap f = [] := by
  rw [segments_textOfLines hlines, List.filterMap_eq_nil_iff]
  intro s hs
  obtain ⟨line, -, hs⟩ := List.mem_flatMap.1 hs
  rcases List.mem_pair.1 hs with rfl | rfl
  · exact hcomment line
  · exact hblank

theorem tokensAfter_textOfLines {lines : List (List Char)}
    (hlines : ∀ line ∈ lines, IsComment line) : tokensAfter [] (textOfLines lines) = [] := by
  refine List.map_eq_nil_iff.1 ((map_lexeme_tokensAfter [] _).trans ?_)
  exact filterMap_segments_textOfLines hlines (fun _ ↦ rfl) rfl

theorem errorsAfter_textOfLines {lines : List (List Char)}
    (hlines : ∀ line ∈ lines, IsComment line) : errorsAfter [] (textOfLines lines) = [] := by
  refine List.map_eq_nil_iff.1 ((map_cause_errorsAfter [] _).trans ?_)
  exact filterMap_segments_textOfLines hlines (fun _ ↦ rfl) rfl

section Comments

variable {source comments : String} {lines : List (List Char)}

theorem errors_append_comments (hclosed : IsClosed (segments source.toList))
    (hcomments : comments.toList = textOfLines lines) (hlines : ∀ line ∈ lines, IsComment line) :
    (Scan.ofText (source ++ "\n" ++ comments)).errors = (Scan.ofText source).errors := by
  rw [errors_append_newline hclosed, errors_ofText comments, hcomments,
    errorsAfter_textOfLines hlines, List.map_nil, List.append_nil]

/-- The mark of the end is displayed alike on every line. -/
theorem dump_append_comments (hclosed : IsClosed (segments source.toList))
    (hcomments : comments.toList = textOfLines lines) (hlines : ∀ line ∈ lines, IsComment line) :
    (Scan.ofText (source ++ "\n" ++ comments)).dump = (Scan.ofText source).dump := by
  rw [Scan.dump, Scan.dump, tokens_append_newline hclosed, tokens_ofText source,
    List.dropLast_concat, tokens_ofText comments, hcomments, tokensAfter_textOfLines hlines,
    List.nil_append, List.map_append, List.map_append]
  rfl

end Comments

end LoxScan.Grammar
