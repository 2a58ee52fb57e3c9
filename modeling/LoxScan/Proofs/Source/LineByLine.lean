import LoxScan.Proofs.Source.Concatenation
import LoxScan.Proofs.Source.LineEndings
import LoxScan.Proofs.Stream.TextLines

/-!
# Scans line by line

A text none of whose lines leaves a string or a comment open is scanned as its lines are, one after
another.  The ending of a line, carriage returns included, is blank or prolongs a comment, so it
leaves nothing in the outline but the count.  The tokens are those of the lines, and the errors of
a line are found in the text on the number of that line.
-/

namespace LoxScan

namespace Grammar

open Text (Split.linesOf Split.induction_on_separator)

section Ending

variable {returns : List Char}

theorem outline_returns (hreturns : ∀ c ∈ returns, c = '\r') (newlines : Nat) (rest : List Char) :
    outline newlines (returns ++ rest) = outline newlines rest := by
  induction returns with
  | nil => rfl
  | cons c returns ih =>
    obtain ⟨hc, hlater⟩ := List.forall_mem_cons.1 hreturns
    rw [hc, List.cons_append, outline_return, ih hlater]

theorem outline_ending (hreturns : ∀ c ∈ returns, c = '\r') (newlines : Nat) (rest : List Char) :
    outline newlines (returns ++ '\n' :: rest) = outline (newlines + 1) rest := by
  rw [outline_returns hreturns, outline_newline]

theorem isBlank_of_mem_head?_ending (hreturns : ∀ c ∈ returns, c = '\r') (rest : List Char) :
    ∀ c ∈ (returns ++ '\n' :: rest).head?, IsBlank c := by
  intro c hc
  cases returns with
  | nil =>
    obtain rfl : '\n' = c := Option.some.inj hc
    decide
  | cons d returns =>
    obtain rfl : d = c := Option.some.inj hc
    rw [hreturns d List.mem_cons_self]
    decide

/-- A line comment takes in the carriage returns at the end of its line. -/
theorem outline_lineComment_ending {text : List Char} (h : Stands .lineComment text [])
    (hreturns : ∀ c ∈ returns, c = '\r') (newlines : Nat) (rest : List Char) :
    outline newlines (text ++ (returns ++ '\n' :: rest)) =
      outline (newlines + text.count '\n' + 1) rest := by
  cases h with
  | @lineComment body _ hbody hrest =>
    have hlonger : '\n' ∉ body ++ returns := by
      rw [List.mem_append, not_or]
      exact ⟨hbody, fun h ↦ absurd (hreturns _ h) (by decide)⟩
    have hstands : Stands .lineComment ('/' :: '/' :: (body ++ returns)) ('\n' :: rest) := by
      refine .lineComment hlonger ?_
      rintro c ⟨⟩
      rfl
    have hcount {body : List Char} (h : '\n' ∉ body) : ('/' :: '/' :: body).count '\n' = 0 :=
      List.count_eq_zero_of_not_mem (by simpa using h)
    calc
      _ = outline newlines (('/' :: '/' :: (body ++ returns)) ++ '\n' :: rest) := by simp
      _ = outline newlines ('\n' :: rest) := by
        rw [outline_of_silent hstands rfl, hcount hlonger, Nat.add_zero]
      _ = outline (newlines + 1) rest := outline_newline newlines rest
      _ = _ := by rw [hcount hbody, Nat.add_zero]

/-- Text in front of the ending of a line and text behind it have outlines of their own. -/
theorem Segmentation.outline_append_ending {source : List Char} {cut : List Segment}
    (h : Segmentation source cut) (hclosed : IsClosed cut) (hreturns : ∀ c ∈ returns, c = '\r')
    (newlines : Nat) (rest : List Char) :
    outline newlines (source ++ (returns ++ '\n' :: rest)) =
      outline newlines source ++ outline (newlines + source.count '\n' + 1) rest := by
  induction h generalizing newlines with
  | nil =>
    rw [outline_nil]
    exact outline_ending hreturns newlines rest
  | @cons s later cut hstands hrest ih =>
    obtain ⟨hs, hclosed⟩ := List.forall_mem_cons.1 hclosed
    by_cases hcomment : s.role = .lineComment ∧ later = []
    · obtain ⟨hrole, rfl⟩ := hcomment
      rw [hrole] at hstands
      rw [List.append_nil, outline_lineComment_ending hstands hreturns,
        ← List.append_nil s.text, outline_of_silent hstands rfl, outline_nil, List.nil_append,
        List.append_nil]
    · have hlonger : Stands s.role s.text (later ++ (returns ++ '\n' :: rest)) := by
        apply hstands.append_blank hs.1 hs.2 (isBlank_of_mem_head?_ending hreturns rest)
        intro hrole hlater
        exact absurd ⟨hrole, hlater⟩ hcomment
      rw [List.append_assoc, outline_of_stands hlonger, ih hclosed, outline_of_stands hstands,
        List.count_append, List.append_assoc, Nat.add_assoc newlines]

end Ending

theorem outline_linesOf {source : List Char}
    (hclosed : ∀ line ∈ Split.linesOf source, IsClosed (segments line)) (newlines : Nat) :
    outline newlines source =
      ((Split.linesOf source).zipIdx newlines).flatMap fun place ↦ outline place.2 place.1 := by
  induction source using Split.induction_on_separator '\n' generalizing newlines with
  | last line hline =>
    by_cases hne : line = []
    · rw [hne]
      exact outline_nil newlines
    · rw [Text.Split.linesOf_of_not_mem hline hne, List.zipIdx_singleton, List.flatMap_singleton]
  | ended ended rest hended ih =>
    obtain ⟨line, returns, rfl, hreturns, hlines⟩ :=
      Text.Split.exists_linesOf_append_newline hended rest
    have hline : line.count '\n' = 0 :=
      List.count_eq_zero_of_not_mem fun h ↦ hended (List.mem_append_left _ h)
    rw [hlines] at hclosed
    obtain ⟨hfirst, hlater⟩ := List.forall_mem_cons.1 hclosed
    rw [hlines, List.zipIdx_cons, List.flatMap_cons, ← ih hlater, List.append_assoc,
      (segmentation_segments line).outline_append_ending hfirst hreturns, hline, Nat.add_zero]

theorem filterMap_segment_landmarks {α : Type} {f : Segment → Option α}
    (hsilent : ∀ s, s.role.isSilent → f s = none) (newlines : Nat) (segments : List Segment) :
    (landmarks newlines segments).filterMap (f ∘ Landmark.segment) = segments.filterMap f := by
  induction segments generalizing newlines with
  | nil => rfl
  | cons s segments ih =>
    rw [landmarks, List.filterMap_append, ih]
    by_cases hrole : s.role.isSilent
    · rw [if_pos hrole, List.filterMap_cons_none (hsilent s hrole)]
      rfl
    · have hfirst : List.filterMap (f ∘ Landmark.segment) [⟨newlines, s⟩] = [s].filterMap f := rfl
      rw [if_neg hrole, hfirst, ← List.filterMap_append, List.singleton_append]

theorem newlines_of_mem_landmarks {segments : List Segment}
    (hsegments : '\n' ∉ segments.flatMap Segment.text) {newlines : Nat} :
    ∀ m ∈ landmarks newlines segments, m.newlines = newlines := by
  induction segments with
  | nil => exact fun m hm ↦ absurd hm List.not_mem_nil
  | cons s segments ih =>
    rw [List.flatMap_cons, List.mem_append, not_or] at hsegments
    intro m hm
    rw [landmarks, List.count_eq_zero_of_not_mem hsegments.1, Nat.add_zero, List.mem_append] at hm
    rcases hm with hm | hm
    · split at hm
      · exact absurd hm List.not_mem_nil
      · rw [List.mem_singleton.1 hm]
    · exact ih hsegments.2 m hm

section Lines

variable {source : String}

theorem isClosed_of_mem_linesOf
    (h : ∀ line ∈ Text.Split.lines source, ∀ e ∈ (Scan.ofText line).errors,
      e.cause ≠ .unterminatedString ∧ e.cause ≠ .unterminatedComment) :
    ∀ line ∈ Split.linesOf source.toList, IsClosed (segments line) := by
  intro line hline
  have hclosed := isClosed_of_errors (h (String.ofList line) (List.mem_map_of_mem hline))
  rwa [String.toList_ofList] at hclosed

/-- But for the mark of the end, the tokens of the text are those of its lines. -/
theorem map_lexeme_dropLast_tokens
    (hclosed : ∀ line ∈ Split.linesOf source.toList, IsClosed (segments line)) :
    (Scan.ofText source).tokens.dropLast.map (fun t ↦ (t.kind, t.lexeme, t.literal)) =
      (Text.Split.lines source).flatMap fun line ↦
        (Scan.ofText line).tokens.dropLast.map fun t ↦ (t.kind, t.lexeme, t.literal) := by
  have htokens (text : String) :
      (Scan.ofText text).tokens.dropLast.map (fun t ↦ (t.kind, t.lexeme, t.literal)) =
        (segments text.toList).filterMap Segment.lexeme? := by
    rw [tokens_ofText, List.dropLast_concat, map_lexeme_tokensAfter]
  have houtline (newlines : Nat) (text : List Char) :
      (outline newlines text).filterMap (Segment.lexeme? ∘ Landmark.segment) =
        (segments text).filterMap Segment.lexeme? :=
    filterMap_segment_landmarks (fun _ ↦ Segment.lexeme?_of_isSilent) newlines _
  calc
    _ = (outline 0 source.toList).filterMap (Segment.lexeme? ∘ Landmark.segment) := by
      rw [htokens, houtline]
    _ = ((Split.linesOf source.toList).zipIdx 0).flatMap fun place ↦
        (segments place.1).filterMap Segment.lexeme? := by
      rw [outline_linesOf hclosed, List.filterMap_flatMap]
      simp only [houtline]
    _ = (((Split.linesOf source.toList).zipIdx 0).map Prod.fst).flatMap fun line ↦
        (segments line).filterMap Segment.lexeme? := by rw [List.flatMap_map]
    _ = (Split.linesOf source.toList).flatMap fun line ↦
        (segments line).filterMap Segment.lexeme? := by rw [List.zipIdx_map_fst]
    _ = _ := by
      rw [Text.Split.lines, List.flatMap_map]
      simp only [htokens, String.toList_ofList]

theorem filterMap_error?_outline {line : List Char} (hline : '\n' ∉ line) (newlines : Nat) :
    (outline newlines line).filterMap Landmark.error? =
      (Scan.ofText (String.ofList line)).errors.map fun e ↦
        ⟨Scan.lineAfter newlines, e.cause⟩ := by
  let place : LexicalError.Cause → LexicalError := fun cause ↦ ⟨Scan.lineAfter newlines, cause⟩
  have herror : ∀ m ∈ outline newlines line,
      m.error? = ((Segment.cause? ∘ Landmark.segment) m).map place := by
    intro m hm
    rw [← flatMap_text_segments line] at hline
    rw [Landmark.error?, newlines_of_mem_landmarks hline m hm]
    rfl
  calc
    _ = ((outline newlines line).filterMap (Segment.cause? ∘ Landmark.segment)).map place := by
      rw [List.filterMap_congr herror, List.map_filterMap]
    _ = ((segments line).filterMap Segment.cause?).map place := by
      rw [outline, filterMap_segment_landmarks fun _ ↦ Segment.cause?_of_isSilent]
    _ = _ := by
      rw [errors_ofText, String.toList_ofList, ← map_cause_errorsAfter [], List.map_map]
      rfl

/-- The errors on a line of the text are those of that line. -/
theorem errors_eq_flatMap_lines
    (hclosed : ∀ line ∈ Split.linesOf source.toList, IsClosed (segments line)) :
    (Scan.ofText source).errors =
      ((Text.Split.lines source).zipIdx 0).flatMap fun place ↦
        (Scan.ofText place.1).errors.map fun e ↦ ⟨Scan.lineAfter place.2, e.cause⟩ := by
  have hline : ∀ place ∈ (Split.linesOf source.toList).zipIdx 0,
      (outline place.2 place.1).filterMap Landmark.error? =
        (Scan.ofText (String.ofList place.1)).errors.map fun e ↦
          ⟨Scan.lineAfter place.2, e.cause⟩ := by
    intro place hplace
    exact filterMap_error?_outline
      (Text.Split.newline_not_mem_linesOf _ (List.fst_mem_of_mem_zipIdx hplace)) place.2
  rw [errors_eq_outline, outline_linesOf hclosed, List.filterMap_flatMap, Text.Split.lines,
    List.zipIdx_map, List.flatMap_map]
  exact List.flatMap_congr hline

end Lines

end Grammar

end LoxScan
