import LoxScan.Proofs.Source.FirstSegment

/-!
# Scans follow the segmentation

A text has exactly one segmentation, and its scan holds one token for each lexeme of it and one
error for each fault, in order.  What a segment contributes depends on the segment and on the
number of newlines in front of it, so a scan can be taken apart at any border of two segments.
-/

namespace LoxScan.Grammar

namespace Segment

/-- The kind, characters and value of a lexeme. -/
def lexeme? (s : Segment) : Option (Token.Kind × String × Option Literal) :=
  match s.role with
  | .lexeme kind literal => some (kind, String.ofList s.text, literal)
  | _ => none

def cause? (s : Segment) : Option LexicalError.Cause :=
  match s.role with
  | .fault cause => some cause
  | _ => none

end Segment

/-- A segment with the text in front of it. -/
structure Place where
  before : List Char
  segment : Segment

namespace Place

/-- The text up to the end of the segment. -/
def through (place : Place) : List Char := place.before ++ place.segment.text

def token? (place : Place) : Option Token :=
  place.segment.lexeme?.map fun (kind, lexeme, literal) ↦
    ⟨kind, lexeme, literal, Scan.lineAfter (place.through.count '\n')⟩

def error? (place : Place) : Option LexicalError :=
  place.segment.cause?.map fun cause ↦ ⟨Scan.lineAfter (place.before.count '\n'), cause⟩

end Place

/-- The places of consecutive segments behind a text. -/
def places (before : List Char) : List Segment → List Place
  | [] => []
  | s :: segments => ⟨before, s⟩ :: places (before ++ s.text) segments

theorem map_segment_places (before : List Char) (segments : List Segment) :
    (places before segments).map Place.segment = segments := by
  induction segments generalizing before with
  | nil => rfl
  | cons s segments ih => rw [places, List.map_cons, ih]

theorem places_append (before : List Char) (first last : List Segment) :
    places before (first ++ last) =
      places before first ++ places (before ++ first.flatMap Segment.text) last := by
  induction first generalizing before with
  | nil => simp [places]
  | cons s first ih => simp [places, ih]

def tokensAfter (before source : List Char) : List Token :=
  (places before (segments source)).filterMap Place.token?

def errorsAfter (before source : List Char) : List LexicalError :=
  (places before (segments source)).filterMap Place.error?

theorem token?_eq (p : Piece) (before : List Char) :
    p.token? (Scan.lineAfter (before.count '\n' + p.newlines)) =
      (Place.mk before p.segment).token? := by
  have hcount : (before ++ p.text).count '\n' = before.count '\n' + p.newlines :=
    List.count_append
  unfold Place.token? Place.through
  rw [show p.segment.text = p.text from rfl, hcount]
  cases p <;> rfl

theorem error?_eq (p : Piece) (before : List Char) :
    p.error? (Scan.lineAfter (before.count '\n')) = (Place.mk before p.segment).error? := by
  cases p <;> rfl

theorem tokensFrom_eq (before : List Char) (pieces : List Piece) :
    Scan.tokensFrom (before.count '\n') pieces =
      (places before (pieces.map Piece.segment)).filterMap Place.token? ++
        [Token.endOfText (Scan.lineAfter ((before ++ pieces.flatMap Piece.text).count '\n'))] := by
  induction pieces generalizing before with
  | nil => simp [Scan.tokensFrom, places]
  | cons p pieces ih =>
    have hnext := ih (before ++ p.text)
    rw [List.count_append, List.append_assoc] at hnext
    rw [List.map_cons, places, List.filterMap_cons, List.flatMap_cons, Scan.tokensFrom,
      token?_eq, show p.newlines = p.text.count '\n' from rfl, hnext]
    cases (Place.mk before p.segment).token? <;> rfl

theorem errorsFrom_eq (before : List Char) (pieces : List Piece) :
    Scan.errorsFrom (before.count '\n') pieces =
      (places before (pieces.map Piece.segment)).filterMap Place.error? := by
  induction pieces generalizing before with
  | nil => rfl
  | cons p pieces ih =>
    have hnext := ih (before ++ p.text)
    rw [List.count_append] at hnext
    rw [List.map_cons, places, List.filterMap_cons, Scan.errorsFrom, error?_eq,
      show p.newlines = p.text.count '\n' from rfl, hnext]
    cases (Place.mk before p.segment).error? <;> rfl

theorem tokens_ofText (source : String) :
    (Scan.ofText source).tokens = tokensAfter [] source.toList ++
      [Token.endOfText (Scan.lineAfter (source.toList.count '\n'))] := by
  have h := tokensFrom_eq [] (Piece.cutAll source.toList)
  rwa [Piece.flatMap_text_cutAll] at h

theorem errors_ofText (source : String) :
    (Scan.ofText source).errors = errorsAfter [] source.toList :=
  errorsFrom_eq [] (Piece.cutAll source.toList)

/-- What is read off a place without regard to its position is read off the segment. -/
theorem map_filterMap_places {α β : Type} {f : Place → Option α} {g : α → β}
    {h : Segment → Option β} (hfg : ∀ place, (f place).map g = h place.segment)
    (before : List Char) (segments : List Segment) :
    ((places before segments).filterMap f).map g = segments.filterMap h := by
  calc
    _ = (places before segments).filterMap (h ∘ Place.segment) := by
      rw [List.map_filterMap]
      congr 1
      funext place
      exact hfg place
    _ = _ := by rw [← List.filterMap_map, map_segment_places]

theorem map_lexeme_tokensAfter (before source : List Char) :
    (tokensAfter before source).map (fun t ↦ (t.kind, t.lexeme, t.literal)) =
      (segments source).filterMap Segment.lexeme? := by
  apply map_filterMap_places
  intro place
  rw [Place.token?, Option.map_map]
  exact congrFun Option.map_id _

theorem map_cause_errorsAfter (before source : List Char) :
    (errorsAfter before source).map LexicalError.cause =
      (segments source).filterMap Segment.cause? := by
  apply map_filterMap_places
  intro place
  rw [Place.error?, Option.map_map]
  exact congrFun Option.map_id _

theorem Segmentation.exists_stands {source : List Char} {cut : List Segment}
    (h : Segmentation source cut) : ∀ s ∈ cut, ∃ rest, Stands s.role s.text rest := by
  induction h with
  | nil => simp
  | cons hstands hrest ih => exact List.forall_mem_cons.2 ⟨⟨_, hstands⟩, ih⟩

/-- Every token is spelled as its kind asks. -/
theorem spells_of_mem_tokensAfter {before source : List Char} {t : Token}
    (ht : t ∈ tokensAfter before source) : Spells t.kind t.literal t.lexeme.toList := by
  have hmem := List.mem_map_of_mem (f := fun t : Token ↦ (t.kind, t.lexeme, t.literal)) ht
  rw [map_lexeme_tokensAfter] at hmem
  obtain ⟨⟨role, text⟩, hs, hlexeme⟩ := List.mem_filterMap.1 hmem
  obtain ⟨rest, hstands⟩ := (segmentation_segments source).exists_stands _ hs
  cases hstands with
  | lexeme hspells hends =>
    obtain ⟨hkind, htext, hliteral⟩ := by simpa [Segment.lexeme?] using hlexeme
    rwa [← hkind, ← htext, ← hliteral, String.toList_ofList]
  | _ => cases hlexeme

/-- Text has one segmentation, into segments none of which is empty.  The tokens of its scan are
the lexemes of this segmentation and the mark of the end, the errors are its faults. -/
theorem scan_segmentation (source : String) :
    ∃ cut : List Segment, Segmentation source.toList cut ∧
      (∀ other, Segmentation source.toList other → other = cut) ∧
      (∀ s ∈ cut, s.text ≠ []) ∧
      (Scan.ofText source).tokens.map (fun t ↦ (t.kind, t.lexeme, t.literal)) =
        cut.filterMap Segment.lexeme? ++ [(.endOfText, "", none)] ∧
      (Scan.ofText source).errors.map LexicalError.cause = cut.filterMap Segment.cause? := by
  refine ⟨segments source.toList, segmentation_segments _, fun _ ↦ segmentation_iff.1,
    (segmentation_segments _).text_ne_nil, ?_, ?_⟩
  · rw [tokens_ofText, List.map_append, map_lexeme_tokensAfter]
    rfl
  · rw [errors_ofText, map_cause_errorsAfter]

end LoxScan.Grammar
