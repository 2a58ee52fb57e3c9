import LoxScan.Proofs.Source.Segmentation

/-!
# Outlines

Blanks and comments leave nothing in a scan but the newlines they hold.  The outline of a text is
the row of its lexemes and faults, each with the number of newlines in front of it.  The scan can
be read off the outline, so two texts are compared by their outlines, however far apart the same
lexemes stand in them.
-/

namespace LoxScan.Grammar

/-- Blanks and comments are silent. -/
def Role.isSilent : Role → Bool
  | .blank | .lineComment | .blockComment => true
  | .lexeme _ _ | .fault _ => false

/-- A lexeme or fault with the number of newlines in front of it. -/
structure Landmark where
  newlines : Nat
  segment : Segment

namespace Landmark

def token? (m : Landmark) : Option Token :=
  m.segment.lexeme?.map fun (kind, lexeme, literal) ↦
    ⟨kind, lexeme, literal, Scan.lineAfter (m.newlines + m.segment.text.count '\n')⟩

def error? (m : Landmark) : Option LexicalError :=
  m.segment.cause?.map fun cause ↦ ⟨Scan.lineAfter m.newlines, cause⟩

end Landmark

/-- The landmarks among segments that follow a number of newlines. -/
def landmarks (newlines : Nat) : List Segment → List Landmark
  | [] => []
  | s :: segments =>
    (if s.role.isSilent then [] else [⟨newlines, s⟩]) ++
      landmarks (newlines + s.text.count '\n') segments

def outline (newlines : Nat) (source : List Char) : List Landmark :=
  landmarks newlines (segments source)

theorem outline_nil (newlines : Nat) : outline newlines [] = [] := by
  rw [outline, segments_nil, landmarks]

theorem outline_of_stands {role : Role} {text rest : List Char} (h : Stands role text rest)
    (newlines : Nat) :
    outline newlines (text ++ rest) =
      (if role.isSilent then [] else [⟨newlines, ⟨role, text⟩⟩]) ++
        outline (newlines + text.count '\n') rest := by
  rw [outline, segments_of_stands h, landmarks, outline]

theorem outline_of_silent {role : Role} {text rest : List Char} (h : Stands role text rest)
    (hrole : role.isSilent) (newlines : Nat) :
    outline newlines (text ++ rest) = outline (newlines + text.count '\n') rest := by
  rw [outline_of_stands h, if_pos hrole, List.nil_append]

theorem Segment.lexeme?_of_isSilent {s : Segment} (h : s.role.isSilent) : s.lexeme? = none := by
  obtain ⟨role, text⟩ := s
  cases role with
  | blank | lineComment | blockComment => rfl
  | lexeme _ _ | fault _ => cases h

theorem Segment.cause?_of_isSilent {s : Segment} (h : s.role.isSilent) : s.cause? = none := by
  obtain ⟨role, text⟩ := s
  cases role with
  | blank | lineComment | blockComment => rfl
  | lexeme _ _ | fault _ => cases h

/-- What is read off a place by its segment and the newlines in front of it is read off the
landmarks, if nothing is read off blanks and comments. -/
theorem filterMap_places_eq_landmarks {α : Type} {f : Place → Option α} {g : Landmark → Option α}
    (hfg : ∀ before s, f ⟨before, s⟩ = g ⟨before.count '\n', s⟩)
    (hsilent : ∀ newlines s, s.role.isSilent → g ⟨newlines, s⟩ = none)
    (before : List Char) (segments : List Segment) :
    (places before segments).filterMap f =
      (landmarks (before.count '\n') segments).filterMap g := by
  induction segments generalizing before with
  | nil => rfl
  | cons s segments ih =>
    have hrest := ih (before ++ s.text)
    rw [List.count_append] at hrest
    rw [places, landmarks, List.filterMap_append, ← hrest]
    by_cases hrole : s.role.isSilent
    · rw [if_pos hrole, List.filterMap_cons_none ((hfg before s).trans (hsilent _ s hrole))]
      rfl
    · rw [if_neg hrole, List.filterMap_cons, hfg before s]
      cases hg : g ⟨before.count '\n', s⟩ with
      | none => simp [hg]
      | some a => simp [hg]

theorem tokens_eq_outline (source : String) :
    (Scan.ofText source).tokens = (outline 0 source.toList).filterMap Landmark.token? ++
      [Token.endOfText (Scan.lineAfter (source.toList.count '\n'))] := by
  rw [tokens_ofText]
  congr 1
  refine filterMap_places_eq_landmarks (fun before s ↦ ?_) (fun newlines s hs ↦ ?_) [] _
  · simp only [Place.token?, Landmark.token?, Place.through, List.count_append]
  · rw [Landmark.token?, Segment.lexeme?_of_isSilent hs, Option.map_none]

theorem errors_eq_outline (source : String) :
    (Scan.ofText source).errors = (outline 0 source.toList).filterMap Landmark.error? := by
  rw [errors_ofText]
  refine filterMap_places_eq_landmarks (fun _ _ ↦ rfl) (fun newlines s hs ↦ ?_) [] _
  rw [Landmark.error?, Segment.cause?_of_isSilent hs, Option.map_none]

end LoxScan.Grammar
