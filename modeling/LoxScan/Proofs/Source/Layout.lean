import LoxScan.Proofs.Source.Lines

/-!
# Written lexemes read back

Lexemes written one after another, with blanks between neighbours, are scanned as exactly these
lexemes and without an error.  A blank extends no lexeme, so each one ends where it was written to
end, whatever its class and whatever a quoted body holds.
-/

namespace LoxScan.Grammar

/-- A lexeme is spelled as its kind asks, whatever text it is going to stand in. -/
structure Lexeme where
  kind : Token.Kind
  literal : Option Literal
  text : List Char
  spells : Spells kind literal text

def Lexeme.segment (l : Lexeme) : Segment := ⟨.lexeme l.kind l.literal, l.text⟩

/-- Lexemes with the blanks that follow each of them, behind some first blanks.  Only the last
lexeme may go without. -/
structure Layout where
  lead : List Char
  items : List (Lexeme × List Char)
  lead_blank : ∀ c ∈ lead, IsBlank c
  gap_blank : ∀ item ∈ items, ∀ c ∈ item.2, IsBlank c
  gap_ne_nil : ∀ item ∈ items.dropLast, item.2 ≠ []

def textOfItems (items : List (Lexeme × List Char)) : List Char :=
  items.flatMap fun (l, gap) ↦ l.text ++ gap

/-- The lexemes, each with the text in front of it. -/
def lexemesAfter (before : List Char) : List (Lexeme × List Char) → List (List Char × Lexeme)
  | [] => []
  | (l, gap) :: items => (before, l) :: lexemesAfter (before ++ l.text ++ gap) items

namespace Layout

def text (layout : Layout) : List Char := layout.lead ++ textOfItems layout.items

def lexemes (layout : Layout) : List (List Char × Lexeme) := lexemesAfter layout.lead layout.items

end Layout

theorem filterMap_places_blanks {α : Type} {f : Place → Option α}
    (hf : ∀ before c, f ⟨before, ⟨.blank, [c]⟩⟩ = none) {gap : List Char}
    (hgap : ∀ c ∈ gap, IsBlank c) (before rest : List Char) :
    (places before (segments (gap ++ rest))).filterMap f =
      (places (before ++ gap) (segments rest)).filterMap f := by
  induction gap generalizing before with
  | nil => simp
  | cons c gap ih =>
    obtain ⟨hc, hgap⟩ := List.forall_mem_cons.1 hgap
    have hcut : segments (c :: (gap ++ rest)) = ⟨.blank, [c]⟩ :: segments (gap ++ rest) :=
      segments_of_stands (.blank hc)
    rw [List.cons_append, hcut, places, List.filterMap_cons_none (hf before c), ih hgap,
      List.append_assoc, List.singleton_append]

/-- A lexeme is a segment of its own wherever a blank or the end follows. -/
theorem stands_lexeme (l : Lexeme) {rest : List Char} (hrest : ∀ c ∈ rest.head?, IsBlank c) :
    Stands l.segment.role l.text rest :=
  .lexeme l.spells ((endsBefore_nil l.text l.kind).append_blank hrest)

theorem gap_of_cons {l : Lexeme} {gap : List Char} {items : List (Lexeme × List Char)}
    (h : ∀ item ∈ ((l, gap) :: items).dropLast, item.2 ≠ []) :
    (items = [] ∨ gap ≠ []) ∧ ∀ item ∈ items.dropLast, item.2 ≠ [] := by
  cases items with
  | nil => simp
  | cons next items =>
    rw [List.dropLast_cons_of_ne_nil (List.cons_ne_nil _ _), List.forall_mem_cons] at h
    exact ⟨.inr h.1, h.2⟩

/-- Behind a lexeme comes a blank, or nothing if it is the last. -/
theorem head?_gap {gap : List Char} {items : List (Lexeme × List Char)}
    (hblank : ∀ c ∈ gap, IsBlank c) (h : items = [] ∨ gap ≠ []) :
    ∀ c ∈ (gap ++ textOfItems items).head?, IsBlank c := by
  cases gap with
  | nil =>
    have hitems : items = [] := h.resolve_right fun hne ↦ hne rfl
    simp [hitems, textOfItems]
  | cons d gap =>
    rintro c ⟨⟩
    exact hblank _ List.mem_cons_self

theorem filterMap_places_items {α : Type} {f : Place → Option α}
    (hf : ∀ before c, f ⟨before, ⟨.blank, [c]⟩⟩ = none) {items : List (Lexeme × List Char)}
    (hblank : ∀ item ∈ items, ∀ c ∈ item.2, IsBlank c)
    (hgap : ∀ item ∈ items.dropLast, item.2 ≠ []) (before : List Char) :
    (places before (segments (textOfItems items))).filterMap f =
      (lexemesAfter before items).filterMap fun (before, l) ↦ f ⟨before, l.segment⟩ := by
  induction items generalizing before with
  | nil =>
    rw [textOfItems, List.flatMap_nil, segments_nil]
    rfl
  | cons item items ih =>
    obtain ⟨l, gap⟩ := item
    obtain ⟨hitem, hblank⟩ := List.forall_mem_cons.1 hblank
    obtain ⟨hlast, hgap⟩ := gap_of_cons hgap
    have hcut : segments (textOfItems ((l, gap) :: items)) =
        l.segment :: segments (gap ++ textOfItems items) := by
      rw [textOfItems, List.flatMap_cons, List.append_assoc]
      exact segments_of_stands (stands_lexeme l (head?_gap hitem hlast))
    have hrest : (places (before ++ l.text) (segments (gap ++ textOfItems items))).filterMap f =
        (lexemesAfter (before ++ l.text ++ gap) items).filterMap fun (before, l) ↦
          f ⟨before, l.segment⟩ := by
      rw [filterMap_places_blanks hf hitem, ih hblank hgap]
    rw [hcut, places, show l.segment.text = l.text from rfl, lexemesAfter, List.filterMap_cons,
      List.filterMap_cons, hrest]

theorem filterMap_places_text {α : Type} {f : Place → Option α}
    (hf : ∀ before c, f ⟨before, ⟨.blank, [c]⟩⟩ = none) (layout : Layout) :
    (places [] (segments layout.text)).filterMap f =
      layout.lexemes.filterMap fun (before, l) ↦ f ⟨before, l.segment⟩ := by
  rw [Layout.text, filterMap_places_blanks hf layout.lead_blank, List.nil_append,
    filterMap_places_items hf layout.gap_blank layout.gap_ne_nil, Layout.lexemes]

/-- Lexemes with blanks between them are scanned one by one, each with the kind and the value of
its spelling and the line on which it ends. -/
theorem scan_layout (layout : Layout) (hlines : layout.text.count '\n' < UInt32.size - 1) :
    (Scan.ofText (String.ofList layout.text)).errors = [] ∧
      (Scan.ofText (String.ofList layout.text)).tokens.map
          (fun t ↦ (t.kind, t.lexeme, t.literal, t.line.toNat)) =
        layout.lexemes.map (fun (before, l) ↦
          (l.kind, String.ofList l.text, l.literal, 1 + (before ++ l.text).count '\n')) ++
        [(.endOfText, "", none, 1 + layout.text.count '\n')] := by
  constructor
  · rw [errors_ofText, String.toList_ofList, errorsAfter,
      filterMap_places_text (fun _ _ ↦ rfl) layout, List.filterMap_eq_nil_iff]
    intro _ _
    rfl
  · have hcount : (String.ofList layout.text).toList.count '\n' < UInt32.size - 1 := by
      rwa [String.toList_ofList]
    rw [map_lexemeLine_tokens hcount, String.toList_ofList,
      filterMap_places_text (fun _ _ ↦ rfl) layout, ← List.filterMap_eq_map']
    rfl

/-- A comment opener and a newline within quotes, behind a number that a point could extend. -/
def quotedOpener : Layout where
  lead := ['\n']
  items :=
    [(⟨_, _, ['1'], .integer ⟨by simp, by simp⟩⟩, ['\t']),
      (⟨_, _, ['.'], .punctuator .dot⟩, ['\r', '\n']),
      (⟨_, _, _, @Spells.string ['/', '*', '\n'] (by decide)⟩, [])]
  lead_blank := by simp [IsBlank]
  gap_blank := by simp [IsBlank]
  gap_ne_nil := by simp

theorem scan_quotedOpener :
    quotedOpener.text.count '\n' < UInt32.size - 1 ∧
      (Scan.ofText (String.ofList quotedOpener.text)).errors = [] ∧
      (Scan.ofText (String.ofList quotedOpener.text)).tokens.map
          (fun t ↦ (t.kind, t.lexeme, t.literal, t.line.toNat)) =
        quotedOpener.lexemes.map (fun (before, l) ↦
          (l.kind, String.ofList l.text, l.literal, 1 + (before ++ l.text).count '\n')) ++
        [(.endOfText, "", none, 1 + quotedOpener.text.count '\n')] :=
  ⟨by decide, scan_layout quotedOpener (by decide)⟩

end LoxScan.Grammar
