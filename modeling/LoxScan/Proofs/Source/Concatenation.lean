import LoxScan.Proofs.Source.Lines

/-!
# Scans across a newline

Nothing but the count of lines crosses a newline that stands outside strings and comments.  Text
in front of such a newline is cut as if it ended there, and text behind it as if it began there,
so the scan of two texts with a newline between them is the two scans one after the other.
-/

namespace LoxScan.Grammar

/-- A blank can follow the end of a text, unless the text ends within quotes or a comment that only
a newline ends. -/
theorem Stands.append_blank {role : Role} {text rest tail : List Char} (h : Stands role text rest)
    (hstring : role ≠ .fault .unterminatedString) (hcomment : role ≠ .fault .unterminatedComment)
    (htail : ∀ c ∈ tail.head?, IsBlank c)
    (hline : role = .lineComment → rest = [] → ∀ c ∈ tail.head?, c = '\n') :
    Stands role text (rest ++ tail) := by
  cases h with
  | blank hc => exact .blank hc
  | lineComment hbody hrest =>
    refine .lineComment hbody fun c hc ↦ ?_
    cases rest with
    | nil => exact hline rfl rfl c hc
    | cons d rest => exact hrest c hc
  | blockComment hbody => exact .blockComment hbody
  | lexeme hspells hends => exact .lexeme hspells (hends.append_blank htail)
  | unexpected hc => exact .unexpected hc
  | openString hbody => exact absurd rfl hstring
  | openComment hbody => exact absurd rfl hcomment

/-- What follows the end of a text can be put off to the next line, unless the text ends within
quotes or a block comment. -/
theorem Stands.append_newline {role : Role} {text rest : List Char} (h : Stands role text rest)
    (hstring : role ≠ .fault .unterminatedString) (hcomment : role ≠ .fault .unterminatedComment)
    (tail : List Char) : Stands role text (rest ++ '\n' :: tail) := by
  apply h.append_blank hstring hcomment
  · rintro c ⟨⟩
    decide
  · rintro - - c ⟨⟩
    rfl

/-- Text that ends outside strings and comments. -/
def IsClosed (segments : List Segment) : Prop :=
  ∀ s ∈ segments, s.role ≠ .fault .unterminatedString ∧ s.role ≠ .fault .unterminatedComment

theorem Segmentation.segments_append_newline {source : List Char} {cut : List Segment}
    (h : Segmentation source cut) (hclosed : IsClosed cut) (tail : List Char) :
    segments (source ++ '\n' :: tail) = cut ++ ⟨.blank, ['\n']⟩ :: segments tail := by
  induction h with
  | nil => exact segments_of_stands (.blank (by decide))
  | cons hstands hrest ih =>
    obtain ⟨hs, hclosed⟩ := List.forall_mem_cons.1 hclosed
    have hstands := hstands.append_newline hs.1 hs.2 tail
    rw [List.append_assoc, segments_of_stands hstands, ih hclosed, List.cons_append]

theorem places_append_before (front before : List Char) (segments : List Segment) :
    places (front ++ before) segments =
      (places before segments).map fun place ↦ ⟨front ++ place.before, place.segment⟩ := by
  induction segments generalizing before with
  | nil => rfl
  | cons s segments ih => rw [places, places, List.map_cons, ← ih, List.append_assoc]

theorem filterMap_places_append_before {α : Type} {f : Place → Option α} {g : α → α}
    {front : List Char}
    (hf : ∀ before s, f ⟨front ++ before, s⟩ = (f ⟨before, s⟩).map g)
    (before : List Char) (segments : List Segment) :
    (places (front ++ before) segments).filterMap f =
      ((places before segments).filterMap f).map g := by
  rw [places_append_before, List.filterMap_map, List.map_filterMap]
  congr 1
  funext place
  exact hf place.before place.segment

theorem tokensAfter_append_before (front before source : List Char) :
    tokensAfter (front ++ before) source = (tokensAfter before source).map fun t ↦
      { t with line := t.line + UInt32.ofNat (front.count '\n') } := by
  apply filterMap_places_append_before
  intro before s
  have hcount : (front ++ before ++ s.text).count '\n' =
      front.count '\n' + (before ++ s.text).count '\n' := by
    rw [List.append_assoc, List.count_append]
  simp only [Place.token?, Place.through, hcount, lineAfter_add, Option.map_map]
  rfl

theorem errorsAfter_append_before (front before source : List Char) :
    errorsAfter (front ++ before) source = (errorsAfter before source).map fun e ↦
      { e with line := e.line + UInt32.ofNat (front.count '\n') } := by
  apply filterMap_places_append_before
  intro before s
  simp only [Place.error?, List.count_append, lineAfter_add, Option.map_map]
  rfl

theorem toNat_lineAfter_add {m n : Nat} (h : m + n < UInt32.size - 1) :
    (Scan.lineAfter n + UInt32.ofNat m).toNat = (Scan.lineAfter n).toNat + m := by
  rw [← lineAfter_add, toNat_lineAfter h, toNat_lineAfter (by omega)]
  omega

theorem toList_append_newline (a b : String) :
    (a ++ "\n" ++ b).toList = a.toList ++ '\n' :: b.toList := by
  rw [String.toList_append, String.toList_append, List.append_assoc]
  rfl

theorem count_append_newline (source : List Char) :
    (source ++ ['\n']).count '\n' = 1 + source.count '\n' := by
  rw [List.count_append, Nat.add_comm]
  rfl

theorem count_toList_append_newline (a b : String) :
    (a ++ "\n" ++ b).toList.count '\n' = (1 + a.toList.count '\n') + b.toList.count '\n' := by
  rw [toList_append_newline, ← count_append_newline, ← List.count_append, List.append_assoc]
  rfl

theorem filterMap_places_append_newline {α : Type} {f : Place → Option α}
    (hf : ∀ before c, f ⟨before, ⟨.blank, [c]⟩⟩ = none) {source : List Char}
    (hclosed : IsClosed (segments source)) (tail : List Char) :
    (places [] (segments (source ++ '\n' :: tail))).filterMap f =
      (places [] (segments source)).filterMap f ++
        (places (source ++ ['\n']) (segments tail)).filterMap f := by
  have hplaces : places [] (segments (source ++ '\n' :: tail)) =
      places [] (segments source) ++
        ⟨source, ⟨.blank, ['\n']⟩⟩ :: places (source ++ ['\n']) (segments tail) := by
    rw [(segmentation_segments source).segments_append_newline hclosed, places_append,
      flatMap_text_segments]
    rfl
  rw [hplaces, List.filterMap_append, List.filterMap_cons_none (hf source '\n')]

theorem tokensAfter_append_newline {source : List Char} (hclosed : IsClosed (segments source))
    (tail : List Char) :
    tokensAfter [] (source ++ '\n' :: tail) =
      tokensAfter [] source ++ (tokensAfter [] tail).map fun t ↦
        { t with line := t.line + UInt32.ofNat (1 + source.count '\n') } := by
  have hshift := tokensAfter_append_before (source ++ ['\n']) [] tail
  rw [List.append_nil, count_append_newline] at hshift
  rw [← hshift]
  exact filterMap_places_append_newline (fun _ _ ↦ rfl) hclosed tail

theorem errorsAfter_append_newline {source : List Char} (hclosed : IsClosed (segments source))
    (tail : List Char) :
    errorsAfter [] (source ++ '\n' :: tail) =
      errorsAfter [] source ++ (errorsAfter [] tail).map fun e ↦
        { e with line := e.line + UInt32.ofNat (1 + source.count '\n') } := by
  have hshift := errorsAfter_append_before (source ++ ['\n']) [] tail
  rw [List.append_nil, count_append_newline] at hshift
  rw [← hshift]
  exact filterMap_places_append_newline (fun _ _ ↦ rfl) hclosed tail

theorem tokens_append_newline {a : String} (hclosed : IsClosed (segments a.toList)) (b : String) :
    (Scan.ofText (a ++ "\n" ++ b)).tokens =
      (Scan.ofText a).tokens.dropLast ++ (Scan.ofText b).tokens.map fun t ↦
        { t with line := t.line + UInt32.ofNat (1 + a.toList.count '\n') } := by
  have hend : Scan.lineAfter ((a ++ "\n" ++ b).toList.count '\n') =
      Scan.lineAfter (b.toList.count '\n') + UInt32.ofNat (1 + a.toList.count '\n') := by
    rw [count_toList_append_newline, lineAfter_add]
  rw [tokens_ofText, hend, toList_append_newline, tokensAfter_append_newline hclosed,
    tokens_ofText a, List.dropLast_concat, tokens_ofText b, List.map_append, List.append_assoc]
  rfl

theorem errors_append_newline {a : String} (hclosed : IsClosed (segments a.toList)) (b : String) :
    (Scan.ofText (a ++ "\n" ++ b)).errors =
      (Scan.ofText a).errors ++ (Scan.ofText b).errors.map fun e ↦
        { e with line := e.line + UInt32.ofNat (1 + a.toList.count '\n') } := by
  rw [errors_ofText, toList_append_newline, errorsAfter_append_newline hclosed, errors_ofText,
    errors_ofText]

theorem exists_error_of_fault {source : String} {s : Segment} {cause : LexicalError.Cause}
    (hs : s ∈ segments source.toList) (hrole : s.role = .fault cause) :
    ∃ e ∈ (Scan.ofText source).errors, e.cause = cause := by
  have hcause : s.cause? = some cause := by rw [Segment.cause?, hrole]
  have hmem : cause ∈ (segments source.toList).filterMap Segment.cause? :=
    List.mem_filterMap.2 ⟨s, hs, hcause⟩
  rw [← map_cause_errorsAfter [], ← errors_ofText] at hmem
  exact List.mem_map.1 hmem

/-- A text whose scan leaves no string and no comment open is closed. -/
theorem isClosed_of_errors {source : String}
    (h : ∀ e ∈ (Scan.ofText source).errors,
      e.cause ≠ .unterminatedString ∧ e.cause ≠ .unterminatedComment) :
    IsClosed (segments source.toList) := by
  intro s hs
  constructor
  · intro hrole
    obtain ⟨e, he, hcause⟩ := exists_error_of_fault hs hrole
    exact (h e he).1 hcause
  · intro hrole
    obtain ⟨e, he, hcause⟩ := exists_error_of_fault hs hrole
    exact (h e he).2 hcause

/-- A text that leaves no string and no comment open keeps its tokens and errors when a newline
and any further text follow it, and those of the further text move down by its lines.  The moved
numbers are the sums as long as the whole text fits the counter. -/
theorem scan_append_newline (a b : String)
    (ha : ∀ e ∈ (Scan.ofText a).errors,
      e.cause ≠ .unterminatedString ∧ e.cause ≠ .unterminatedComment) :
    (Scan.ofText (a ++ "\n" ++ b)).tokens =
        (Scan.ofText a).tokens.dropLast ++ (Scan.ofText b).tokens.map (fun t ↦
          { t with line := t.line + UInt32.ofNat (1 + a.toList.count '\n') }) ∧
      (Scan.ofText (a ++ "\n" ++ b)).errors =
        (Scan.ofText a).errors ++ (Scan.ofText b).errors.map (fun e ↦
          { e with line := e.line + UInt32.ofNat (1 + a.toList.count '\n') }) ∧
      ((a ++ "\n" ++ b).toList.count '\n' < UInt32.size - 1 →
        (∀ t ∈ (Scan.ofText b).tokens, (t.line + UInt32.ofNat (1 + a.toList.count '\n')).toNat =
          t.line.toNat + (1 + a.toList.count '\n')) ∧
        ∀ e ∈ (Scan.ofText b).errors, (e.line + UInt32.ofNat (1 + a.toList.count '\n')).toNat =
          e.line.toNat + (1 + a.toList.count '\n')) := by
  have hclosed := isClosed_of_errors ha
  refine ⟨tokens_append_newline hclosed b, errors_append_newline hclosed b, fun hlines ↦ ?_⟩
  rw [count_toList_append_newline] at hlines
  constructor
  · intro t ht
    obtain ⟨n, hn, hline⟩ := exists_line_of_mem_tokens ht
    rw [hline, toNat_lineAfter_add (by omega)]
  · intro e he
    obtain ⟨n, hn, hline⟩ := exists_line_of_mem_errors he
    rw [hline, toNat_lineAfter_add (by omega)]

/-- The fraction on the second line does not reach the point at the end of the first. -/
theorem scan_point_append_newline :
    (∀ e ∈ (Scan.ofText "@ 1.").errors,
        e.cause ≠ .unterminatedString ∧ e.cause ≠ .unterminatedComment) ∧
      (Scan.ofText ("@ 1." ++ "\n" ++ "5 @ \"")).tokens =
        (Scan.ofText "@ 1.").tokens.dropLast ++ (Scan.ofText "5 @ \"").tokens.map (fun t ↦
          { t with line := t.line + UInt32.ofNat (1 + "@ 1.".toList.count '\n') }) ∧
      (Scan.ofText ("@ 1." ++ "\n" ++ "5 @ \"")).errors =
        (Scan.ofText "@ 1.").errors ++ (Scan.ofText "5 @ \"").errors.map (fun e ↦
          { e with line := e.line + UInt32.ofNat (1 + "@ 1.".toList.count '\n') }) := by
  have ha : ∀ e ∈ (Scan.ofText "@ 1.").errors,
      e.cause ≠ .unterminatedString ∧ e.cause ≠ .unterminatedComment := by decide +kernel
  have h := scan_append_newline "@ 1." "5 @ \"" ha
  exact ⟨ha, h.1, h.2.1⟩

end LoxScan.Grammar
