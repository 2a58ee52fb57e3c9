import LoxScan.Proofs.Number.DecimalText

/-!
# Displayed numbers read back

The value of a number token is neither negative nor NaN.  Between the bounds of the positional form
it is displayed as two runs of digits with a point between them, and scanning this text gives one
number with the same value.  Outside these bounds the text holds a letter, so it is no number.
-/

namespace LoxScan

open Grammar Number

namespace Number.Binary64

variable {x : Binary64}

/-- The numbers that are displayed positionally. -/
def IsPositional (x : Binary64) : Prop :=
  x.IsFinite ∧ (x.toRat = 0 ∨ 1 / 10 ^ 4 ≤ x.toRat ∧ x.toRat < 10 ^ 16)

theorem isZero_iff : x.isZero = true ↔ x.unsigned = 0 := by
  rw [isZero, biasedExponent_eq, fraction_eq, Bool.and_eq_true, beq_iff_eq, beq_iff_eq,
    fractionLimit_eq]
  omega

theorem toRat_eq_zero_iff (hx : x.isNegative = false) : x.toRat = 0 ↔ x.unsigned = 0 := by
  have hzero : magnitudeAt 0 = 0 := rfl
  rw [toRat_of_not_isNegative hx, div_eq_zero_iff, or_iff_left (pow_pos two_pos 1074).ne',
    Nat.cast_eq_zero]
  constructor
  · exact fun h ↦ strictMono_magnitudeAt.injective (h.trans hzero.symm)
  · exact fun h ↦ h ▸ hzero

theorem roundsTo_zero (hx : x.isNegative = false) (hfinite : x.IsFinite) (hzero : x.unsigned = 0) :
    RoundsTo 0 x := by
  have hnearest : IsNearestPattern (0 * 2 ^ 1074) 0 := by
    rw [zero_mul]
    exact isNearestPattern_zero
  rw [← atPattern_unsigned hx hfinite, hzero]
  exact hnearest.roundsTo le_rfl

theorem display_of_isInfinite (hnegative : x.isNegative = false) (hnan : x.isNaN = false)
    (h : x.isInfinite = true) : x.display = "inf" := by
  rw [display, hnan, hnegative, h]
  rfl

theorem display_of_isZero (hnegative : x.isNegative = false) (hnan : x.isNaN = false)
    (hinfinite : x.isInfinite = false) (h : x.isZero = true) : x.display = "0.0" := by
  rw [display, hnan, hnegative, hinfinite, h]
  rfl

theorem display_of_shortest (hnegative : x.isNegative = false) (hnan : x.isNaN = false)
    (hinfinite : x.isInfinite = false) (h : x.isZero = false) :
    x.display = String.ofList x.shortest.text := by
  rw [display, hnan, hnegative, hinfinite, h]
  rfl

end Number.Binary64

namespace Grammar

open Number.Numeral (wholeValue fractionValue)
open Number.Binary64 (RoundsTo)

variable {x : Binary64} {q : ℚ}

/-- Two runs of digits with a point between them. -/
def IsPointed (text : List Char) : Prop :=
  ∃ whole fraction, IsDigitRun whole ∧ IsDigitRun fraction ∧ text = whole ++ '.' :: fraction

/-- Scanning a text finds a number with a value, and nothing else. -/
def ReadsAs (text : String) (x : Binary64) : Prop :=
  ∃ number last : Token, Scan.ofText text = ⟨[number, last], []⟩ ∧ number.kind = .number ∧
    number.literal = some (.number x) ∧ last.kind = .endOfText

/-- Text that spells a lexeme without a newline is scanned as that lexeme. -/
theorem ofText_of_spells {kind : Token.Kind} {literal : Option Literal} {text : String}
    (h : Spells kind literal text.toList) (hnewline : '\n' ∉ text.toList) :
    Scan.ofText text = ⟨[⟨kind, text, literal, 1⟩, Token.endOfText 1], []⟩ := by
  have hsegments := segments_of_stands (.lexeme h (endsBefore_nil _ kind))
  rw [List.append_nil, segments_nil] at hsegments
  have hcount : text.toList.count '\n' = 0 := List.count_eq_zero.2 hnewline
  have htokens : (Scan.ofText text).tokens = [⟨kind, text, literal, 1⟩, Token.endOfText 1] := by
    rw [tokens_ofText, tokensAfter, hsegments, hcount, places, places, List.filterMap_cons,
      Place.token?, Place.through, List.nil_append, hcount]
    simp [Segment.lexeme?, Scan.lineAfter]
  have herrors : (Scan.ofText text).errors = [] := by
    rw [errors_ofText, errorsAfter, hsegments]
    rfl
  rw [← htokens, ← herrors]

theorem newline_not_mem_of_spells {literal : Option Literal} {text : List Char}
    (h : Spells .number literal text) : '\n' ∉ text :=
  fun hmem ↦ h.not_isBlank_of_mem (by decide) _ hmem (by decide)

/-- Between the bounds a number is displayed by two runs of digits that denote what rounds to it. -/
theorem exists_display_eq (hx : RoundsTo q x) (h : x.IsPositional) :
    ∃ whole fraction, IsDigitRun whole ∧ IsDigitRun fraction ∧
      x.display.toList = whole ++ '.' :: fraction ∧
      RoundsTo (wholeValue whole + fractionValue fraction) x := by
  obtain ⟨hfinite, hrange⟩ := h
  have hinfinite := (Binary64.isFinite_iff_of_isNaN hx.isNaN).1 hfinite
  rw [Binary64.toRat_eq_zero_iff hx.isNegative] at hrange
  by_cases hzero : x.unsigned = 0
  · have hwhole : wholeValue ['0'] = 0 := by simpa using Numeral.wholeValue_toDigits 0
    have hfraction : fractionValue ['0'] = 0 := Numeral.fractionValue_zeros 1
    have hrun : IsDigitRun ['0'] := ⟨List.cons_ne_nil _ _, List.forall_mem_singleton.2 rfl⟩
    refine ⟨['0'], ['0'], hrun, hrun, ?_, ?_⟩
    · rw [Binary64.display_of_isZero hx.isNegative hx.isNaN hinfinite (Binary64.isZero_iff.2 hzero)]
      rfl
    · rw [hwhole, hfraction, add_zero]
      exact Binary64.roundsTo_zero hx.isNegative hfinite hzero
  · have hpoint := (Binary64.shortest_point_iff hx.isNegative hfinite hzero).2
      (hrange.resolve_left hzero)
    obtain ⟨hpositive, hround⟩ := Binary64.roundsTo_shortest hx.isNegative hfinite hzero
    obtain ⟨whole, fraction, hwhole, hfraction, htext, hvalue⟩ :=
      Decimal.exists_positional (fun c ↦ Decimal.isDigit_of_mem_digits) x.shortest.point
    refine ⟨whole, fraction, hwhole, hfraction, ?_, ?_⟩
    · rw [Binary64.display_of_shortest hx.isNegative hx.isNaN hinfinite
        (Bool.not_eq_true _ ▸ Binary64.isZero_iff.not.2 hzero), String.toList_ofList, Decimal.text,
        if_pos hpoint, htext]
    · rwa [hvalue, Decimal.fractionValue_digits]

/-- Two runs of digits that denote what rounds to a number are read as this number. -/
theorem readsAs_of_denotes {text : String} (hq : Denotes text.toList q) (hx : RoundsTo q x) :
    ReadsAs text x := by
  obtain ⟨y, hspells, hy⟩ := hq.exists_spells
  obtain rfl := hx.unique hq.nonneg hy
  exact ⟨_, _, ofText_of_spells hspells (newline_not_mem_of_spells hspells), rfl, rfl, rfl⟩

theorem not_isPointed_of_mem {text : List Char} {c : Char} (hc : c ∈ text) (hdigit : ¬ c.isDigit)
    (hpoint : c ≠ '.') : ¬ IsPointed text := by
  rintro ⟨whole, fraction, hwhole, hfraction, rfl⟩
  rw [List.mem_append, List.mem_cons] at hc
  rcases hc with hc | rfl | hc
  · exact hdigit (hwhole.2 c hc)
  · exact hpoint rfl
  · exact hdigit (hfraction.2 c hc)

theorem exists_segments_of_wordStart {c : Char} (hc : IsWordStart c) (rest : List Char) :
    ∃ kind word later, segments (c :: rest) = ⟨.lexeme kind none, word⟩ :: later := by
  rw [segments, Piece.cutAll, Piece.cut_wordStart hc, List.map_cons]
  exact ⟨_, _, _, rfl⟩

/-- A letter behind a number begins another lexeme. -/
theorem not_readsAs_of_letter {literal : Option Literal} {number rest : List Char} {c : Char}
    (h : Spells .number literal number) (hc : IsWordStart c) :
    ¬ ReadsAs (String.ofList (number ++ c :: rest)) x := by
  have hends : EndsBefore number (c :: rest) .number := by
    refine ⟨fun d hd ↦ ?_, fun _ d tail heq ↦ ?_⟩
    · obtain rfl : c = d := by simpa using hd
      exact not_isDigit_of_isWordStart hc
    · exact absurd (List.cons.inj heq).1 (ne_of_class hc (by decide))
  obtain ⟨kind, word, later, hlater⟩ := exists_segments_of_wordStart hc rest
  have hlexemes := map_lexeme_tokensAfter [] (number ++ c :: rest)
  rw [segments_of_stands (.lexeme h hends), hlater] at hlexemes
  rintro ⟨first, last, hscan, -⟩
  have htokens := tokens_ofText (String.ofList (number ++ c :: rest))
  rw [String.toList_ofList, hscan] at htokens
  have hlength := congrArg List.length hlexemes
  have htotal := congrArg List.length htokens
  simp [Segment.lexeme?] at hlength htotal
  omega

/-- A scientific form is a number with a letter behind it. -/
theorem exists_scientific {digits : List Char} (hdigits : ∀ c ∈ digits, c.isDigit)
    (hne : digits ≠ []) (point : Int) :
    ∃ number literal exponent, Spells .number literal number ∧
      Decimal.scientific digits point = number ++ 'e' :: exponent := by
  obtain ⟨c, more, rfl⟩ := List.exists_cons_of_ne_nil hne
  obtain ⟨hc, hmore⟩ := List.forall_mem_cons.1 hdigits
  have hfirst : IsDigitRun [c] := ⟨List.cons_ne_nil _ _, by simpa using hc⟩
  cases more with
  | nil => exact ⟨[c], _, _, .integer hfirst, rfl⟩
  | cons d more =>
    exact ⟨[c] ++ '.' :: d :: more, _, _, .decimal hfirst ⟨List.cons_ne_nil _ _, hmore⟩, rfl⟩

theorem not_readsAs_inf : ¬ ReadsAs "inf" x := by
  have hword : (Scan.ofText "inf").tokens.head?.map Token.kind = some .identifier := by
    decide +kernel
  rintro ⟨number, last, hscan, hnumber, -⟩
  rw [hscan, List.head?_cons, Option.map_some, hnumber] at hword
  cases hword

/-- Outside the bounds a number is displayed with a letter and not read as itself. -/
theorem not_isPointed_and_not_readsAs (hx : RoundsTo q x) (h : ¬ x.IsPositional) :
    ¬ IsPointed x.display.toList ∧ ¬ ReadsAs x.display x := by
  by_cases hinfinite : x.isInfinite = true
  · rw [Binary64.display_of_isInfinite hx.isNegative hx.isNaN hinfinite]
    exact ⟨not_isPointed_of_mem (c := 'i') (by decide) (by decide) (by decide), not_readsAs_inf⟩
  rw [Bool.not_eq_true] at hinfinite
  have hfinite := (Binary64.isFinite_iff_of_isNaN hx.isNaN).2 hinfinite
  have hrange := not_or.1 fun hrange ↦ h ⟨hfinite, hrange⟩
  have hzero : x.unsigned ≠ 0 := (Binary64.toRat_eq_zero_iff hx.isNegative).not.1 hrange.1
  have hpoint := (Binary64.shortest_point_iff hx.isNegative hfinite hzero).not.2 hrange.2
  obtain ⟨hpositive, -⟩ := Binary64.roundsTo_shortest hx.isNegative hfinite hzero
  obtain ⟨number, literal, exponent, hspells, htext⟩ := exists_scientific
    (fun c ↦ Decimal.isDigit_of_mem_digits) (Decimal.digits_ne_nil hpositive) x.shortest.point
  have hdisplay : x.display = String.ofList (number ++ 'e' :: exponent) := by
    rw [Binary64.display_of_shortest hx.isNegative hx.isNaN hinfinite
      (Bool.not_eq_true _ ▸ Binary64.isZero_iff.not.2 hzero), Decimal.text, if_neg hpoint, htext]
  rw [hdisplay, String.toList_ofList]
  refine ⟨not_isPointed_of_mem (c := 'e') ?_ (by decide) (by decide),
    not_readsAs_of_letter hspells (by decide)⟩
  exact List.mem_append_right _ List.mem_cons_self

/-- The value of a number token is displayed as two runs of digits with a point between them iff it
is zero or lies between the bounds of the positional form, and in just these cases scanning the
displayed text finds no error and one number with the same value. -/
theorem display_of_number {source : String} {t : Token} (ht : t ∈ (Scan.ofText source).tokens)
    (hkind : t.kind = .number) :
    ∃ x : Binary64, t.literal = some (.number x) ∧
      (IsPointed (Literal.number x).display.toList ↔ x.IsPositional) ∧
      (ReadsAs (Literal.number x).display x ↔ x.IsPositional) := by
  have hspells : Spells .number t.literal t.lexeme.toList := by
    rcases spells_or_ends_of_mem_tokens ht with hspells | ⟨hend, -⟩
    · rwa [hkind] at hspells
    · rw [hkind] at hend
      cases hend
  obtain ⟨q, hq⟩ := hspells.exists_denotes
  obtain ⟨x, hnumber, hround⟩ := hq.exists_spells
  refine ⟨x, (hspells.unique hnumber).2, ?_⟩
  rw [Literal.display]
  by_cases h : x.IsPositional
  · obtain ⟨whole, fraction, hwhole, hfraction, htext, hvalue⟩ := exists_display_eq hround h
    have hdenotes : Denotes x.display.toList (wholeValue whole + fractionValue fraction) :=
      htext ▸ .decimal hwhole hfraction
    exact ⟨iff_of_true ⟨whole, fraction, hwhole, hfraction, htext⟩ h,
      iff_of_true (readsAs_of_denotes hdenotes hvalue) h⟩
  · obtain ⟨hpointed, hreads⟩ := not_isPointed_and_not_readsAs hround h
    exact ⟨iff_of_false hpointed h, iff_of_false hreads h⟩

/-- The greatest number that is displayed positionally. -/
theorem display_of_number_below_end :
    IsPointed "9999999999999998.0".toList ∧
      ReadsAs "9999999999999998.0" ⟨0x4341C37937E07FFF⟩ := by
  let lexeme := "9999999999999998.9"
  let t : Token := ⟨.number, lexeme, some (.number ⟨0x4341C37937E07FFF⟩), 1⟩
  have ht : t ∈ (Scan.ofText lexeme).tokens := by decide +kernel
  have hdisplay : (Literal.number ⟨0x4341C37937E07FFF⟩).display = "9999999999999998.0" := by
    decide +kernel
  obtain ⟨x, hliteral, hpointed, hreads⟩ := display_of_number ht rfl
  cases hliteral
  have hpositional : Binary64.IsPositional ⟨0x4341C37937E07FFF⟩ := by
    refine ⟨by unfold Binary64.IsFinite; decide, .inr ⟨?_, ?_⟩⟩
    · decide +kernel
    · decide +kernel
  rw [hdisplay] at hpointed hreads
  exact ⟨hpointed.2 hpositional, hreads.2 hpositional⟩

/-- The power of ten behind it is a whole number of seventeen digits, but it is displayed in
scientific form, which is read as a smaller number and a name. -/
theorem display_ten_quadrillion :
    ∃ t ∈ (Scan.ofText "10000000000000000").tokens, t.kind = .number ∧
      t.literal.map Literal.display = some "1e16" ∧ ¬ IsPointed "1e16".toList ∧
      (Scan.ofText "1e16").tokens.map (fun u ↦ (u.kind, u.lexeme)) =
        [(.number, "1"), (.identifier, "e16"), (.endOfText, "")] := by
  refine ⟨⟨.number, "10000000000000000", some (.number ⟨0x4341C37937E08000⟩), 1⟩,
    ?_, rfl, ?_, ?_, ?_⟩
  · decide +kernel
  · decide +kernel
  · exact not_isPointed_of_mem (c := 'e') (by decide) (by decide) (by decide)
  · decide +kernel

end Grammar

end LoxScan
