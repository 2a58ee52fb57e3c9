import Mathlib.Data.List.Basic
import LoxScan.Proofs.Source.Segmentation

/-!
# Lines of tokens and errors

A token is numbered by the line on which its lexeme ends and an error by the line on which the
offending piece begins, counted in newlines of the source itself, whichever rule read past them.
The numbers are exact as long as they fit the counter, and in each of the two sequences they never
decrease.
-/

namespace LoxScan.Grammar

theorem toNat_lineAfter {newlines : Nat} (h : newlines < UInt32.size - 1) :
    (Scan.lineAfter newlines).toNat = 1 + newlines := by
  rw [Scan.lineAfter, UInt32.toNat_ofNat_of_lt' (by omega), Nat.add_comm]

theorem lineAfter_add (m n : Nat) :
    Scan.lineAfter (m + n) = Scan.lineAfter n + UInt32.ofNat m := by
  rw [Scan.lineAfter, Scan.lineAfter, ← UInt32.ofNat_add]
  congr 1
  omega

theorem lineAfter_le {m n : Nat} (hmn : m ≤ n) (hn : n < UInt32.size - 1) :
    Scan.lineAfter m ≤ Scan.lineAfter n := by
  rw [UInt32.le_iff_toNat_le, toNat_lineAfter (by omega), toNat_lineAfter hn]
  omega

theorem before_prefix_through (place : Place) : place.before <+: place.through :=
  List.prefix_append _ _

theorem prefix_before_of_mem_places {before : List Char} {segments : List Segment} {place : Place}
    (h : place ∈ places before segments) : before <+: place.before := by
  induction segments generalizing before with
  | nil => simp [places] at h
  | cons s segments ih =>
    rcases List.mem_cons.1 h with rfl | h
    · exact List.prefix_rfl
    · exact (List.prefix_append _ _).trans (ih h)

theorem through_prefix_of_mem_places {before : List Char} {segments : List Segment} {place : Place}
    (h : place ∈ places before segments) :
    place.through <+: before ++ segments.flatMap Segment.text := by
  induction segments generalizing before with
  | nil => simp [places] at h
  | cons s segments ih =>
    rw [List.flatMap_cons, ← List.append_assoc]
    rcases List.mem_cons.1 h with rfl | h
    · exact List.prefix_append _ _
    · exact ih h

/-- A segment begins where those in front of it have ended. -/
theorem pairwise_places (before : List Char) (segments : List Segment) :
    (places before segments).Pairwise fun p q ↦ p.through <+: q.before := by
  induction segments generalizing before with
  | nil => exact .nil
  | cons s segments ih =>
    exact .cons (fun q hq ↦ prefix_before_of_mem_places hq) (ih (before ++ s.text))

theorem count_through_le {source : List Char} {place : Place}
    (h : place ∈ places [] (segments source)) :
    place.through.count '\n' ≤ source.count '\n' := by
  have hprefix := through_prefix_of_mem_places h
  rw [List.nil_append, flatMap_text_segments] at hprefix
  exact hprefix.sublist.count_le _

theorem count_before_le (place : Place) :
    place.before.count '\n' ≤ place.through.count '\n' :=
  (before_prefix_through place).sublist.count_le _

theorem count_through_le_before {p q : Place} (h : p.through <+: q.before) :
    p.through.count '\n' ≤ q.before.count '\n' :=
  h.sublist.count_le _

/-- The lexeme at a place with the line on which it ends. -/
def Place.lexemeLine? (place : Place) : Option (Token.Kind × String × Option Literal × Nat) :=
  place.segment.lexeme?.map fun (kind, lexeme, literal) ↦
    (kind, lexeme, literal, 1 + place.through.count '\n')

/-- The fault at a place with the line on which it begins. -/
def Place.faultLine? (place : Place) : Option (LexicalError.Cause × Nat) :=
  place.segment.cause?.map fun cause ↦ (cause, 1 + place.before.count '\n')

theorem map_lexemeLine_tokens {source : String} (h : source.toList.count '\n' < UInt32.size - 1) :
    (Scan.ofText source).tokens.map (fun t ↦ (t.kind, t.lexeme, t.literal, t.line.toNat)) =
      (places [] (segments source.toList)).filterMap Place.lexemeLine? ++
        [(.endOfText, "", none, 1 + source.toList.count '\n')] := by
  rw [tokens_ofText, tokensAfter, List.map_append, List.map_filterMap]
  congr 1
  · apply List.filterMap_congr
    intro place hplace
    have hbound := (count_through_le hplace).trans_lt h
    simp only [Place.token?, Place.lexemeLine?, Option.map_map, Function.comp_def,
      toNat_lineAfter hbound]
  · simp only [List.map_cons, List.map_nil, Token.endOfText, toNat_lineAfter h]

theorem map_faultLine_errors {source : String} (h : source.toList.count '\n' < UInt32.size - 1) :
    (Scan.ofText source).errors.map (fun e ↦ (e.cause, e.line.toNat)) =
      (places [] (segments source.toList)).filterMap Place.faultLine? := by
  rw [errors_ofText, errorsAfter, List.map_filterMap]
  apply List.filterMap_congr
  intro place hplace
  have hbound := ((count_before_le place).trans (count_through_le hplace)).trans_lt h
  simp only [Place.error?, Place.faultLine?, Option.map_map, Function.comp_def,
    toNat_lineAfter hbound]

theorem Place.line_of_token? {place : Place} {t : Token} (h : place.token? = some t) :
    t.line = Scan.lineAfter (place.through.count '\n') := by
  obtain ⟨_, _, rfl⟩ := Option.map_eq_some_iff.1 h
  rfl

theorem Place.line_of_error? {place : Place} {e : LexicalError} (h : place.error? = some e) :
    e.line = Scan.lineAfter (place.before.count '\n') := by
  obtain ⟨_, _, rfl⟩ := Option.map_eq_some_iff.1 h
  rfl

/-- Every token ends on a line of the source. -/
theorem exists_line_of_mem_tokens {source : String} {t : Token}
    (ht : t ∈ (Scan.ofText source).tokens) :
    ∃ n ≤ source.toList.count '\n', t.line = Scan.lineAfter n := by
  rw [tokens_ofText, List.mem_append, List.mem_singleton] at ht
  rcases ht with ht | rfl
  · obtain ⟨place, hplace, ht⟩ := List.mem_filterMap.1 ht
    exact ⟨_, count_through_le hplace, Place.line_of_token? ht⟩
  · exact ⟨_, le_rfl, rfl⟩

/-- Every error begins on a line of the source. -/
theorem exists_line_of_mem_errors {source : String} {e : LexicalError}
    (he : e ∈ (Scan.ofText source).errors) :
    ∃ n ≤ source.toList.count '\n', e.line = Scan.lineAfter n := by
  rw [errors_ofText] at he
  obtain ⟨place, hplace, he⟩ := List.mem_filterMap.1 he
  exact ⟨_, (count_before_le place).trans (count_through_le hplace), Place.line_of_error? he⟩

theorem pairwise_line_tokens {source : String} (h : source.toList.count '\n' < UInt32.size - 1) :
    (Scan.ofText source).tokens.Pairwise fun t u ↦ t.line ≤ u.line := by
  rw [tokens_ofText, tokensAfter, List.pairwise_append]
  refine ⟨?_, List.pairwise_singleton _ _, ?_⟩
  · refine List.pairwise_filterMap.2 ((pairwise_places _ _).imp_of_mem ?_)
    intro p q hp hq hpq t ht u hu
    rw [Place.line_of_token? ht, Place.line_of_token? hu]
    exact lineAfter_le ((count_through_le_before hpq).trans (count_before_le q))
      ((count_through_le hq).trans_lt h)
  · intro t ht u hu
    obtain ⟨place, hplace, ht⟩ := List.mem_filterMap.1 ht
    rw [List.mem_singleton.1 hu, Place.line_of_token? ht]
    exact lineAfter_le (count_through_le hplace) h

theorem pairwise_line_errors {source : String} (h : source.toList.count '\n' < UInt32.size - 1) :
    (Scan.ofText source).errors.Pairwise fun e f ↦ e.line ≤ f.line := by
  rw [errors_ofText, errorsAfter]
  refine List.pairwise_filterMap.2 ((pairwise_places _ _).imp_of_mem ?_)
  intro p q hp hq hpq e he f hf
  rw [Place.line_of_error? he, Place.line_of_error? hf]
  exact lineAfter_le ((count_before_le p).trans (count_through_le_before hpq))
    (((count_before_le q).trans (count_through_le hq)).trans_lt h)

/-- Every token is numbered by the newlines up to its end, every error by those before the piece
it is about.  Neither sequence of lines ever decreases. -/
theorem scan_lines (source : String) (hsource : source.toList.count '\n' < UInt32.size - 1) :
    ∃ cut : List Segment, Segmentation source.toList cut ∧
      (Scan.ofText source).tokens.map (fun t ↦ (t.kind, t.lexeme, t.literal, t.line.toNat)) =
        (places [] cut).filterMap Place.lexemeLine? ++
          [(.endOfText, "", none, 1 + source.toList.count '\n')] ∧
      (Scan.ofText source).errors.map (fun e ↦ (e.cause, e.line.toNat)) =
        (places [] cut).filterMap Place.faultLine? ∧
      ((Scan.ofText source).tokens.map Token.line).Pairwise (· ≤ ·) ∧
      ((Scan.ofText source).errors.map LexicalError.line).Pairwise (· ≤ ·) :=
  ⟨segments source.toList, segmentation_segments _, map_lexemeLine_tokens hsource,
    map_faultLine_errors hsource, List.pairwise_map.2 (pairwise_line_tokens hsource),
    List.pairwise_map.2 (pairwise_line_errors hsource)⟩

theorem scan_lines_of_open_comment :
    "a\n\"b\nc\" @\n/*\n".toList.count '\n' < UInt32.size - 1 ∧
      ∃ cut : List Segment, Segmentation "a\n\"b\nc\" @\n/*\n".toList cut ∧
        (Scan.ofText "a\n\"b\nc\" @\n/*\n").tokens.map
            (fun t ↦ (t.kind, t.lexeme, t.literal, t.line.toNat)) =
          (places [] cut).filterMap Place.lexemeLine? ++
            [(.endOfText, "", none, 1 + "a\n\"b\nc\" @\n/*\n".toList.count '\n')] ∧
        (Scan.ofText "a\n\"b\nc\" @\n/*\n").errors.map (fun e ↦ (e.cause, e.line.toNat)) =
          (places [] cut).filterMap Place.faultLine? ∧
        ((Scan.ofText "a\n\"b\nc\" @\n/*\n").tokens.map Token.line).Pairwise (· ≤ ·) ∧
        ((Scan.ofText "a\n\"b\nc\" @\n/*\n").errors.map LexicalError.line).Pairwise (· ≤ ·) :=
  ⟨by decide, scan_lines _ (by decide)⟩

end LoxScan.Grammar
