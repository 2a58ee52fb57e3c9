import Mathlib.Data.List.Basic
import LoxScan.Proofs.Source.Segmentation

/-!
# Further text behind a source

A segment is settled as soon as one character follows it, or two where a number might still take a
point and a digit.  So whatever further text comes, a source keeps all its segments but the last,
or the last two if these are a number and a point, and of its faults only a string or a comment
that was never closed can be lost.
-/

namespace LoxScan.Grammar

theorem EndsBefore.append {lexeme rest : List Char} {kind : Token.Kind}
    (h : EndsBefore lexeme rest kind) (hrest : rest ≠ [])
    (hpoint : kind = .number → rest ≠ ['.']) (tail : List Char) :
    EndsBefore lexeme (rest ++ tail) kind := by
  have hhead : (rest ++ tail).head? = rest.head? := List.head?_append_of_ne_nil _ hrest
  cases kind with
  | punctuator p =>
    cases p with
    | slash | bang | equal | greater | less =>
      unfold EndsBefore at *
      rwa [hhead]
    | _ => trivial
  | keyword _ | identifier =>
    unfold EndsBefore at *
    rwa [hhead]
  | number =>
    refine ⟨by rw [hhead]; exact h.1, fun hlexeme d further heq ↦ ?_⟩
    rcases rest with _ | ⟨c, _ | ⟨e, rest⟩⟩
    · exact absurd rfl hrest
    · obtain ⟨rfl, -⟩ := List.cons.inj heq
      exact absurd rfl (hpoint rfl)
    · obtain ⟨rfl, rfl, -⟩ : c = '.' ∧ e = d ∧ _ := by simpa using heq
      exact h.2 hlexeme e rest rfl
  | string => trivial
  | endOfText => trivial

/-- What is followed by some text, and is not a number followed by a point only, stands whatever
comes behind that text. -/
theorem Stands.append {role : Role} {text rest : List Char} (h : Stands role text rest)
    (hrest : rest ≠ []) (hpoint : ∀ literal, role = .lexeme .number literal → rest ≠ ['.'])
    (tail : List Char) : Stands role text (rest ++ tail) := by
  cases h with
  | blank hblank => exact .blank hblank
  | lineComment hbody hnewline =>
    refine .lineComment hbody ?_
    rwa [List.head?_append_of_ne_nil _ hrest]
  | blockComment hbody => exact .blockComment hbody
  | lexeme hspells hends =>
    refine .lexeme hspells (hends.append hrest (fun hkind ↦ ?_) tail)
    exact hpoint _ (by rw [hkind])
  | unexpected hunclaimed => exact .unexpected hunclaimed
  | openString hbody => exact absurd rfl hrest
  | openComment hbody => exact absurd rfl hrest

theorem Stands.of_unexpected {role : Role} {text rest later : List Char}
    (h : Stands role text rest) (hrole : role = .fault .unexpectedCharacter) :
    Stands role text later := by
  cases h with
  | unexpected hunclaimed => exact .unexpected hunclaimed
  | _ => cases hrole

/-- The segments at the end of a source that further text can change. -/
inductive Unsettled : List Segment → Prop where
  | nil : Unsettled []
  | last {s : Segment} (hstands : Stands s.role s.text [])
      (hrole : s.role ≠ .fault .unexpectedCharacter) : Unsettled [s]
  | number {text : List Char} {literal : Option Literal} :
      Unsettled [⟨.lexeme .number literal, text⟩, ⟨.lexeme (.punctuator .dot) none, ['.']⟩]

theorem Unsettled.length_le {segments : List Segment} (h : Unsettled segments) :
    segments.length ≤ 2 := by
  cases h <;> simp

/-- A source without its unsettled end. -/
structure Settles (source : List Char) (settled unsettled : List Segment) : Prop where
  unsettled : Unsettled unsettled
  faults : ∀ s ∈ settled, ∀ cause, s.role = .fault cause → cause = .unexpectedCharacter
  segments_append : ∀ tail, settled <+: segments (source ++ tail)

/-- The faults that need the end of the source are those of an unclosed string or comment. -/
theorem Stands.cause {role : Role} {text rest : List Char} (h : Stands role text rest)
    {cause : LexicalError.Cause} (hrole : role = .fault cause) :
    cause = .unexpectedCharacter ∨
      rest = [] ∧ (cause = .unterminatedString ∨ cause = .unterminatedComment) := by
  cases h with
  | unexpected _ => exact .inl (Role.fault.inj hrole).symm
  | openString _ => exact .inr ⟨rfl, .inl (Role.fault.inj hrole).symm⟩
  | openComment _ => exact .inr ⟨rfl, .inr (Role.fault.inj hrole).symm⟩
  | _ => cases hrole

theorem Settles.cons {s : Segment} {rest : List Char} {settled unsettled : List Segment}
    (h : Settles rest settled unsettled)
    (hstands : ∀ tail, Stands s.role s.text (rest ++ tail))
    (hfault : ∀ cause, s.role = .fault cause → cause = .unexpectedCharacter) :
    Settles (s.text ++ rest) (s :: settled) unsettled where
  unsettled := h.unsettled
  faults := List.forall_mem_cons.2 ⟨hfault, h.faults⟩
  segments_append tail := by
    rw [List.append_assoc, segments_of_stands (hstands tail), List.cons_prefix_cons]
    exact ⟨rfl, h.segments_append tail⟩

theorem settles_of_unsettled {source : List Char} {unsettled : List Segment}
    (h : Unsettled unsettled) : Settles source [] unsettled where
  unsettled := h
  faults := by simp
  segments_append _ := List.nil_prefix

/-- Every source has a settled beginning, which is followed by at most two segments. -/
theorem Segmentation.exists_settles {source : List Char} {cut : List Segment}
    (h : Segmentation source cut) :
    ∃ settled unsettled, cut = settled ++ unsettled ∧ Settles source settled unsettled := by
  induction h with
  | nil => exact ⟨[], [], rfl, settles_of_unsettled .nil⟩
  | @cons s rest cut hstands hrest ih =>
    by_cases hnil : rest = []
    · subst hnil
      obtain rfl : cut = [] := (segmentation_iff.1 hrest).trans segments_nil
      by_cases hrole : s.role = .fault .unexpectedCharacter
      · refine ⟨[s], [], rfl, (settles_of_unsettled .nil).cons
          (fun _ ↦ hstands.of_unexpected hrole) fun cause hcause ↦ ?_⟩
        exact Role.fault.inj (hcause.symm.trans hrole)
      · exact ⟨[], [s], rfl, settles_of_unsettled (.last hstands hrole)⟩
    by_cases hpoint : rest = ['.'] ∧ ∃ literal, s.role = .lexeme .number literal
    · obtain ⟨rfl, literal, hrole⟩ := hpoint
      have hdot : cut = [⟨.lexeme (.punctuator .dot) none, ['.']⟩] := by
        have hstands : Stands (.lexeme (.punctuator .dot) none) ['.'] [] :=
          .lexeme (.punctuator .dot) trivial
        rw [segmentation_iff.1 hrest, ← segments_nil, ← segments_of_stands hstands]
        rfl
      obtain ⟨role, text⟩ := s
      obtain rfl : role = .lexeme .number literal := hrole
      rw [hdot]
      exact ⟨[], _, rfl, settles_of_unsettled .number⟩
    · obtain ⟨settled, unsettled, rfl, hsettles⟩ := ih
      have hnumber : ∀ literal, s.role = .lexeme .number literal → rest ≠ ['.'] :=
        fun literal hrole heq ↦ hpoint ⟨heq, literal, hrole⟩
      exact ⟨s :: settled, unsettled, rfl, hsettles.cons (hstands.append hnil hnumber)
        fun _ hcause ↦ (hstands.cause hcause).resolve_right fun hopen ↦ hnil hopen.1⟩

theorem Spells.kind_ne_endOfText {kind : Token.Kind} {literal : Option Literal} {text : List Char}
    (h : Spells kind literal text) : kind ≠ .endOfText := by
  cases h <;> exact Token.Kind.noConfusion

theorem kind_ne_of_mem_tokensAfter {before source : List Char} {t : Token}
    (ht : t ∈ tokensAfter before source) : t.kind ≠ .endOfText :=
  (spells_of_mem_tokensAfter ht).kind_ne_endOfText

theorem exists_fault_of_mem_errors {before : List Char} {cut : List Segment} {e : LexicalError}
    (he : e ∈ (places before cut).filterMap Place.error?) : ∃ s ∈ cut, s.role = .fault e.cause := by
  have hcause : ∀ place : Place, place.error?.map LexicalError.cause = place.segment.cause? := by
    intro place
    rw [Place.error?, Option.map_map]
    exact congrFun Option.map_id _
  have hmem := List.mem_map_of_mem (f := LexicalError.cause) he
  rw [map_filterMap_places hcause] at hmem
  obtain ⟨⟨role, text⟩, hs, hrole⟩ := List.mem_filterMap.1 hmem
  refine ⟨_, hs, ?_⟩
  cases role with
  | fault cause => rw [Option.some.inj hrole]
  | _ => cases hrole

theorem Unsettled.errors {unsettled : List Segment} (h : Unsettled unsettled)
    (before : List Char) :
    ((places before unsettled).filterMap Place.error?).length ≤ 1 ∧
      ∀ e ∈ (places before unsettled).filterMap Place.error?,
        e.cause = .unterminatedString ∨ e.cause = .unterminatedComment := by
  cases h with
  | nil => exact ⟨Nat.zero_le 1, by simp [places]⟩
  | @last s hstands hrole =>
    refine ⟨List.length_filterMap_le _ _, fun e he ↦ ?_⟩
    obtain ⟨_, hs, hcause⟩ := exists_fault_of_mem_errors he
    rw [List.mem_singleton.1 hs] at hcause
    have hexpected : e.cause ≠ .unexpectedCharacter := fun h ↦ hrole (by rw [hcause, h])
    exact ((hstands.cause hcause).resolve_left hexpected).2
  | number => exact ⟨Nat.zero_le 1, by simp [places, Place.error?, Segment.cause?]⟩

theorem length_places (before : List Char) (cut : List Segment) :
    (places before cut).length = cut.length := by
  rw [← List.length_map (f := Place.segment), map_segment_places]

/-- What is read off a source, in two parts. -/
theorem filterMap_places_settled {α : Type} (f : Place → Option α) {source : List Char}
    {settled unsettled : List Segment} (hcut : segments source = settled ++ unsettled) :
    (places [] (segments source)).filterMap f =
      (places [] settled).filterMap f ++
        (places (settled.flatMap Segment.text) unsettled).filterMap f := by
  rw [hcut, places_append, List.filterMap_append, List.nil_append]

/-- The first part is read off whatever text is appended. -/
theorem Settles.prefix_filterMap_places {α : Type} (f : Place → Option α) {source : List Char}
    {settled unsettled : List Segment} (h : Settles source settled unsettled) (tail : List Char) :
    (places [] settled).filterMap f <+: (places [] (segments (source ++ tail))).filterMap f := by
  obtain ⟨further, hfurther⟩ := h.segments_append tail
  rw [← hfurther, places_append, List.filterMap_append]
  exact List.prefix_append _ _

theorem prefix_of_length_le_two {α : Type} {first last : List α} (h : last.length ≤ 2) :
    (first ++ last).dropLast.dropLast <+: first := by
  refine List.prefix_of_prefix_length_le
    ((List.dropLast_prefix _).trans (List.dropLast_prefix _)) (List.prefix_append first last) ?_
  rw [List.length_dropLast, List.length_dropLast, List.length_append]
  omega

theorem filter_tokens (source : String) :
    (Scan.ofText source).tokens.filter (·.kind ≠ .endOfText) = tokensAfter [] source.toList := by
  have hlexemes : (tokensAfter [] source.toList).filter (·.kind ≠ .endOfText) =
      tokensAfter [] source.toList :=
    List.filter_eq_self.2 fun t ht ↦ decide_eq_true (kind_ne_of_mem_tokensAfter ht)
  rw [tokens_ofText, List.filter_append, hlexemes]
  exact List.append_nil _

theorem prefix_tokens_append (a b : String) :
    ((Scan.ofText a).tokens.filter (·.kind ≠ .endOfText)).dropLast.dropLast <+:
      (Scan.ofText (a ++ b)).tokens := by
  obtain ⟨settled, unsettled, hcut, hsettles⟩ := (segmentation_segments a.toList).exists_settles
  have hlength : ((places (settled.flatMap Segment.text) unsettled).filterMap
      Place.token?).length ≤ 2 := by
    refine (List.length_filterMap_le _ _).trans ?_
    rw [length_places]
    exact hsettles.unsettled.length_le
  rw [filter_tokens, tokensAfter, filterMap_places_settled Place.token? hcut, tokens_ofText,
    String.toList_append]
  exact (prefix_of_length_le_two hlength).trans
    ((hsettles.prefix_filterMap_places Place.token? b.toList).trans (List.prefix_append _ _))

theorem exists_errors_append (a b : String) :
    ∃ settled last,
      (Scan.ofText a).errors = settled ++ last ∧ settled <+: (Scan.ofText (a ++ b)).errors ∧
      (∀ e ∈ settled, e.cause = .unexpectedCharacter) ∧ last.length ≤ 1 ∧
      ∀ e ∈ last, e.cause = .unterminatedString ∨ e.cause = .unterminatedComment := by
  obtain ⟨settled, unsettled, hcut, hsettles⟩ := (segmentation_segments a.toList).exists_settles
  have herrors : (Scan.ofText a).errors = _ :=
    (errors_ofText a).trans (filterMap_places_settled Place.error? hcut)
  have hfurther := hsettles.prefix_filterMap_places Place.error? b.toList
  rw [← String.toList_append, ← errorsAfter, ← errors_ofText] at hfurther
  refine ⟨_, _, herrors, hfurther, fun e he ↦ ?_, hsettles.unsettled.errors _⟩
  obtain ⟨s, hs, hrole⟩ := exists_fault_of_mem_errors he
  exact hsettles.faults s hs _ hrole

/-- Whatever text is appended, all tokens but the last two stay as they are and so do all errors
but a last one about a string or a comment that was never closed. -/
theorem scan_append (a b : String) :
    ((Scan.ofText a).tokens.filter (·.kind ≠ .endOfText)).dropLast.dropLast <+:
        (Scan.ofText (a ++ b)).tokens ∧
      (Scan.ofText a).errors.filter (·.cause = .unexpectedCharacter) <+:
        (Scan.ofText (a ++ b)).errors ∧
      ∃ last, (Scan.ofText a).errors =
          (Scan.ofText a).errors.filter (·.cause = .unexpectedCharacter) ++ last ∧
        last.length ≤ 1 ∧
        ∀ e ∈ last, e.cause = .unterminatedString ∨ e.cause = .unterminatedComment := by
  obtain ⟨settled, last, herrors, hfurther, hsettled, hlength, hlast⟩ := exists_errors_append a b
  have hfirst : settled.filter (·.cause = .unexpectedCharacter) = settled :=
    List.filter_eq_self.2 fun e he ↦ decide_eq_true (hsettled e he)
  have hrest : last.filter (·.cause = .unexpectedCharacter) = [] := by
    refine List.filter_eq_nil_iff.2 fun e he hcause ↦ ?_
    rcases hlast e he with h | h
    · rw [h] at hcause
      contradiction
    · rw [h] at hcause
      contradiction
  have hfilter : (Scan.ofText a).errors.filter (·.cause = .unexpectedCharacter) = settled := by
    rw [herrors, List.filter_append, hfirst, hrest, List.append_nil]
  rw [hfilter]
  exact ⟨prefix_tokens_append a b, hfurther, last, herrors, hlength, hlast⟩

/-- A digit behind a point at the end makes one token of the last two. -/
example : (Scan.ofText "@ a 1.").tokens.map Token.lexeme = ["a", "1", ".", ""] ∧
    (Scan.ofText ("@ a 1." ++ "5")).tokens.map Token.lexeme = ["a", "1.5", ""] := by
  decide +kernel

end LoxScan.Grammar
