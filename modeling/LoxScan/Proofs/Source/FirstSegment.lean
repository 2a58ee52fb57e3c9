import LoxScan.Proofs.Source.Cut

/-!
# The first segment of a text

The first piece of a text stands as a segment where it is cut off, and a text that begins with a
segment is cut right behind it.  So the pieces of a whole text are its only segmentation.
-/

namespace LoxScan

open Grammar Number

namespace Token.Keyword

theorem mem_all (k : Keyword) : k ∈ all := by
  cases k <;> decide

theorem ofSpelling?_spelling (k : Keyword) : ofSpelling? k.spelling = some k := by
  cases k <;> decide

theorem ofSpelling?_eq_none_iff {word : String} :
    ofSpelling? word = none ↔ ∀ k : Keyword, k.spelling ≠ word := by
  simp [ofSpelling?, mem_all]

end Token.Keyword

namespace Piece

/-- What a piece is to a scan. -/
def role : Piece → Role
  | blank _ => .blank
  | lineComment _ => .lineComment
  | blockComment _ => .blockComment
  | punctuator p => .lexeme (.punctuator p) none
  | string body => .lexeme .string (some (.string (String.ofList body)))
  | number n => .lexeme .number (some (.number n.value))
  | word characters =>
    .lexeme (((Token.Keyword.ofSpelling? (String.ofList characters)).map .keyword).getD .identifier)
      none
  | stray _ => .fault .unexpectedCharacter
  | openString _ => .fault .unterminatedString
  | openComment _ => .fault .unterminatedComment

def segment (p : Piece) : Segment := ⟨p.role, p.text⟩

theorem keyword_spelling (k : Token.Keyword) :
    ∃ c name, k.spelling.toList = c :: name ∧ IsWordStart c ∧ ∀ x ∈ name, IsWordCharacter x := by
  have hclass : ∃ c name, k.spelling.toList = c :: name ∧ isWordStart c ∧
      name.all isWordCharacter := by
    cases k <;> exact ⟨_, _, rfl, by decide, by decide⟩
  obtain ⟨c, name, hk, hc, hname⟩ := hclass
  exact ⟨c, name, hk, isWordStart_iff.1 hc,
    fun x hx ↦ isWordCharacter_iff.1 (List.all_eq_true.1 hname x hx)⟩

theorem stands_word {c : Char} {name rest : List Char} (hc : IsWordStart c)
    (hname : ∀ x ∈ name, IsWordCharacter x) (hrest : ∀ x ∈ rest.head?, ¬ IsWordCharacter x) :
    Stands (word (c :: name)).role (word (c :: name)).text rest := by
  cases hk : Token.Keyword.ofSpelling? (String.ofList (c :: name)) with
  | none =>
    rw [role, hk]
    refine .lexeme (.identifier hc hname fun k h ↦ ?_) hrest
    exact Token.Keyword.ofSpelling?_eq_none_iff.1 hk k (by rw [← h, String.ofList_toList])
  | some k =>
    have hspelling : k.spelling = String.ofList (c :: name) := by
      simpa using List.find?_some hk
    rw [role, hk, text, ← String.toList_ofList (l := c :: name), ← hspelling]
    exact .lexeme (.keyword k) hrest

theorem stands_cutSlash (rest : List Char) :
    Stands (cutSlash rest).1.role (cutSlash rest).1.text (cutSlash rest).2 := by
  fun_cases cutSlash rest with
  | case1 rest =>
    refine .lineComment (fun hmem ↦ ?_) fun c hc ↦ ?_
    · simpa using List.mem_takeWhile_imp hmem
    · simpa using forall_mem_head?_dropWhile (· != '\n') rest c hc
  | case2 rest body after h => exact .blockComment (neverCloses_of_untilCommentEnd? h)
  | case3 rest h => exact .openComment (untilCommentEnd?_eq_none_iff.1 h)
  | case4 rest hslash hstar =>
    refine .lexeme (.punctuator .slash) ⟨fun h ↦ ?_, fun h ↦ ?_⟩
    · obtain ⟨tail, rfl⟩ := List.head?_eq_some_iff.1 h
      exact hslash tail rfl
    · obtain ⟨tail, rfl⟩ := List.head?_eq_some_iff.1 h
      exact hstar tail rfl

theorem stands_cutString (rest : List Char) :
    Stands (cutString rest).1.role (cutString rest).1.text (cutString rest).2 := by
  fun_cases cutString rest with
  | case1 h =>
    refine .openString fun hmem ↦ ?_
    simpa using List.dropWhile_eq_nil_iff.1 h _ hmem
  | case2 c after h =>
    refine .lexeme (.string fun hmem ↦ ?_) trivial
    simpa using List.mem_takeWhile_imp hmem

theorem isDigitRun_takeWhile {l : List Char} (h : l.takeWhile isDigit ≠ []) :
    IsDigitRun (l.takeWhile isDigit) :=
  isDigitRun_iff.2 ⟨h, fun _ hc ↦ List.mem_takeWhile_imp hc⟩

theorem not_isDigit_of_mem_head?_dropWhile {l : List Char} :
    ∀ c ∈ (l.dropWhile isDigit).head?, ¬ c.isDigit := by
  intro c hc
  rw [← isDigit_eq, forall_mem_head?_dropWhile isDigit l c hc]
  exact Bool.false_ne_true

theorem stands_cutNumber {characters : List Char} (hfirst : characters.takeWhile isDigit ≠ []) :
    Stands (cutNumber characters).1.role (cutNumber characters).1.text
      (cutNumber characters).2 := by
  have hwhole := isDigitRun_takeWhile hfirst
  have hhead := not_isDigit_of_mem_head?_dropWhile (l := characters)
  fun_cases cutNumber characters with
  | case1 whole d tail h hd =>
    have hfraction : IsDigitRun ((d :: tail).takeWhile isDigit) :=
      isDigitRun_takeWhile (by simp [hd])
    exact .lexeme (.decimal hwhole hfraction)
      ⟨not_isDigit_of_mem_head?_dropWhile,
        fun hpoint ↦ absurd (by simp [text, Numeral.text]) hpoint⟩
  | case2 whole d tail h hd =>
    rw [h] at hhead
    simp only [role, text, Numeral.text, List.append_nil]
    refine .lexeme (.integer hwhole) ⟨hhead, fun _ e further heq ↦ ?_⟩
    cases heq
    rwa [← isDigit_eq]
  | case3 whole h =>
    simp only [role, text, Numeral.text, List.append_nil]
    refine .lexeme (.integer hwhole) ⟨hhead, fun _ d tail heq ↦ ?_⟩
    exact (h d tail heq).elim

theorem endsBefore_of_single? {c : Char} {p : Token.Punctuator} (h : single? c = some p)
    (lexeme rest : List Char) : EndsBefore lexeme rest (.punctuator p) := by
  unfold single? at h
  split at h <;> cases h <;> trivial

theorem endsBefore_of_extensible? {c : Char} {plain extended : Token.Punctuator}
    (h : extensible? c = some (plain, extended)) (lexeme rest : List Char) :
    EndsBefore lexeme rest (.punctuator extended) ∧
      (rest.head? ≠ some '=' → EndsBefore lexeme rest (.punctuator plain)) := by
  unfold extensible? at h
  split at h <;> cases h <;> exact ⟨trivial, id⟩

/-- Every punctuator begins with a character that has a rule for punctuators. -/
theorem punctuator_rule (p : Token.Punctuator) :
    ∃ c, p.spelling.head? = some c ∧ (c = '/' ∨ (single? c).isSome ∨ (extensible? c).isSome) := by
  cases p <;> exact ⟨_, rfl, by decide⟩

/-- The first piece stands where it is cut off. -/
theorem stands_cut (c : Char) (rest : List Char) :
    Stands (cut c rest).1.role (cut c rest).1.text (cut c rest).2 := by
  unfold cut
  split
  · next hc => exact .blank (isBlank_iff.1 hc)
  split
  · exact stands_cutSlash rest
  split
  · exact stands_cutString rest
  split
  · next hc => exact stands_cutNumber (by simp [hc])
  split
  · next hc =>
    exact stands_word (isWordStart_iff.1 hc)
      (fun x hx ↦ isWordCharacter_iff.1 (List.mem_takeWhile_imp hx))
      (fun x hx ↦ isWordCharacter_iff.not.1
        (Bool.eq_false_iff.1 (forall_mem_head?_dropWhile isWordCharacter rest x hx)))
  next hblank hslash hquote hdigit hword =>
  split
  · next h => exact .lexeme (.punctuator _) (endsBefore_of_single? h _ _)
  · next h => exact .lexeme (.punctuator _) (endsBefore_of_extensible? h _ _).1
  · next h hrest =>
    refine .lexeme (.punctuator _) ((endsBefore_of_extensible? h _ _).2 fun hhead ↦ ?_)
    obtain ⟨after, rfl⟩ := List.head?_eq_some_iff.1 hhead
    exact hrest after rfl
  · next hsingle hextensible =>
    refine .unexpected ⟨isBlank_iff.not.1 hblank, hquote, isDigit_eq c ▸ hdigit,
      isWordStart_iff.not.1 hword, fun p hp ↦ ?_⟩
    obtain ⟨first, hfirst, hrule⟩ := punctuator_rule p
    cases hfirst.symm.trans hp
    simp [hslash, hsingle, hextensible] at hrule

theorem role_word_of_keyword (k : Token.Keyword) :
    (word k.spelling.toList).role = .lexeme (.keyword k) none := by
  rw [role, String.ofList_toList, Token.Keyword.ofSpelling?_spelling]
  rfl

theorem role_word_of_identifier {name : List Char}
    (hname : ∀ k : Token.Keyword, k.spelling.toList ≠ name) :
    (word name).role = .lexeme .identifier none := by
  have hnone : Token.Keyword.ofSpelling? (String.ofList name) = none :=
    Token.Keyword.ofSpelling?_eq_none_iff.2 fun k hk ↦ hname k (by rw [hk, String.toList_ofList])
  rw [role, hnone]
  rfl

/-- Text that begins with a lexeme is cut right behind it. -/
theorem cut_of_spells {kind : Token.Kind} {literal : Option Literal} {text rest : List Char}
    (h : Spells kind literal text) (hends : EndsBefore text rest kind) :
    ∃ c tail p, text ++ rest = c :: tail ∧ cut c tail = (p, rest) ∧
      p.segment = ⟨.lexeme kind literal, text⟩ := by
  cases h with
  | punctuator p =>
    obtain ⟨c, tail, hp⟩ := List.exists_cons_of_ne_nil (Spells.punctuator p).text_ne_nil
    exact ⟨c, tail ++ rest, punctuator p, by rw [hp, List.cons_append],
      cut_punctuator hp hends, rfl⟩
  | keyword k =>
    obtain ⟨c, name, hk, hc, hname⟩ := keyword_spelling k
    refine ⟨c, name ++ rest, word (c :: name), by rw [hk, List.cons_append],
      cut_word hc hname hends, ?_⟩
    rw [segment, ← hk, role_word_of_keyword, Piece.text]
  | identifier hstart hname hkeyword =>
    refine ⟨_, _, word _, rfl, cut_word hstart hname hends, ?_⟩
    rw [segment, role_word_of_identifier hkeyword, Piece.text]
  | integer hwhole =>
    obtain ⟨c, tail, rfl⟩ := List.exists_cons_of_ne_nil hwhole.1
    refine ⟨c, tail ++ rest, number ⟨c :: tail, none⟩, rfl, ?_,
      by simp [segment, role, Piece.text, Numeral.text]⟩
    rw [cut_digit (hwhole.2 c List.mem_cons_self)]
    refine cutNumber_integer hwhole hends.1 (hends.2 fun hpoint ↦ ?_)
    exact absurd (hwhole.2 '.' hpoint) (by decide)
  | @decimal whole fraction hwhole hfraction =>
    obtain ⟨c, tail, rfl⟩ := List.exists_cons_of_ne_nil hwhole.1
    refine ⟨c, tail ++ '.' :: fraction ++ rest, number ⟨c :: tail, some fraction⟩, rfl, ?_, rfl⟩
    rw [cut_digit (hwhole.2 c List.mem_cons_self)]
    exact cutNumber_decimal hwhole hfraction hends.1
  | @string body hbody =>
    exact ⟨'"', body ++ '"' :: rest, string body, by simp,
      (cut_quote _).trans (cutString_string hbody rest), rfl⟩

/-- Text that begins with a segment is cut right behind it. -/
theorem cut_of_stands {role : Role} {text rest : List Char} (h : Stands role text rest) :
    ∃ c tail p, text ++ rest = c :: tail ∧ cut c tail = (p, rest) ∧ p.segment = ⟨role, text⟩ := by
  cases h with
  | blank hblank => exact ⟨_, rest, blank _, rfl, cut_blank hblank rest, rfl⟩
  | @lineComment body _ hbody hrest =>
    exact ⟨'/', '/' :: body ++ rest, lineComment body, rfl,
      (cut_slash _).trans (cutSlash_lineComment hbody hrest), rfl⟩
  | @blockComment body _ hbody =>
    exact ⟨'/', '*' :: body ++ '*' :: '/' :: rest, blockComment body, by simp,
      (cut_slash _).trans (cutSlash_blockComment hbody rest), rfl⟩
  | lexeme hspells hends => exact cut_of_spells hspells hends
  | unexpected hunclaimed => exact ⟨_, rest, stray _, rfl, cut_stray hunclaimed rest, rfl⟩
  | @openString body hbody =>
    exact ⟨'"', body, openString body, by simp,
      (cut_quote _).trans (cutString_openString hbody), rfl⟩
  | @openComment body hbody =>
    exact ⟨'/', '*' :: body, openComment body, by simp,
      (cut_slash _).trans (cutSlash_openComment hbody), rfl⟩

end Piece

namespace Grammar

def segments (source : List Char) : List Segment := (Piece.cutAll source).map Piece.segment

theorem segments_nil : segments [] = [] := by
  rw [segments, Piece.cutAll, List.map_nil]

/-- A segment in front of a text is the first of all segments and leaves the others alone. -/
theorem segments_of_stands {role : Role} {text rest : List Char} (h : Stands role text rest) :
    segments (text ++ rest) = ⟨role, text⟩ :: segments rest := by
  obtain ⟨c, tail, p, htext, hcut, hsegment⟩ := Piece.cut_of_stands h
  rw [htext, segments, Piece.cutAll, hcut, List.map_cons, hsegment, segments]

theorem segmentation_segments (source : List Char) : Segmentation source (segments source) := by
  unfold segments
  fun_induction Piece.cutAll source with
  | case1 => exact .nil
  | case2 c rest ih =>
    rw [List.map_cons, ← Piece.cut_append c rest]
    exact .cons (s := (Piece.cut c rest).1.segment) (Piece.stands_cut c rest) ih

/-- There is one way to cut a text into segments. -/
theorem segmentation_iff {source : List Char} {cut : List Segment} :
    Segmentation source cut ↔ cut = segments source := by
  constructor
  · intro h
    induction h with
    | nil => exact segments_nil.symm
    | cons hstands hrest ih => rw [segments_of_stands hstands, ih]
  · rintro rfl
    exact segmentation_segments source

/-- An opener within a comment, a point without a fraction, and a third `=`. -/
example : (segments "/*/ */1.x!==\"".toList).map (fun s ↦ String.ofList s.text) =
    ["/*/ */", "1", ".", "x", "!=", "=", "\""] := by decide +kernel

theorem flatMap_text_segments (source : List Char) :
    (segments source).flatMap Segment.text = source :=
  (segmentation_segments source).flatMap_text

/-- A lexeme has one kind and one value. -/
theorem Spells.unique {kind kind' : Token.Kind} {literal literal' : Option Literal}
    {text : List Char} (h : Spells kind literal text) (h' : Spells kind' literal' text) :
    kind = kind' ∧ literal = literal' := by
  have hfirst := segments_of_stands (.lexeme h (endsBefore_nil text kind))
  have hsecond := segments_of_stands (.lexeme h' (endsBefore_nil text kind'))
  rw [hfirst] at hsecond
  simpa using hsecond

/-- Of all lexemes, only strings hold blanks. -/
theorem Spells.not_isBlank_of_mem {kind : Token.Kind} {literal : Option Literal} {text : List Char}
    (h : Spells kind literal text) (hkind : kind ≠ .string) : ∀ c ∈ text, ¬ IsBlank c := by
  have hword {c : Char} {name : List Char} (hc : IsWordStart c)
      (hname : ∀ x ∈ name, IsWordCharacter x) : ∀ x ∈ c :: name, ¬ IsBlank x :=
    List.forall_mem_cons.2 ⟨not_isBlank_of_isWordStart hc,
      fun x hx ↦ not_isBlank_of_isWordCharacter (hname x hx)⟩
  have hdigits {digits : List Char} (h : IsDigitRun digits) : ∀ c ∈ digits, ¬ IsBlank c :=
    fun c hc ↦ not_isBlank_of_isDigit (h.2 c hc)
  cases h with
  | punctuator p => cases p <;> simp [Token.Punctuator.spelling, IsBlank]
  | keyword k =>
    obtain ⟨c, name, hk, hc, hname⟩ := Piece.keyword_spelling k
    rw [hk]
    exact hword hc hname
  | identifier hstart hname hkeyword => exact hword hstart hname
  | integer hwhole => exact hdigits hwhole
  | decimal hwhole hfraction =>
    rw [List.forall_mem_append, List.forall_mem_cons]
    exact ⟨hdigits hwhole, by decide, hdigits hfraction⟩
  | string hbody => exact absurd rfl hkind

end Grammar

end LoxScan
