import LoxScan.Proofs.Source.Lines
import LoxScan.Proofs.Source.ScannerLoops

/-!
# Calls of a scanner

A call reads exactly the piece that is cut off the rest of the source, and leaves what this piece
stands for.  Its first character decides on the rule, as it decides on the cut, and then the loops
of the call stop where the piece ends.
-/

namespace LoxScan.Scanner

open Number (Numeral)

/-- The loop after a call that has read a piece. -/
def past (s : Scanner) (p : Piece) : Scanner :=
  { s.reading p.text .between with
    tokens := s.tokens ++ (p.token? (s.line + UInt32.ofNat p.newlines)).toList
    errors := s.errors ++ (p.error? s.line).toList }

variable {v : View} {s : Scanner} {characters before rest : List Char} {p : Piece}

theorem past_of_silent (hkind : p.kind? = none) (hcause : p.cause? = none) :
    s.past p = s.reading p.text .between := by
  simp [past, Piece.token?, Piece.error?, hkind, hcause, reading]

theorem reaches_past_of_kind {kind : Token.Kind} (hkind : p.kind? = some kind)
    (hcause : p.cause? = none) (h : characters = before ++ (p.text ++ rest))
    (hs : s.current = before.length)
    (hread : Reaches (.ofCharacters characters) s
      (s.reading p.text (.token kind p.literal?))) :
    Reaches (.ofCharacters characters) s (s.past p) := by
  have hpast : s.past p = { s.reading p.text .between with
      tokens := s.tokens ++ [⟨kind, String.ofList p.text, p.literal?,
        s.line + UInt32.ofNat (p.text.count '\n')⟩] } := by
    simp [past, Piece.token?, Piece.error?, hkind, hcause, reading, Piece.newlines]
  rw [hpast]
  exact hread.trans (reaches_token h hs kind p.literal?)

theorem reaches_past_of_cause {cause : LexicalError.Cause} (hkind : p.kind? = none)
    (hcause : p.cause? = some cause)
    (hread : Reaches v s (s.reading p.text (.error s.line cause))) : Reaches v s (s.past p) := by
  have hpast : s.past p = { s.reading p.text .between with
      errors := s.errors ++ [⟨s.line, cause⟩] } := by
    simp [past, Piece.token?, Piece.error?, hkind, hcause, reading]
  rw [hpast]
  exact hread.trans (reaches_error v p.text s.line cause)

theorem ofCharacter_of_not_punctuator {c : Char} (hsingle : Piece.single? c = none)
    (hextensible : Piece.extensible? c = none) :
    Rule.ofCharacter c =
      if c = '/' then .slash
      else if c = ' ' ∨ c = '\r' ∨ c = '\t' then .whitespace
      else if c = '\n' then .newline
      else if c = '"' then .quote
      else if Piece.isDigit c then .digit
      else if Piece.isWordStart c then .letter
      else .unexpected := by
  rw [Rule.ofCharacter, hsingle, hextensible]

theorem ofCharacter_of_isWordCharacter {c : Char} (h : Piece.isWordCharacter c) :
    Rule.ofCharacter c = if Piece.isDigit c then .digit else .letter := by
  have hne (d : Char) (hd : Piece.isWordCharacter d = false) : c ≠ d :=
    Grammar.ne_of_class (p := fun d ↦ Piece.isWordCharacter d) h (Bool.eq_false_iff.1 hd)
  have hsingle : Piece.single? c = none := by
    unfold Piece.single?
    split <;> first | rfl | exact absurd h (by decide)
  have hextensible : Piece.extensible? c = none := by
    unfold Piece.extensible?
    split <;> first | rfl | exact absurd h (by decide)
  rw [ofCharacter_of_not_punctuator hsingle hextensible, if_neg (hne '/' rfl),
    if_neg (not_or.2 ⟨hne ' ' rfl, not_or.2 ⟨hne '\r' rfl, hne '\t' rfl⟩⟩), if_neg (hne '\n' rfl),
    if_neg (hne '"' rfl)]
  by_cases hdigit : Piece.isDigit c
  · rw [if_pos hdigit, if_pos hdigit]
  · have hstart : Piece.isWordStart c := (Bool.or_eq_true_iff.1 h).resolve_right hdigit
    rw [if_neg hdigit, if_neg hdigit, if_pos hstart]

theorem numeral?_integer {whole : List Char} (hwhole : Grammar.IsDigitRun whole) :
    numeral? (String.ofList whole) = some ⟨whole, none⟩ := by
  obtain ⟨hne, hdigits⟩ := Piece.isDigitRun_iff.1 hwhole
  have htake : whole.takeWhile Piece.isDigit = whole := List.takeWhile_eq_self_iff.2 hdigits
  have hdrop : whole.dropWhile Piece.isDigit = [] := List.dropWhile_eq_nil_iff.2 hdigits
  simp only [numeral?, String.toList_ofList, htake, hdrop, if_neg hne]

theorem numeral?_decimal {whole fraction : List Char} (hwhole : Grammar.IsDigitRun whole)
    (hfraction : Grammar.IsDigitRun fraction) :
    numeral? (String.ofList (whole ++ '.' :: fraction)) = some ⟨whole, some fraction⟩ := by
  obtain ⟨hne, hdigits⟩ := Piece.isDigitRun_iff.1 hwhole
  obtain ⟨-, hlater⟩ := Piece.isDigitRun_iff.1 hfraction
  have hpoint : ∀ c ∈ ('.' :: fraction).head?, Piece.isDigit c = false := by
    simp only [List.head?_cons, Option.mem_some_iff]
    rintro c rfl
    decide
  obtain ⟨htake, hdrop⟩ := Piece.takeWhile_run hdigits hpoint
  have hall : fraction.all Piece.isDigit := List.all_eq_true.2 hlater
  simp [numeral?, htake, hdrop, hall, hne]

/-- The characters of a number become its token. -/
theorem reaches_number {n : Numeral} (h : characters = before ++ (n.text ++ rest))
    (hs : s.current = before.length) (hn : numeral? (String.ofList n.text) = some n)
    (hread : Reaches (.ofCharacters characters) s (s.reading n.text .numberValue)) :
    Reaches (.ofCharacters characters) s (s.past (.number n)) := by
  have hvalue : (s.reading n.text .numberValue).step (.ofCharacters characters) =
      .ok (s.reading n.text (.token .number (some (.number n.value)))) := by
    rw [step, point_reading]
    simp only [slice_reading h hs, Except.map, hn]
    rfl
  exact reaches_past_of_kind (p := .number n) rfl rfl h hs (hread.trans (.single hvalue))

theorem reaches_integer {whole : List Char} (hwhole : Grammar.IsDigitRun whole)
    (h : characters = before ++ (whole ++ rest)) (hs : s.current = before.length)
    (hread : Reaches (.ofCharacters characters) s (s.reading whole .numberValue)) :
    Reaches (.ofCharacters characters) s (s.past (.number ⟨whole, none⟩)) := by
  have htext : (Numeral.mk whole none).text = whole := List.append_nil whole
  rw [← htext] at h hread
  exact reaches_number h hs (htext.symm ▸ numeral?_integer hwhole) hread

/-- An operator is the longer one of two if an equals sign follows. -/
theorem step_oneOrTwo {c : Char} (plain extended : Token.Punctuator)
    (h : characters = before ++ ([c] ++ rest)) (hs : s.current = before.length) :
    (s.reading [c] (.oneOrTwo plain extended)).step (.ofCharacters characters) =
      .ok (if rest.head? = some '=' then s.reading [c, '='] (.token (.punctuator extended) none)
        else s.reading [c] (.token (.punctuator plain) none)) := by
  have hcharacter := character?_reading h hs (.oneOrTwo plain extended)
  rw [step, point_reading]
  simp only [hcharacter]
  split
  · rw [forward_reading '=' (by decide)]
    rfl
  · rfl

/-- A slash begins a comment if another slash or a star follows it. -/
theorem step_slash (h : characters = before ++ (['/'] ++ rest)) (hs : s.current = before.length) :
    (s.reading ['/'] .slash).step (.ofCharacters characters) =
      .ok (if rest.head? = some '/' then s.reading ['/', '/'] .lineComment
        else if rest.head? = some '*' then s.reading ['/', '*'] (.blockComment s.line)
        else s.reading ['/'] (.token (.punctuator .slash) none)) := by
  have hcharacter := character?_reading h hs .slash
  have hline : (s.reading ['/'] .slash).line = s.line := by simp [reading]
  rw [step, point_reading]
  simp only [hcharacter, hline]
  split
  · rw [forward_reading '/' (by decide)]
    rfl
  split
  · rw [forward_reading '*' (by decide)]
    rfl
  · rfl

/-- A point belongs to a number if a digit follows it. -/
theorem step_fractionOrEnd {whole after : List Char}
    (h : characters = before ++ (whole ++ after)) (hs : s.current = before.length) :
    (s.reading whole .fractionOrEnd).step (.ofCharacters characters) =
      .ok (if after.head? = some '.' ∧ after[1]?.any Piece.isDigit then
        s.reading (whole ++ ['.']) .fraction else s.reading whole .numberValue) := by
  have hfirst := character?_reading h hs .fractionOrEnd
  have hsecond := character?_reading_add h hs .fractionOrEnd 1
  rw [step, point_reading]
  simp only [hfirst, hsecond]
  split
  · next hpair => rw [goTo_advance_reading (hfirst.trans hpair.1) (by decide)]
  · rfl

section

variable {c : Char} (hs : s.current = before.length) (hpoint : s.point = .between)
include hs hpoint

theorem reaches_blank (h : characters = before ++ c :: rest) (hc : Piece.isBlank c) :
    Reaches (.ofCharacters characters) s (s.past (.blank c)) := by
  have hblank : Grammar.IsBlank c := Piece.isBlank_iff.1 hc
  simp only [Grammar.IsBlank, List.mem_cons, List.not_mem_nil, or_false] at hblank
  rw [past_of_silent rfl rfl]
  rcases hblank with rfl | rfl | rfl | rfl
  · exact reaches_rule h hs hpoint .between (by decide) fun _ _ ↦ rfl
  · exact reaches_rule h hs hpoint .between (by decide) fun _ _ ↦ rfl
  · exact reaches_rule h hs hpoint .between (by decide) fun _ _ ↦ rfl
  · have hread := reaches_apply h hs hpoint
    have happly : (s.reading [] .opening).forward.apply (Rule.ofCharacter '\n') =
        s.reading ['\n'] .between := by
      have hrule : Rule.ofCharacter '\n' = .newline := rfl
      rw [hrule]
      simp [apply, reading, forward]
    rwa [happly] at hread

theorem reaches_cutSlash (h : characters = before ++ '/' :: rest) :
    Reaches (.ofCharacters characters) s (s.past (Piece.cutSlash rest).1) := by
  have hopened := reaches_rule h hs hpoint .slash (by decide) fun _ _ ↦ rfl
  have hread := hopened.trans (.single (step_slash h hs))
  fun_cases Piece.cutSlash rest with
  | case1 rest =>
    have hopen : characters = before ++ (['/', '/'] ++ rest) := h
    have hloop := reaches_readWhile .lineComment .between (· != '\n')
      (fun t ht ↦ by rw [step, ht]) rfl hopen hs
    rw [List.head?_cons, if_pos rfl] at hread
    rw [past_of_silent rfl rfl]
    exact hread.trans hloop
  | case2 rest body after hend =>
    have hopen : characters = before ++ (['/', '*'] ++ rest) := h
    have hloop := reaches_blockComment hopen hs s.line
    rw [hend] at hloop
    rw [List.head?_cons, if_neg (by decide), if_pos rfl] at hread
    rw [past_of_silent rfl rfl]
    exact hread.trans hloop
  | case3 rest hend =>
    have hopen : characters = before ++ (['/', '*'] ++ rest) := h
    have hloop := reaches_blockComment hopen hs s.line
    rw [hend] at hloop
    rw [List.head?_cons, if_neg (by decide), if_pos rfl] at hread
    exact reaches_past_of_cause rfl rfl (hread.trans hloop)
  | case4 rest hslash hstar =>
    have hhead (d : Char) (hd : ∀ tail, rest = d :: tail → False) : rest.head? ≠ some d := by
      intro hhead
      obtain ⟨tail, htail⟩ := List.head?_eq_some_iff.1 hhead
      exact hd tail htail
    rw [if_neg (hhead '/' hslash), if_neg (hhead '*' hstar)] at hread
    exact reaches_past_of_kind (p := .punctuator .slash) rfl rfl h hs hread

theorem reaches_cutString (h : characters = before ++ '"' :: rest) :
    Reaches (.ofCharacters characters) s (s.past (Piece.cutString rest).1) := by
  have hopened := reaches_rule h hs hpoint (.string s.line) (by decide)
    fun t ht ↦ by rw [← ht]; rfl
  have hquote : characters = before ++ (['"'] ++ rest) := h
  have hread := hopened.trans (reaches_string hquote hs s.line)
  fun_cases Piece.cutString rest with
  | case1 hnone =>
    have hall : rest.takeWhile (· != '"') = rest := by
      have hsplit := List.takeWhile_append_dropWhile (p := (· != '"')) (l := rest)
      rwa [hnone, List.append_nil] at hsplit
    rw [hall] at hread
    exact reaches_past_of_cause rfl rfl (hread.trans (reaches_openString h hs s.line))
  | case2 c after hrest =>
    have hsplit : rest = rest.takeWhile (· != '"') ++ '"' :: after := by
      have hc : c = '"' := by
        have hhead := Piece.forall_mem_head?_dropWhile (· != '"') rest c (by rw [hrest]; rfl)
        simpa using hhead
      rw [hc] at hrest
      rw [← hrest, List.takeWhile_append_dropWhile]
    generalize rest.takeWhile (· != '"') = body at hread hsplit ⊢
    rw [hsplit] at h
    have htext : characters = before ++ ('"' :: body ++ ['"'] ++ after) := by
      rw [h, List.append_assoc]
      rfl
    exact reaches_past_of_kind (p := .string body) rfl rfl htext hs
      (hread.trans (reaches_string_token h hs s.line))

theorem reaches_cutNumber (h : characters = before ++ c :: rest) (hc : Piece.isDigit c) :
    Reaches (.ofCharacters characters) s (s.past (Piece.cutNumber (c :: rest)).1) := by
  have hword : Piece.isWordCharacter c := by simp [Piece.isWordCharacter, hc]
  have hnewline : c ≠ '\n' := Grammar.ne_of_class (p := fun d ↦ Piece.isDigit d) hc (by decide)
  have hopened := reaches_rule h hs hpoint .whole hnewline
    fun t _ ↦ by rw [ofCharacter_of_isWordCharacter hword, if_pos hc]; rfl
  have hfirst : characters = before ++ ([c] ++ rest) := h
  have hloop := reaches_readWhile .whole .fractionOrEnd Piece.isDigit
    (fun t ht ↦ by rw [step, ht]) rfl hfirst hs
  have hread := hopened.trans hloop
  have hwhole : (c :: rest).takeWhile Piece.isDigit = [c] ++ rest.takeWhile Piece.isDigit :=
    List.takeWhile_cons_of_pos hc
  have hsplit : c :: rest =
      (c :: rest).takeWhile Piece.isDigit ++ (c :: rest).dropWhile Piece.isDigit :=
    List.takeWhile_append_dropWhile.symm
  have hdigits : Grammar.IsDigitRun ((c :: rest).takeWhile Piece.isDigit) := by
    rw [Piece.isDigitRun_iff]
    exact ⟨by simp [hwhole], fun d hd ↦ List.mem_takeWhile_imp hd⟩
  rw [← hwhole] at hread
  rw [hsplit] at h
  have hstep := step_fractionOrEnd h hs
  fun_cases Piece.cutNumber (c :: rest) with
  | case1 whole d tail hdrop hd =>
    rw [hdrop] at h hstep
    rw [if_pos (by simpa using hd)] at hstep
    have hlater : characters = before ++ (whole ++ ['.'] ++ d :: tail) := by
      rw [h, ← List.append_cons]
    have hfraction := reaches_readWhile .fraction .numberValue Piece.isDigit
      (fun t ht ↦ by rw [step, ht]) rfl hlater hs
    have hrun : Grammar.IsDigitRun ((d :: tail).takeWhile Piece.isDigit) := by
      rw [Piece.isDigitRun_iff]
      exact ⟨by simp [hd], fun d hd ↦ List.mem_takeWhile_imp hd⟩
    have hread := (hread.trans (.single hstep)).trans hfraction
    rw [← List.append_cons] at hread
    have htext : characters = before ++
        ((Numeral.mk whole (some ((d :: tail).takeWhile Piece.isDigit))).text ++
          (d :: tail).dropWhile Piece.isDigit) := by
      rw [Numeral.text, List.append_assoc, List.cons_append, List.takeWhile_append_dropWhile, h]
    exact reaches_number htext hs (numeral?_decimal hdigits hrun) hread
  | case2 whole d tail hdrop hd =>
    rw [hdrop] at h hstep
    rw [if_neg (by simpa using hd)] at hstep
    exact reaches_integer hdigits h hs (hread.trans (.single hstep))
  | case3 whole hopen =>
    have hnext : ¬ (((c :: rest).dropWhile Piece.isDigit).head? = some '.' ∧
        ((c :: rest).dropWhile Piece.isDigit)[1]?.any Piece.isDigit) := by
      rintro ⟨hhead, hdigit⟩
      obtain ⟨tail, htail⟩ := List.head?_eq_some_iff.1 hhead
      rw [htail] at hdigit
      cases tail with
      | nil => cases hdigit
      | cons d tail => exact hopen d tail htail
    rw [if_neg hnext] at hstep
    exact reaches_integer hdigits h hs (hread.trans (.single hstep))

theorem reaches_word (h : characters = before ++ c :: rest) (hc : Piece.isWordStart c)
    (hdigit : Piece.isDigit c = false) :
    Reaches (.ofCharacters characters) s
      (s.past (.word (c :: rest.takeWhile Piece.isWordCharacter))) := by
  have hword : Piece.isWordCharacter c := by simp [Piece.isWordCharacter, hc]
  have hnewline : c ≠ '\n' := Grammar.ne_of_class (p := fun d ↦ Piece.isWordStart d) hc (by decide)
  have hopened := reaches_rule h hs hpoint .word hnewline
    fun t _ ↦ by rw [ofCharacter_of_isWordCharacter hword, hdigit]; rfl
  have hfirst : characters = before ++ ([c] ++ rest) := h
  have hloop := reaches_readWhile .word .wordKind Piece.isWordCharacter
    (fun t ht ↦ by rw [step, ht]) rfl hfirst hs
  have htext : characters = before ++ (c :: rest.takeWhile Piece.isWordCharacter ++
      rest.dropWhile Piece.isWordCharacter) := by
    rw [List.cons_append, List.takeWhile_append_dropWhile, h]
  have hkind : (s.reading (c :: rest.takeWhile Piece.isWordCharacter) .wordKind).step
      (.ofCharacters characters) =
        .ok (s.reading (c :: rest.takeWhile Piece.isWordCharacter)
          (.token (((Token.Keyword.ofSpelling?
            (String.ofList (c :: rest.takeWhile Piece.isWordCharacter))).map .keyword).getD
              .identifier) none)) := by
    rw [step, point_reading]
    simp only [slice_reading htext hs]
    rfl
  exact reaches_past_of_kind (p := .word _) rfl rfl htext hs
    ((hopened.trans hloop).trans (.single hkind))

theorem reaches_single {p : Token.Punctuator} (h : characters = before ++ c :: rest)
    (hc : c ≠ '\n') (hsingle : Piece.single? c = some p) :
    Reaches (.ofCharacters characters) s (s.past (.punctuator p)) := by
  have hspelling : p.spelling = [c] := Piece.spelling_of_single? hsingle
  have hopened := reaches_rule h hs hpoint (.token (.punctuator p) none) hc
    fun t _ ↦ by rw [Rule.ofCharacter, hsingle]; rfl
  have htext : characters = before ++ ((Piece.punctuator p).text ++ rest) := by
    rw [h, Piece.text, hspelling]
    rfl
  rw [← hspelling] at hopened
  exact reaches_past_of_kind rfl rfl htext hs hopened

theorem reaches_oneOrTwo {plain extended : Token.Punctuator}
    (h : characters = before ++ c :: rest) (hc : c ≠ '\n') (hsingle : Piece.single? c = none)
    (hextensible : Piece.extensible? c = some (plain, extended)) :
    Reaches (.ofCharacters characters) s
      (s.past (.punctuator (if rest.head? = some '=' then extended else plain))) := by
  obtain ⟨hplain, hextended⟩ := Piece.spelling_of_extensible? hextensible
  have hopened := reaches_rule h hs hpoint (.oneOrTwo plain extended) hc
    fun t _ ↦ by rw [Rule.ofCharacter, hsingle, hextensible]; rfl
  have hread := hopened.trans (.single (step_oneOrTwo plain extended h hs))
  by_cases hequal : rest.head? = some '='
  · obtain ⟨after, rfl⟩ := List.head?_eq_some_iff.1 hequal
    have htext : characters = before ++ ((Piece.punctuator extended).text ++ after) := by
      rw [h, Piece.text, hextended]
      rfl
    rw [if_pos hequal, ← hextended] at hread
    rw [if_pos hequal]
    exact reaches_past_of_kind rfl rfl htext hs hread
  · have htext : characters = before ++ ((Piece.punctuator plain).text ++ rest) := by
      rw [h, Piece.text, hplain]
      rfl
    rw [if_neg hequal, ← hplain] at hread
    rw [if_neg hequal]
    exact reaches_past_of_kind rfl rfl htext hs hread

/-- A call reads the piece that is cut off. -/
theorem reaches_cut (h : characters = before ++ c :: rest) :
    Reaches (.ofCharacters characters) s (s.past (Piece.cut c rest).1) := by
  unfold Piece.cut
  split
  · next hblank => exact reaches_blank hs hpoint h hblank
  next hblank =>
  have hnewline : c ≠ '\n' := by
    rintro rfl
    exact hblank rfl
  split
  · next hslash =>
    subst hslash
    exact reaches_cutSlash hs hpoint h
  split
  · next hquote =>
    subst hquote
    exact reaches_cutString hs hpoint h
  split
  · next hdigit => exact reaches_cutNumber hs hpoint h hdigit
  split
  · next hdigit hstart => exact reaches_word hs hpoint h hstart (Bool.eq_false_iff.2 hdigit)
  next hslash hquote hdigit hstart =>
  cases hsingle : Piece.single? c with
  | some p => exact reaches_single hs hpoint h hnewline hsingle
  | none =>
    cases hextensible : Piece.extensible? c with
    | some operators =>
      have hread := reaches_oneOrTwo hs hpoint h hnewline hsingle hextensible
      split
      · next heq => cases heq
      · next heq =>
        cases heq
        rwa [List.head?_cons, if_pos rfl] at hread
      · next heq hopen =>
        cases heq
        rwa [if_neg] at hread
        intro hhead
        obtain ⟨after, hafter⟩ := List.head?_eq_some_iff.1 hhead
        exact hopen after hafter
      · next heq => cases heq
    | none =>
      have hspace : ¬ (c = ' ' ∨ c = '\r' ∨ c = '\t') := by
        rintro (rfl | rfl | rfl) <;> exact hblank rfl
      have hrule : Rule.ofCharacter c = .unexpected := by
        rw [ofCharacter_of_not_punctuator hsingle hextensible, if_neg hslash, if_neg hspace,
          if_neg hnewline, if_neg hquote, if_neg hdigit, if_neg hstart]
      have hopened := reaches_rule h hs hpoint (.error s.line .unexpectedCharacter) hnewline
        fun t ht ↦ by rw [hrule, ← ht]; rfl
      exact reaches_past_of_cause (p := .stray c) rfl rfl hopened

end

end LoxScan.Scanner
