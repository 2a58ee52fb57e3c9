import LoxScan.Proofs.Source.Scanner

/-!
# Loops of a scanner

A call has read some characters since it was made, and its cursors and its line are determined by
them.  Each loop of a call reads as many more as its class of characters goes on for, or up to the
mark that it looks for.
-/

namespace LoxScan.Scanner

/-- The call that has read some characters since the loop has made it. -/
def reading (s : Scanner) (lexeme : List Char) (point : Point) : Scanner :=
  { s with
    start := s.current
    current := s.current + lexeme.length
    line := s.line + UInt32.ofNat (lexeme.count '\n')
    point }

variable {v : View} {s t u : Scanner}

theorem Reaches.trans (h : Reaches v s t) (hnext : Reaches v t u) : Reaches v s u := by
  induction hnext with
  | refl => exact h
  | step _ hstep ih => exact .step ih hstep

theorem Reaches.single (h : s.step v = .ok t) : Reaches v s t := .step .refl h

variable {characters before lexeme rest : List Char} {point next : Point}

@[simp]
theorem point_reading : (s.reading lexeme point).point = point := rfl

theorem character?_reading_add (h : characters = before ++ (lexeme ++ rest))
    (hs : s.current = before.length) (point : Point) (i : Nat) :
    (View.ofCharacters characters).character? ((s.reading lexeme point).current + i) =
      rest[i]? := by
  have hcurrent : (s.reading lexeme point).current = (before ++ lexeme).length := by
    rw [List.length_append, ← hs]
    rfl
  rw [hcurrent, h, ← List.append_assoc, View.ofCharacters]
  simp only
  rw [List.getElem?_append_right (Nat.le_add_right _ _), Nat.add_sub_cancel_left]

theorem character?_reading (h : characters = before ++ (lexeme ++ rest))
    (hs : s.current = before.length) (point : Point) :
    (View.ofCharacters characters).character? (s.reading lexeme point).current = rest.head? := by
  rw [List.head?_eq_getElem?]
  exact character?_reading_add h hs point 0

theorem slice_of_split (h : characters = before ++ (lexeme ++ rest)) :
    (View.ofCharacters characters).slice before.length (before.length + lexeme.length) =
      .ok (String.ofList lexeme) := by
  have hin : before.length ≤ before.length + lexeme.length ∧
      before.length + lexeme.length ≤ characters.length := by
    refine ⟨Nat.le_add_right _ _, ?_⟩
    rw [h, List.length_append, List.length_append]
    omega
  rw [View.ofCharacters]
  simp only [if_pos hin, Nat.add_sub_cancel_left]
  rw [h, List.drop_left, List.take_left]

theorem slice_reading (h : characters = before ++ (lexeme ++ rest))
    (hs : s.current = before.length) (point : Point) :
    (View.ofCharacters characters).slice (s.reading lexeme point).start
      (s.reading lexeme point).current = .ok (String.ofList lexeme) := by
  have hslice := slice_of_split h
  rwa [← hs] at hslice

theorem forward_reading (c : Char) (hc : c ≠ '\n') :
    (s.reading lexeme point).forward.goTo next = s.reading (lexeme ++ [c]) next := by
  simp [reading, forward, goTo, hc, Nat.add_assoc]

theorem countLine_reading (c : Char) :
    ((s.reading lexeme point).countLine c).forward = s.reading (lexeme ++ [c]) point := by
  rw [countLine_eq]
  by_cases hc : c = '\n'
  · simp [reading, forward, hc, Nat.add_assoc, UInt32.ofNat_add, UInt32.add_assoc]
  · simp [reading, forward, hc, Nat.add_assoc]

theorem advance_countLine_reading {v : View} {c : Char}
    (hc : v.character? (s.reading lexeme point).current = some c) :
    ((s.reading lexeme point).countLine c).advance v = s.reading (lexeme ++ [c]) point := by
  rw [← countLine_reading, countLine_eq, advance, hc]

theorem goTo_advance_reading {v : View} {c : Char}
    (hc : v.character? (s.reading lexeme point).current = some c) (hnewline : c ≠ '\n') :
    ((s.reading lexeme point).advance v).goTo next = s.reading (lexeme ++ [c]) next := by
  rw [advance_of_some hc, forward_reading c hnewline]

/-- A loop reads what its class goes on for. -/
theorem reaches_readWhile (point next : Point) (belongs : Char → Bool)
    (hstep : ∀ t : Scanner, t.point = point →
      t.step (.ofCharacters characters) = .ok (t.readWhile (.ofCharacters characters) belongs next))
    (hbelongs : belongs '\n' = false) (h : characters = before ++ (lexeme ++ rest))
    (hs : s.current = before.length) :
    Reaches (.ofCharacters characters) (s.reading lexeme point)
      (s.reading (lexeme ++ rest.takeWhile belongs) next) := by
  induction rest generalizing lexeme with
  | nil =>
    have hfirst := hstep (s.reading lexeme point) rfl
    rw [readWhile, character?_reading h hs point] at hfirst
    rw [List.takeWhile_nil, List.append_nil]
    exact .single hfirst
  | cons c rest ih =>
    have hcharacter := character?_reading h hs point
    have hfirst := hstep (s.reading lexeme point) rfl
    rw [readWhile, hcharacter, List.head?_cons, Option.any_some] at hfirst
    by_cases hc : belongs c
    · have hnewline : c ≠ '\n' := by
        rintro rfl
        rw [hbelongs] at hc
        cases hc
      have hlater : characters = before ++ (lexeme ++ [c] ++ rest) := by
        rw [h, ← List.append_cons]
      have hnext : (s.reading lexeme point).forward = s.reading (lexeme ++ [c]) point :=
        forward_reading c hnewline
      rw [if_pos hc, advance_of_some hcharacter, hnext] at hfirst
      rw [List.takeWhile_cons_of_pos hc, List.append_cons]
      exact (Reaches.single hfirst).trans (ih hlater)
    · rw [if_neg hc] at hfirst
      rw [List.takeWhile_cons_of_neg hc, List.append_nil]
      exact .single hfirst

/-- A string goes on to the next quote, over several lines if need be. -/
theorem reaches_string (h : characters = before ++ (lexeme ++ rest))
    (hs : s.current = before.length) (line : UInt32) :
    Reaches (.ofCharacters characters) (s.reading lexeme (.string line))
      (s.reading (lexeme ++ rest.takeWhile (· != '"')) (.stringEnd line)) := by
  induction rest generalizing lexeme with
  | nil =>
    rw [List.takeWhile_nil, List.append_nil]
    apply Reaches.single
    rw [step, point_reading]
    simp only [character?_reading h hs, List.head?_nil]
    rfl
  | cons c rest ih =>
    have hcharacter := character?_reading h hs (.string line)
    by_cases hc : c = '"'
    · subst hc
      rw [List.takeWhile_cons_of_neg (by simp), List.append_nil]
      apply Reaches.single
      rw [step, point_reading]
      simp only [hcharacter, List.head?_cons, if_true]
      rfl
    · have hlater : characters = before ++ (lexeme ++ [c] ++ rest) := by
        rw [h, ← List.append_cons]
      have hfirst : (s.reading lexeme (.string line)).step (.ofCharacters characters) =
          .ok (s.reading (lexeme ++ [c]) (.string line)) := by
        rw [step, point_reading]
        simp only [hcharacter, List.head?_cons, if_neg hc, advance_countLine_reading hcharacter]
      rw [List.takeWhile_cons_of_pos (by simpa using hc), List.append_cons]
      exact (Reaches.single hfirst).trans (ih hlater)

/-- A comment over several lines goes on to its end, if there is one. -/
theorem reaches_blockComment (h : characters = before ++ (lexeme ++ rest))
    (hs : s.current = before.length) (line : UInt32) :
    Reaches (.ofCharacters characters) (s.reading lexeme (.blockComment line))
      (match Piece.untilCommentEnd? rest with
        | some (body, _) => s.reading (lexeme ++ (body ++ ['*', '/'])) .between
        | none => s.reading (lexeme ++ rest) (.error line .unterminatedComment)) := by
  have hcharacter := character?_reading h hs (.blockComment line)
  fun_induction Piece.untilCommentEnd? rest generalizing lexeme with
  | case1 rest =>
    have hstar : (s.reading lexeme (.blockComment line)).step (.ofCharacters characters) =
        .ok (s.reading (lexeme ++ ['*']) .commentEnd) := by
      have hsecond := character?_reading_add h hs (.blockComment line) 1
      rw [step, point_reading]
      simp only [hcharacter, List.head?_cons, hsecond, List.getElem?_cons_succ,
        List.getElem?_cons_zero, and_self, if_true]
      rw [goTo_advance_reading hcharacter (by decide)]
    have hslash : (s.reading (lexeme ++ ['*']) .commentEnd).step (.ofCharacters characters) =
        .ok (s.reading (lexeme ++ ['*'] ++ ['/']) .between) := by
      have hlater : characters = before ++ (lexeme ++ ['*'] ++ '/' :: rest) := by
        rw [h, ← List.append_cons]
      rw [step, point_reading]
      simp only
      rw [goTo_advance_reading (character?_reading hlater hs .commentEnd) (by decide)]
    rw [List.append_assoc] at hslash
    exact (Reaches.single hstar).trans (.single hslash)
  | case2 =>
    apply Reaches.single
    rw [step, point_reading]
    simp only [hcharacter, List.head?_nil, List.append_nil]
    rfl
  | case3 c rest hopen ih =>
    have hlater : characters = before ++ (lexeme ++ [c] ++ rest) := by
      rw [h, ← List.append_cons]
    have hfirst : (s.reading lexeme (.blockComment line)).step (.ofCharacters characters) =
        .ok (s.reading (lexeme ++ [c]) (.blockComment line)) := by
      have hsecond := character?_reading_add h hs (.blockComment line) 1
      have hend : ¬ (c = '*' ∧ rest[0]? = some '/') := by
        rintro ⟨hstar, hslash⟩
        cases rest with
        | nil => cases hslash
        | cons d rest => exact hopen rest hstar (by simpa using hslash)
      rw [step, point_reading]
      simp only [hcharacter, List.head?_cons, hsecond, List.getElem?_cons_succ, if_neg hend,
        advance_countLine_reading hcharacter]
    have hrest := (Reaches.single hfirst).trans (ih hlater (character?_reading hlater hs _))
    cases hend : Piece.untilCommentEnd? rest with
    | none =>
      rw [hend] at hrest
      simpa using hrest
    | some found =>
      rw [hend] at hrest
      simpa using hrest

/-- A string that the end of the source cuts off is a problem on the line where it began. -/
theorem reaches_openString (h : characters = before ++ lexeme) (hs : s.current = before.length)
    (line : UInt32) :
    Reaches (.ofCharacters characters) (s.reading lexeme (.stringEnd line))
      (s.reading lexeme (.error line .unterminatedString)) := by
  have hend : characters.length ≤ (s.reading lexeme (.stringEnd line)).current := by
    rw [h, List.length_append, ← hs]
    exact Nat.le_refl _
  apply Reaches.single
  rw [step, point_reading]
  change Except.ok (if characters.length ≤ _ then _ else _) = _
  rw [if_pos hend]
  rfl

/-- A string that is closed has the text between its quotes as its value. -/
theorem reaches_string_token {body : List Char}
    (h : characters = before ++ ('"' :: body ++ '"' :: rest)) (hs : s.current = before.length)
    (line : UInt32) :
    Reaches (.ofCharacters characters) (s.reading ('"' :: body) (.stringEnd line))
      (s.reading ('"' :: body ++ ['"'])
        (.token .string (some (.string (String.ofList body))))) := by
  have hcharacter := character?_reading h hs (.stringEnd line)
  have hmore : ¬ characters.length ≤ (s.reading ('"' :: body) (.stringEnd line)).current :=
    Nat.not_le_of_lt (lt_of_character? hcharacter)
  have hclose : (s.reading ('"' :: body) (.stringEnd line)).step (.ofCharacters characters) =
      .ok (s.reading ('"' :: body ++ ['"']) .stringValue) := by
    rw [step, point_reading]
    change Except.ok (if characters.length ≤ _ then _ else _) = _
    rw [if_neg hmore, goTo_advance_reading hcharacter (by decide)]
  have hvalue : (s.reading ('"' :: body ++ ['"']) .stringValue).step (.ofCharacters characters) =
      .ok (s.reading ('"' :: body ++ ['"'])
        (.token .string (some (.string (String.ofList body))))) := by
    have hinner : characters = before ++ ['"'] ++ (body ++ '"' :: rest) := by
      rw [h, List.append_assoc]
      rfl
    have hslice := slice_of_split hinner
    have hfirst : (s.reading ('"' :: body ++ ['"']) .stringValue).start + 1 =
        (before ++ ['"']).length := by
      rw [List.length_append, ← hs]
      rfl
    have hlast : Fault.subtract (s.reading ('"' :: body ++ ['"']) .stringValue).current 1 =
        .ok ((before ++ ['"']).length + body.length) := by
      have hcurrent : (s.reading ('"' :: body ++ ['"']) .stringValue).current =
          (before ++ ['"']).length + body.length + 1 := by
        simp only [reading, List.length_append, List.length_cons, List.length_nil, hs]
        omega
      rw [hcurrent, Fault.subtract, if_pos (Nat.le_add_left 1 _), Nat.add_sub_cancel]
    rw [step, point_reading]
    simp only [hfirst, hlast, Except.bind, hslice]
    rfl
  exact (Reaches.single hclose).trans (.single hvalue)

/-- A lexeme that has been read becomes a token. -/
theorem reaches_token (h : characters = before ++ (lexeme ++ rest))
    (hs : s.current = before.length) (kind : Token.Kind) (literal : Option Literal) :
    Reaches (.ofCharacters characters) (s.reading lexeme (.token kind literal))
      { s.reading lexeme .between with
        tokens := s.tokens ++ [⟨kind, String.ofList lexeme, literal,
          s.line + UInt32.ofNat (lexeme.count '\n')⟩] } := by
  apply Reaches.single
  rw [step, point_reading]
  simp only [slice_reading h hs]
  rfl

theorem reaches_error (v : View) (lexeme : List Char) (line : UInt32)
    (cause : LexicalError.Cause) :
    Reaches v (s.reading lexeme (.error line cause))
      { s.reading lexeme .between with errors := s.errors ++ [⟨line, cause⟩] } :=
  .single rfl

section

variable {c : Char} (h : characters = before ++ c :: rest) (hs : s.current = before.length)
  (hpoint : s.point = .between)
include h hs hpoint

/-- A call is made and reads the first character. -/
theorem reaches_apply :
    Reaches (.ofCharacters characters) s
      ((s.reading [] .opening).forward.apply (Rule.ofCharacter c)) := by
  have hmore : ¬ characters.length ≤ s.current := by
    rw [h, hs, List.length_append, List.length_cons]
    omega
  have hcall : s.step (.ofCharacters characters) = .ok (s.reading [] .opening) := by
    rw [step, hpoint]
    change Except.ok (if characters.length ≤ s.current then _ else _) = _
    rw [if_neg hmore]
    simp [reading]
  have hfirst : (s.reading [] .opening).step (.ofCharacters characters) =
      .ok ((s.reading [] .opening).forward.apply (Rule.ofCharacter c)) := by
    have hopened : characters = before ++ ([] ++ c :: rest) := h
    have hcharacter := character?_reading hopened hs .opening
    rw [step, point_reading]
    simp only [hcharacter, List.head?_cons]
    rw [advance_of_some hcharacter]
  exact (Reaches.single hcall).trans (.single hfirst)

/-- A rule that goes to some point does so behind the first character. -/
theorem reaches_rule (point : Point) (hc : c ≠ '\n')
    (hrule : ∀ t : Scanner, t.line = s.line → t.apply (Rule.ofCharacter c) = t.goTo point) :
    Reaches (.ofCharacters characters) s (s.reading [c] point) := by
  have hline : (s.reading [] .opening).forward.line = s.line := by
    simp [reading, forward]
  have hread := reaches_apply h hs hpoint
  rwa [hrule _ hline, forward_reading c hc] at hread

end

end LoxScan.Scanner
