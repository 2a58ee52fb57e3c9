import LoxScan.Proofs.Source.Buffers
import LoxScan.Source.Scanner

/-!
# Scanners stay inside their source

A single step of a scanner goes past one character, turns to another point with less to do, or adds
an entry and returns to the loop.  Whatever it does, the lexeme under way keeps the characters that
have been read of it, so the parts of the text that are asked for are there.  A call has read its
first character when it returns, and what it has left to do gets less with every step.
-/

namespace LoxScan.Scanner

/-- The number of characters that a lexeme has at least. -/
@[simp]
def Point.leastLength : Point → Nat
  | .between | .opening | .finished => 0
  | .stringValue => 2
  | _ => 1

/-- How far the end of a call is away if no more characters are read. -/
@[simp]
def Point.rank : Point → Nat
  | .between | .finished => 0
  | .token _ _ | .error _ _ | .lineComment => 1
  | .oneOrTwo _ _ | .slash | .blockComment _ | .commentEnd | .stringValue | .numberValue
  | .wordKind => 2
  | .stringEnd _ | .fraction | .word => 3
  | .string _ | .fractionOrEnd => 4
  | .whole => 5
  | .opening => 6

theorem Point.rank_le (point : Point) : point.rank ≤ 6 := by
  cases point <;> simp

/-- A call can come to a point behind another character. -/
def Point.Reads (point next : Point) : Prop :=
  next.leastLength ≤ point.leastLength + 1 ∧ next ≠ .opening ∧ next ≠ .finished

/-- A call can come to a point without reading any further. -/
def Point.Turns (point next : Point) : Prop :=
  next.leastLength ≤ point.leastLength ∧ next.rank < point.rank ∧ point ≠ .opening ∧
    next ≠ .finished

theorem Point.reads_self {point : Point} (hcall : 0 < point.rank) (hopening : point ≠ .opening) :
    point.Reads point := by
  refine ⟨Nat.le_succ _, hopening, ?_⟩
  rintro rfl
  exact absurd hcall (Nat.lt_irrefl 0)

theorem Point.rank_pos {point : Point} (hbetween : point ≠ .between)
    (hfinished : point ≠ .finished) : 0 < point.rank := by
  cases point <;> simp_all

/-- The cursors are inside a source of some length and have left room for the lexeme. -/
structure Placed (length : Nat) (s : Scanner) : Prop where
  least : s.start + s.point.leastLength ≤ s.current
  current_le : s.current ≤ length
  opening : s.point = .opening → s.current < length

/-- What a step makes of a scanner. -/
inductive Move (length : Nat) (s : Scanner) : Scanner → Prop where
  | finish (hpoint : s.point = .between) :
      Move length s { s with tokens := s.tokens ++ [Token.endOfText s.line], point := .finished }
  | call (hpoint : s.point = .between) (hmore : s.current < length) :
      Move length s { s with start := s.current, point := .opening }
  | read {line : UInt32} {point : Point} (hmore : s.current < length)
      (hpoint : s.point.Reads point) :
      Move length s { s with current := s.current + 1, line, point }
  | turn {point : Point} (hpoint : s.point.Turns point) : Move length s { s with point }
  | token (t : Token) (hpoint : s.point.rank = 1) :
      Move length s { s with tokens := s.tokens ++ [t], point := .between }
  | error (e : LexicalError) (hpoint : s.point.rank = 1) :
      Move length s { s with errors := s.errors ++ [e], point := .between }
  | stay (hpoint : s.point = .finished) : Move length s s

variable {characters : List Char} {length : Nat} {s t : Scanner}

theorem lt_of_character? {i : Nat} {c : Char}
    (h : (View.ofCharacters characters).character? i = some c) : i < characters.length :=
  (List.getElem?_eq_some_iff.1 h).1

theorem exists_character? {i : Nat} (h : i < characters.length) :
    ∃ c, (View.ofCharacters characters).character? i = some c :=
  ⟨characters[i], List.getElem?_eq_getElem h⟩

theorem advance_of_some {v : View} {c : Char} (h : v.character? s.current = some c) :
    s.advance v = s.forward := by
  rw [advance, h]

theorem exists_slice {first last : Nat} (hle : first ≤ last) (hlast : last ≤ characters.length) :
    ∃ text, (View.ofCharacters characters).slice first last = .ok text :=
  ⟨_, if_pos ⟨hle, hlast⟩⟩

theorem countLine_eq (s : Scanner) (c : Char) :
    s.countLine c = { s with line := if c = '\n' then s.line + 1 else s.line } := by
  rw [countLine]
  split <;> rfl

/-- Going past a character that is there. -/
theorem Move.advance {c : Char} {line : UInt32} {point : Point}
    (hc : (View.ofCharacters characters).character? s.current = some c)
    (hpoint : s.point.Reads point) :
    Move characters.length s { s.advance (.ofCharacters characters) with line, point } := by
  rw [advance_of_some hc]
  exact .read (lt_of_character? hc) hpoint

theorem Move.readWhile {belongs : Char → Bool} {next : Point} (hpoint : s.point.Turns next) :
    Move characters.length s (s.readWhile (.ofCharacters characters) belongs next) := by
  rw [Scanner.readWhile]
  split
  · next hany =>
    obtain ⟨c, hc, -⟩ := (Option.any_eq_true _ _).1 hany
    rw [advance_of_some hc]
    exact .read (lt_of_character? hc)
      (Point.reads_self (Nat.zero_lt_of_lt hpoint.2.1) hpoint.2.2.1)
  · exact .turn hpoint

/-- The first character of a lexeme. -/
theorem Move.apply (hpoint : s.point = .opening) (hmore : s.current < length) (rule : Rule) :
    Move length s (s.forward.apply rule) := by
  cases rule <;> exact .read hmore (by simp [hpoint, Point.Reads])

/-- Going past a character in a text that may run over several lines. -/
theorem Move.countLine {c : Char} (hpoint : s.point.Reads s.point)
    (hc : (View.ofCharacters characters).character? s.current = some c) :
    Move characters.length s ((s.countLine c).advance (.ofCharacters characters)) := by
  rw [countLine_eq, Scanner.advance, hc]
  exact .read (lt_of_character? hc) hpoint

theorem exists_move (h : Placed characters.length s) :
    ∃ t, s.step (.ofCharacters characters) = .ok t ∧ Move characters.length s t := by
  have hleast := h.least
  have hlength : (View.ofCharacters characters).length = .ok characters.length := rfl
  rw [step]
  cases hpoint : s.point with
  | between =>
    simp only [hlength, Except.map]
    split
    · exact ⟨_, rfl, .finish hpoint⟩
    · next hmore => exact ⟨_, rfl, .call hpoint (Nat.lt_of_not_le hmore)⟩
  | opening =>
    have hmore := h.opening hpoint
    obtain ⟨c, hc⟩ := exists_character? hmore
    simp only [hc, advance_of_some hc]
    exact ⟨_, rfl, .apply hpoint hmore _⟩
  | oneOrTwo one two =>
    dsimp only
    split
    · next hequal =>
      exact ⟨_, rfl, .read (lt_of_character? hequal) (by simp [hpoint, Point.Reads])⟩
    · exact ⟨_, rfl, .turn (by simp [hpoint, Point.Turns])⟩
  | slash =>
    dsimp only
    split
    · next hslash =>
      exact ⟨_, rfl, .read (lt_of_character? hslash) (by simp [hpoint, Point.Reads])⟩
    split
    · next hstar =>
      exact ⟨_, rfl, .read (lt_of_character? hstar) (by simp [hpoint, Point.Reads])⟩
    · exact ⟨_, rfl, .turn (by simp [hpoint, Point.Turns])⟩
  | lineComment => exact ⟨_, rfl, .readWhile (by simp [hpoint, Point.Turns])⟩
  | blockComment line =>
    dsimp only
    split
    · exact ⟨_, rfl, .turn (by simp [hpoint, Point.Turns])⟩
    · next c hc =>
      split
      · exact ⟨_, rfl, .advance hc (by simp [hpoint, Point.Reads])⟩
      · exact ⟨_, rfl, .countLine (by simp [hpoint, Point.Reads]) hc⟩
  | commentEnd =>
    refine ⟨_, rfl, ?_⟩
    cases hc : (View.ofCharacters characters).character? s.current with
    | none =>
      rw [Scanner.advance, hc]
      exact .turn (by simp [hpoint, Point.Turns])
    | some c => exact .advance hc (by simp [hpoint, Point.Reads])
  | string line =>
    dsimp only
    split
    · exact ⟨_, rfl, .turn (by simp [hpoint, Point.Turns])⟩
    · next c hc =>
      split
      · exact ⟨_, rfl, .turn (by simp [hpoint, Point.Turns])⟩
      · exact ⟨_, rfl, .countLine (by simp [hpoint, Point.Reads]) hc⟩
  | stringEnd line =>
    simp only [hlength, Except.map]
    split
    · exact ⟨_, rfl, .turn (by simp [hpoint, Point.Turns])⟩
    · next hmore =>
      obtain ⟨c, hc⟩ := exists_character? (Nat.lt_of_not_le hmore)
      exact ⟨_, rfl, .advance hc (by simp [hpoint, Point.Reads])⟩
  | stringValue =>
    rw [hpoint] at hleast
    have hquotes : s.start + 1 ≤ s.current - 1 := Nat.le_sub_one_of_lt hleast
    obtain ⟨text, htext⟩ := exists_slice hquotes (Nat.le_trans (Nat.sub_le _ _) h.current_le)
    have hsubtract : Fault.subtract s.current 1 = .ok (s.current - 1) :=
      if_pos (Nat.one_le_of_lt hleast)
    simp only [hsubtract, Except.bind, htext, Except.map]
    exact ⟨_, rfl, .turn (by simp [hpoint, Point.Turns])⟩
  | whole => exact ⟨_, rfl, .readWhile (by simp [hpoint, Point.Turns])⟩
  | fractionOrEnd =>
    dsimp only
    split
    · next hpair => exact ⟨_, rfl, .advance hpair.1 (by simp [hpoint, Point.Reads])⟩
    · exact ⟨_, rfl, .turn (by simp [hpoint, Point.Turns])⟩
  | fraction => exact ⟨_, rfl, .readWhile (by simp [hpoint, Point.Turns])⟩
  | numberValue =>
    obtain ⟨text, htext⟩ := exists_slice (Nat.le_of_add_right_le hleast) h.current_le
    simp only [htext, Except.map]
    split
    · exact ⟨_, rfl, .turn (by simp [hpoint, Point.Turns])⟩
    · exact ⟨_, rfl, .turn (by simp [hpoint, Point.Turns])⟩
  | word => exact ⟨_, rfl, .readWhile (by simp [hpoint, Point.Turns])⟩
  | wordKind =>
    obtain ⟨text, htext⟩ := exists_slice (Nat.le_of_add_right_le hleast) h.current_le
    simp only [htext, Except.map]
    exact ⟨_, rfl, .turn (by simp [hpoint, Point.Turns])⟩
  | token kind literal =>
    obtain ⟨text, htext⟩ := exists_slice (Nat.le_of_add_right_le hleast) h.current_le
    simp only [htext, Except.map]
    exact ⟨_, rfl, .token _ (by simp [hpoint])⟩
  | error line cause => exact ⟨_, rfl, .error _ (by simp [hpoint])⟩
  | finished => exact ⟨s, rfl, .stay hpoint⟩

theorem Placed.move (h : Placed length s) (hmove : Move length s t) : Placed length t := by
  have hleast := h.least
  have hcurrent := h.current_le
  cases hmove with
  | finish => exact ⟨Nat.le_of_add_right_le hleast, hcurrent, Point.noConfusion⟩
  | call _ hmore => exact ⟨Nat.le_refl _, hcurrent, fun _ ↦ hmore⟩
  | read hmore hpoint =>
    refine ⟨?_, hmore, fun hopening ↦ absurd hopening hpoint.2.1⟩
    have := hpoint.1
    simp only
    omega
  | @turn point hpoint =>
    refine ⟨Nat.le_trans (Nat.add_le_add_left hpoint.1 _) hleast, hcurrent, fun hopening ↦ ?_⟩
    have hrank := hpoint.2.1
    obtain rfl : point = .opening := hopening
    exact absurd hrank (Nat.not_lt_of_le s.point.rank_le)
  | token => exact ⟨Nat.le_of_add_right_le hleast, hcurrent, Point.noConfusion⟩
  | error => exact ⟨Nat.le_of_add_right_le hleast, hcurrent, Point.noConfusion⟩
  | stay => exact h

/-- At most one entry has been added. -/
def AddsAtMostOne (s t : Scanner) : Prop :=
  (t.tokens = s.tokens ∧ t.errors = s.errors) ∨
    (∃ token, t.tokens = s.tokens ++ [token] ∧ t.errors = s.errors) ∨
    ∃ error, t.tokens = s.tokens ∧ t.errors = s.errors ++ [error]

theorem Move.addsAtMostOne (h : Move length s t) : AddsAtMostOne s t := by
  cases h with
  | finish => exact .inr (.inl ⟨_, rfl, rfl⟩)
  | token => exact .inr (.inl ⟨_, rfl, rfl⟩)
  | error => exact .inr (.inr ⟨_, rfl, rfl⟩)
  | call | read | turn | stay => exact .inl ⟨rfl, rfl⟩

/-- Nothing is added before a call returns. -/
theorem Move.entries_eq (h : Move length s t) (hcall : s.point ≠ .between)
    (hpoint : t.point ≠ .between) : t.tokens = s.tokens ∧ t.errors = s.errors := by
  cases h with
  | finish hbetween => exact absurd hbetween hcall
  | token => exact absurd rfl hpoint
  | error => exact absurd rfl hpoint
  | call | read | turn | stay => exact ⟨rfl, rfl⟩

theorem Move.current_le (h : Move length s t) : s.current ≤ t.current := by
  cases h with
  | read => exact Nat.le_succ _
  | finish | call | turn | token | error | stay => exact Nat.le_refl _

theorem Move.current_lt (h : Move length s t) (hopening : s.point = .opening) :
    s.current < t.current := by
  cases h with
  | read => exact Nat.lt_succ_self _
  | finish hpoint | call hpoint | stay hpoint => simp [hopening] at hpoint
  | turn hpoint => exact absurd hopening hpoint.2.2.1
  | token _ hpoint | error _ hpoint => simp [hopening] at hpoint

/-- A call does not end the loop. -/
theorem Move.ne_finished (h : Move length s t) (hcall : 0 < s.point.rank) :
    t.point ≠ .finished := by
  cases h with
  | finish hpoint | stay hpoint => simp [hpoint] at hcall
  | call | token | error => exact Point.noConfusion
  | read _ hpoint => exact hpoint.2.2
  | turn hpoint => exact hpoint.2.2.2

/-- What a call has left to do if it has a source of some length. -/
def left (length : Nat) (s : Scanner) : Nat := 7 * (length - s.current) + s.point.rank

theorem Move.left_lt (h : Move length s t) (hcall : 0 < s.point.rank) :
    t.left length < s.left length := by
  cases h with
  | finish hpoint | call hpoint | stay hpoint => simp [hpoint] at hcall
  | @read line point hmore hpoint =>
    have hrank := point.rank_le
    simp only [left]
    omega
  | turn hpoint => exact Nat.add_lt_add_left hpoint.2.1 _
  | token | error => exact Nat.add_lt_add_left hcall _

theorem move_of_step (h : Placed characters.length s)
    (hstep : s.step (.ofCharacters characters) = .ok t) : Move characters.length s t := by
  obtain ⟨u, hu, hmove⟩ := exists_move h
  rw [hu] at hstep
  cases hstep
  exact hmove

theorem placed_initial (length : Nat) : Placed length initial :=
  ⟨Nat.le_refl 0, Nat.zero_le length, Point.noConfusion⟩

theorem Reaches.placed (h : Reaches (.ofCharacters characters) s t)
    (hs : Placed characters.length s) : Placed characters.length t := by
  induction h with
  | refl => exact hs
  | step _ hstep ih => exact ih.move (move_of_step ih hstep)

/-- A call adds at most one entry. -/
theorem Returns.addsAtMostOne (h : Returns (.ofCharacters characters) s t)
    (hs : Placed characters.length s) (hcall : s.point ≠ .between) :
    s.current ≤ t.current ∧ AddsAtMostOne s t := by
  induction h with
  | last hstep =>
    have hmove := move_of_step hs hstep
    exact ⟨hmove.current_le, hmove.addsAtMostOne⟩
  | step hstep hpoint _ ih =>
    have hmove := move_of_step hs hstep
    obtain ⟨hcurrent, hadds⟩ := ih (hs.move hmove) hpoint
    obtain ⟨htokens, herrors⟩ := hmove.entries_eq hcall hpoint
    rw [AddsAtMostOne, htokens, herrors] at hadds
    exact ⟨Nat.le_trans hmove.current_le hcurrent, hadds⟩

/-- A call that is just made goes past at least one character. -/
theorem Returns.current_lt (h : Returns (.ofCharacters characters) s t)
    (hs : Placed characters.length s) (hopening : s.point = .opening) : s.current < t.current := by
  cases h with
  | last hstep => exact (move_of_step hs hstep).current_lt hopening
  | step hstep hpoint h =>
    have hmove := move_of_step hs hstep
    exact Nat.lt_of_lt_of_le (hmove.current_lt hopening)
      (h.addsAtMostOne (hs.move hmove) hpoint).1

/-- Every call returns, since it has less left to do with each of its steps. -/
theorem exists_returns (hs : Placed characters.length s) (hcall : 0 < s.point.rank) :
    ∃ t, Returns (.ofCharacters characters) s t := by
  induction hleft : s.left characters.length using Nat.strongRecOn generalizing s with
  | _ n ih =>
    obtain ⟨t, hstep, hmove⟩ := exists_move hs
    by_cases hpoint : t.point = .between
    · exact ⟨t, .last hstep hpoint⟩
    · have hrank := Point.rank_pos hpoint (hmove.ne_finished hcall)
      obtain ⟨u, hu⟩ := ih _ (hleft ▸ hmove.left_lt hcall) (hs.move hmove) hrank rfl
      exact ⟨u, .step hstep hpoint hu⟩

end LoxScan.Scanner
