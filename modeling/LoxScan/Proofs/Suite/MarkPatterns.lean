import LoxScan.Proofs.Suite.MarkForms
import LoxScan.Proofs.Text.Pattern

/-!
# Marks as patterns

Each mark is the search for a pattern.  What is found in a line is the preferred reading of the
pattern at the first place at which a word of its language begins, and it divides the text there
in one way: the number is all that stands between its brackets, and the message runs to the end of
the line.
-/

namespace LoxScan.Suite.Mark

open Text (Pattern)
open Text.Pattern (Reading)

inductive Kind where
  | output
  | error
  | errorAt
  | diagnostic
  | exclusion
deriving DecidableEq, Repr

def isInLine (c : Char) : Bool := c != '\n'

def digitsPattern : Pattern :=
  .group (.seq (.one Text.DecimalDigit.isDecimalDigit) (.run Text.DecimalDigit.isDecimalDigit))

def messagePattern (more : Pattern) : Pattern := .group (.seq (.word "Error") more)

def lineMessagePattern (more : Pattern) : Pattern :=
  .seq (.word "[line ") (.seq digitsPattern (.seq (.word "] ") (messagePattern more)))

/-- The gap in front of an expected output is a space whenever there is one. -/
def IsGap (gap message : List Char) : Prop := gap = [' '] ∨ gap = [] ∧ message.head? ≠ some ' '

namespace Kind

/-- In the usual notation `// expect: ?(.*)`, `// (Error.*)`, `// \[line (\d+)\] (Error.*)`,
`\[line (\d+)\] (Error.+)` and `// nontest`. -/
def pattern : Kind → Pattern
  | output =>
    .seq (.word "// expect:") (.seq (.optional (.word " ")) (.group (.run isInLine)))
  | error => .seq (.word "// ") (messagePattern (.run isInLine))
  | errorAt => .seq (.word "// ") (lineMessagePattern (.run isInLine))
  | diagnostic => lineMessagePattern (.seq (.one isInLine) (.run isInLine))
  | exclusion => .word "// nontest"

/-- What is found in a line: the whole match, then what it carries. -/
def search? : Kind → String → Option (List String)
  | output, line => (expectedOutput? line).map fun found ↦ [found.whole, found.value]
  | error, line => (expectedError? line).map fun found ↦ [found.whole, found.value]
  | errorAt, line =>
    (expectedErrorAt? line).map fun found ↦ [found.whole, found.value.number, found.value.message]
  | diagnostic, line =>
    (diagnostic? line).map fun found ↦ [found.whole, found.value.number, found.value.message]
  | exclusion, line => (exclusion? line).map fun found ↦ [found.whole]

/-- How a match, what it carries and what follows it divide a text.  A number is all that stands
between its brackets, and a message goes on to the end of the line. -/
inductive Divides : Kind → List Char → List String → List Char → Prop where
  | output {gap : List Char} {message : String} {rest : List Char}
      (hgap : IsGap gap message.toList) (hmessage : '\n' ∉ message.toList)
      (hrest : EndsLine rest) :
      Divides .output ("// expect:".toList ++ (gap ++ message.toList)) [message] rest
  | error {message : String} {rest : List Char} (hmessage : IsMessage message)
      (hrest : EndsLine rest) :
      Divides .error ("// ".toList ++ message.toList) [message] rest
  | errorAt {m : LineMessage} {rest : List Char} (hm : IsReadable m) (hrest : EndsLine rest) :
      Divides .errorAt ("// ".toList ++ m.display.toList) [m.number, m.message] rest
  | diagnostic {m : LineMessage} {rest : List Char} (hm : IsReadable m)
      (hmessage : m.message ≠ "Error") (hrest : EndsLine rest) :
      Divides .diagnostic m.display.toList [m.number, m.message] rest
  | exclusion {rest : List Char} : Divides .exclusion "// nontest".toList [] rest

/-- A match stands at the first place at which any begins, and it is the longest one there. -/
structure IsMatch (k : Kind) (text front whole : List Char) (groups : List String)
    (rest : List Char) : Prop where
  isFirstPlace : k.pattern.IsFirstPlace text front (whole ++ rest)
  mem_language : whole ∈ k.pattern.language
  length_le : ∀ word ∈ k.pattern.language, word <+: whole ++ rest → word.length ≤ whole.length
  divides : k.Divides whole groups rest

end Kind

theorem isInLine_of_not_mem {text : List Char} (h : '\n' ∉ text) : ∀ c ∈ text, isInLine c :=
  fun _ hc ↦ bne_iff_ne.2 (ne_of_mem_of_not_mem hc h)

theorem EndsLine.isInLine_eq_false {rest : List Char} (h : EndsLine rest) :
    ∀ c ∈ rest.head?, isInLine c = false := fun c hc ↦ by rw [h c hc]; rfl

/-- What stays in its line at the front of a text can be followed to the end of the line. -/
theorem exists_line {front : List Char} (hfront : '\n' ∉ front) (later : List Char) :
    ∃ line rest, front ++ later = String.toList line ++ rest ∧ front <+: line.toList ∧
      '\n' ∉ line.toList ∧ EndsLine rest := by
  rcases hread : readLine later with ⟨line, rest⟩
  obtain ⟨rfl, hline, hrest⟩ := readLine_eq_iff.1 hread
  refine ⟨String.ofList front ++ line, rest, ?_⟩
  rw [String.toList_append, String.toList_ofList, List.append_assoc, List.mem_append, not_or]
  exact ⟨rfl, List.prefix_append _ _, ⟨hfront, hline⟩, hrest⟩

/-- In front of the end of a line no word without a newline is longer than the line. -/
theorem EndsLine.length_le {word line rest : List Char} (hrest : EndsLine rest)
    (hword : '\n' ∉ word) (h : word <+: line ++ rest) : word.length ≤ line.length := by
  rcases List.prefix_or_prefix_of_prefix h (List.prefix_append line rest) with h | ⟨more, rfl⟩
  · exact h.length_le
  · cases more with
    | nil => rw [List.append_nil]
    | cons c more =>
      obtain ⟨after, rfl⟩ := (List.prefix_append_right_inj line).1 h
      rw [hrest c rfl] at hword
      exact absurd (List.mem_append_right _ List.mem_cons_self) hword

/-- A message without a space in front has none either before the end of its line. -/
theorem EndsLine.not_space_prefix {message rest : List Char} (hrest : EndsLine rest)
    (hmessage : message.head? ≠ some ' ') : ¬ " ".toList <+: message ++ rest := by
  refine not_prefix_of_head? rfl ?_
  cases message with
  | nil => exact fun hhead ↦ absurd (hrest ' ' hhead) (by decide)
  | cons c message => exact hmessage

theorem IsGap.getD_skip {gap message rest : List Char} (h : IsGap gap message)
    (hrest : EndsLine rest) :
    (skip " " (gap ++ (message ++ rest))).getD (gap ++ (message ++ rest)) = message ++ rest := by
  rcases h with rfl | ⟨rfl, hhead⟩
  · exact congrArg (Option.getD · _) (skip_append " " (message ++ rest))
  · rw [List.nil_append, skip_eq_none_iff.2 (hrest.not_space_prefix hhead), Option.getD_none]

/-! ## Preferred readings of the patterns -/

section Preferred

variable {message : String} {m : LineMessage} {rest : List Char}

theorem preferred?_messagePattern {more : Pattern} {tail : List Char}
    (htail : "Error".toList ++ tail = message.toList)
    (h : more.preferred? (tail ++ rest) = some ⟨tail, [], rest⟩) :
    (messagePattern more).preferred? (message.toList ++ rest) =
      some ⟨message.toList, [message], rest⟩ := by
  refine Pattern.preferred?_group ?_
  rw [← htail, List.append_assoc]
  exact Pattern.preferred?_seq (Pattern.preferred?_word "Error" _) h

theorem IsMessage.preferred? (h : IsMessage message) (hrest : EndsLine rest) :
    (messagePattern (.run isInLine)).preferred? (message.toList ++ rest) =
      some ⟨message.toList, [message], rest⟩ := by
  obtain ⟨tail, htail⟩ := h.word
  have hline : '\n' ∉ tail := fun hmem ↦ h.line (htail ▸ List.mem_append_right _ hmem)
  exact preferred?_messagePattern htail
    (Pattern.preferred?_run (isInLine_of_not_mem hline) hrest.isInLine_eq_false)

/-- A message that goes on behind its first word. -/
theorem IsMessage.preferred?_of_ne (h : IsMessage message) (hne : message ≠ "Error")
    (hrest : EndsLine rest) :
    (messagePattern (.seq (.one isInLine) (.run isInLine))).preferred? (message.toList ++ rest) =
      some ⟨message.toList, [message], rest⟩ := by
  obtain ⟨tail, htail⟩ := h.word
  have hline : '\n' ∉ tail := fun hmem ↦ h.line (htail ▸ List.mem_append_right _ hmem)
  cases tail with
  | nil => exact absurd (String.toList_inj.1 htail.symm) hne
  | cons c tail =>
    obtain ⟨hc, hmore⟩ := List.forall_mem_cons.1 (isInLine_of_not_mem hline)
    exact preferred?_messagePattern htail (Pattern.preferred?_seq (Pattern.preferred?_one hc)
      (Pattern.preferred?_run hmore hrest.isInLine_eq_false))

theorem preferred?_digitsPattern {number : String} (hnumber : number.toList ≠ [])
    (hdigits : ∀ c ∈ number.toList, Text.DecimalDigit.isDecimalDigit c)
    (hrest : ∀ c ∈ rest.head?, Text.DecimalDigit.isDecimalDigit c = false) :
    digitsPattern.preferred? (number.toList ++ rest) =
      some ⟨number.toList, [number], rest⟩ := by
  refine Pattern.preferred?_group ?_
  cases htext : number.toList with
  | nil => exact absurd htext hnumber
  | cons c digits =>
    rw [htext] at hdigits
    obtain ⟨hc, hdigits⟩ := List.forall_mem_cons.1 hdigits
    exact Pattern.preferred?_seq (Pattern.preferred?_one hc) (Pattern.preferred?_run hdigits hrest)

theorem IsReadable.preferred? {more : Pattern} (hm : IsReadable m)
    (h : (messagePattern more).preferred? (m.message.toList ++ rest) =
      some ⟨m.message.toList, [m.message], rest⟩) :
    (lineMessagePattern more).preferred? (m.display.toList ++ rest) =
      some ⟨m.display.toList, [m.number, m.message], rest⟩ := by
  have hbracket : ∀ c ∈ ("] ".toList ++ (m.message.toList ++ rest)).head?,
      Text.DecimalDigit.isDecimalDigit c = false := by
    rintro c ⟨⟩
    decide
  have hnumber := preferred?_digitsPattern hm.number_ne_nil hm.digits hbracket
  have hbehind := Pattern.preferred?_seq (Pattern.preferred?_word "] " _) h
  rw [toList_display]
  simp only [List.append_assoc]
  exact Pattern.preferred?_seq (Pattern.preferred?_word "[line " _)
    (Pattern.preferred?_seq hnumber hbehind)

end Preferred

/-- A word of the language need not reach the end of the line, but the message does. -/
theorem exists_message {more : Pattern} (hmore : more.avoids '\n') {later : List Char}
    (h : (messagePattern more).StartsIn later) :
    ∃ message rest, later = message.toList ++ rest ∧ IsMessage message ∧ EndsLine rest ∧
      ∃ tail ∈ more.language, "Error".toList ++ tail <+: message.toList := by
  obtain ⟨_, hword, after, rfl⟩ := h
  obtain ⟨_, rfl, tail, htail, rfl⟩ := Language.mem_mul.1 hword
  have hfront : '\n' ∉ "Error".toList ++ tail := by
    rw [List.mem_append, not_or]
    exact ⟨by decide, Pattern.not_mem_of_avoids hmore htail⟩
  obtain ⟨message, rest, hsplit, hbegins, hline, hrest⟩ := exists_line hfront after
  exact ⟨message, rest, hsplit, ⟨(List.prefix_append _ tail).trans hbegins, hline⟩, hrest, tail,
    htail, hbegins⟩

theorem mem_language_digitsPattern {number : List Char} (h : number ∈ digitsPattern.language) :
    number ≠ [] ∧ ∀ c ∈ number, Text.DecimalDigit.isDecimalDigit c := by
  obtain ⟨_, ⟨c, hc, rfl⟩, digits, hdigits, rfl⟩ := Language.mem_mul.1 h
  exact ⟨List.cons_ne_nil c digits,
    List.forall_mem_cons.2 ⟨hc, Pattern.mem_language_run.1 hdigits⟩⟩

theorem exists_lineMessage {more : Pattern} (hmore : more.avoids '\n') {later : List Char}
    (h : (lineMessagePattern more).StartsIn later) :
    ∃ m rest, later = m.display.toList ++ rest ∧ IsReadable m ∧ EndsLine rest ∧
      ∃ tail ∈ more.language, "Error".toList ++ tail <+: m.message.toList := by
  obtain ⟨_, rfl, hline⟩ := Pattern.startsIn_word_seq_iff.1 h
  obtain ⟨number, _, hnumber, rfl, hbracket⟩ := Pattern.startsIn_seq_iff.1 hline
  obtain ⟨_, rfl, hbehind⟩ := Pattern.startsIn_word_seq_iff.1 hbracket
  obtain ⟨message, rest, rfl, hmessage, hrest, htail⟩ := exists_message hmore hbehind
  obtain ⟨hne, hdigits⟩ := mem_language_digitsPattern hnumber
  refine ⟨⟨String.ofList number, message⟩, rest, ?_, ⟨?_, ?_, hmessage.word, hmessage.line⟩, hrest,
    htail⟩
  · simp only [toList_display, String.toList_ofList, List.append_assoc]
  · rwa [String.toList_ofList]
  · rwa [String.toList_ofList]

/-- What goes on behind the first word is not that word. -/
theorem ne_of_append {accepts : Char → Bool} {more : Pattern} {tail : List Char} {message : String}
    (htail : tail ∈ (Pattern.seq (.one accepts) more).language)
    (hbegins : "Error".toList ++ tail <+: message.toList) : message ≠ "Error" := by
  rintro rfl
  obtain ⟨_, ⟨c, hc, rfl⟩, _, -, rfl⟩ := Language.mem_mul.1 htail
  have hlength := hbegins.length_le
  rw [List.length_append, List.length_append, List.length_singleton] at hlength
  omega

namespace Kind

variable {k : Kind} {whole rest : List Char} {groups : List String}

/-- What divides a text is the preferred reading of it. -/
theorem Divides.preferred? (h : k.Divides whole groups rest) :
    k.pattern.preferred? (whole ++ rest) = some ⟨whole, groups, rest⟩ := by
  cases h with
  | @output gap message _ hgap hmessage hrest =>
    have hspace : (Pattern.optional (.word " ")).preferred? (gap ++ (message.toList ++ rest)) =
        some ⟨gap, [], message.toList ++ rest⟩ := by
      rcases hgap with rfl | ⟨rfl, hhead⟩
      · exact Pattern.preferred?_optional (Pattern.preferred?_word " " _)
      · have hnone : ¬ (Pattern.word " ").StartsIn (message.toList ++ rest) := by
          rintro ⟨_, rfl, hbegins⟩
          exact hrest.not_space_prefix hhead hbegins
        exact Pattern.preferred?_optional_of_none (Pattern.preferred?_eq_none_iff.2 hnone)
    have hrun := Pattern.preferred?_run (isInLine_of_not_mem hmessage) hrest.isInLine_eq_false
    rw [List.append_assoc, List.append_assoc]
    exact Pattern.preferred?_seq (Pattern.preferred?_word "// expect:" _)
      (Pattern.preferred?_seq hspace (Pattern.preferred?_group hrun))
  | error hmessage hrest =>
    rw [List.append_assoc]
    exact Pattern.preferred?_seq (Pattern.preferred?_word "// " _) (hmessage.preferred? hrest)
  | errorAt hm hrest =>
    rw [List.append_assoc]
    exact Pattern.preferred?_seq (Pattern.preferred?_word "// " _)
      (hm.preferred? (IsMessage.preferred? ⟨hm.message, hm.line⟩ hrest))
  | diagnostic hm hmessage hrest =>
    exact hm.preferred? (IsMessage.preferred?_of_ne ⟨hm.message, hm.line⟩ hmessage hrest)
  | exclusion => exact Pattern.preferred?_word "// nontest" rest

theorem Divides.startsIn (h : k.Divides whole groups rest) : k.pattern.StartsIn (whole ++ rest) :=
  Pattern.startsIn_of_preferred? h.preferred?

theorem Divides.length_le (h : k.Divides whole groups rest) {word : List Char}
    (hword : word ∈ k.pattern.language) (hbegins : word <+: whole ++ rest) :
    word.length ≤ whole.length := by
  cases h with
  | error _ hrest | errorAt _ hrest =>
    exact hrest.length_le (Pattern.not_mem_of_avoids rfl hword) hbegins
  | output _ _ hrest | diagnostic _ _ hrest =>
    exact hrest.length_le (Pattern.not_mem_of_avoids rfl hword) hbegins
  | exclusion =>
    cases hword
    exact Nat.le_refl _

end Kind

/-! ## Readers -/

/-- A reader that succeeds where the text is divided, with what the match carries and what follows
it. -/
structure Follows {α : Type} (read : Reader α) (groups : α → List String) (k : Kind) : Prop where
  exists_read {whole : List Char} {carried : List String} {rest : List Char}
    (h : k.Divides whole carried rest) :
    ∃ value, read (whole ++ rest) = some (value, rest) ∧ groups value = carried
  exists_divides {later rest : List Char} {value : α} (h : read later = some (value, rest)) :
    ∃ whole, later = whole ++ rest ∧ k.Divides whole (groups value) rest

theorem follows_output : Follows readOutput ([·]) .output where
  exists_read h := by
    cases h with
    | @output gap message _ hgap hmessage hrest =>
      refine ⟨message, ?_, rfl⟩
      rw [List.append_assoc, List.append_assoc, readOutput, skip_append, Option.map_some,
        hgap.getD_skip hrest, readLine_eq_iff.2 ⟨rfl, hmessage, hrest⟩]
  exists_divides h := by
    obtain ⟨behind, hskip, hread⟩ := Option.map_eq_some_iff.1 h
    rw [skip_eq_some_iff.1 hskip]
    cases hspace : skip " " behind with
    | some after =>
      rw [hspace, Option.getD_some] at hread
      obtain ⟨rfl, hmessage, hrest⟩ := readLine_eq_iff.1 hread
      refine ⟨_, ?_, .output (.inl rfl) hmessage hrest⟩
      rw [skip_eq_some_iff.1 hspace]
      rfl
    | none =>
      rw [hspace, Option.getD_none] at hread
      obtain ⟨rfl, hmessage, hrest⟩ := readLine_eq_iff.1 hread
      refine ⟨_, ?_, .output (.inr ⟨rfl, fun hhead ↦ ?_⟩) hmessage hrest⟩
      · rfl
      · obtain ⟨later, hlater⟩ := List.head?_eq_some_iff.1 hhead
        rw [hlater] at hspace
        cases hspace

theorem follows_error : Follows readError ([·]) .error where
  exists_read h := by
    cases h with
    | @error message _ hmessage hrest =>
      refine ⟨message, ?_, rfl⟩
      rw [List.append_assoc, readError, skip_append, Option.bind_some, readMessage_eq_some_iff]
      exact ⟨hmessage, hrest, rfl⟩
  exists_divides h := by
    obtain ⟨_, hskip, h⟩ := Option.bind_eq_some_iff.1 h
    obtain ⟨hmessage, hrest, rfl⟩ := readMessage_eq_some_iff.1 h
    refine ⟨_, ?_, .error hmessage hrest⟩
    rw [List.append_assoc, skip_eq_some_iff.1 hskip]

theorem follows_errorAt :
    Follows readErrorAt (fun m ↦ [m.number, m.message]) .errorAt where
  exists_read h := by
    cases h with
    | @errorAt m _ hm hrest =>
      refine ⟨m, ?_, rfl⟩
      rw [List.append_assoc, readErrorAt, skip_append, Option.bind_some,
        readLineMessage_eq_some_iff]
      exact ⟨hm, hrest, rfl⟩
  exists_divides h := by
    obtain ⟨_, hskip, h⟩ := Option.bind_eq_some_iff.1 h
    obtain ⟨hm, hrest, rfl⟩ := readLineMessage_eq_some_iff.1 h
    refine ⟨_, ?_, .errorAt hm hrest⟩
    rw [List.append_assoc, skip_eq_some_iff.1 hskip]

theorem follows_diagnostic :
    Follows readDiagnostic (fun m ↦ [m.number, m.message]) .diagnostic where
  exists_read h := by
    cases h with
    | @diagnostic m _ hm hmessage hrest =>
      refine ⟨m, ?_, rfl⟩
      rw [readDiagnostic, Option.filter_eq_some_iff, readLineMessage_eq_some_iff]
      exact ⟨⟨hm, hrest, rfl⟩, bne_iff_ne.2 hmessage⟩
  exists_divides h := by
    obtain ⟨h, hmessage⟩ := Option.filter_eq_some_iff.1 h
    obtain ⟨hm, hrest, rfl⟩ := readLineMessage_eq_some_iff.1 h
    exact ⟨_, rfl, .diagnostic hm (bne_iff_ne.1 hmessage) hrest⟩

theorem follows_exclusion : Follows readExclusion (fun _ ↦ []) .exclusion where
  exists_read h := by
    cases h with
    | exclusion =>
      refine ⟨(), ?_, rfl⟩
      rw [readExclusion, skip_append, Option.map_some]
  exists_divides h := by
    obtain ⟨_, hskip, heq⟩ := Option.map_eq_some_iff.1 h
    cases heq
    exact ⟨_, skip_eq_some_iff.1 hskip, .exclusion⟩

/-- Wherever a word of the language begins, the text is divided by a match. -/
theorem exists_divides_of_startsIn {k : Kind} {later : List Char} (h : k.pattern.StartsIn later) :
    ∃ whole groups rest, later = whole ++ rest ∧ k.Divides whole groups rest := by
  cases k with
  | output =>
    obtain ⟨behind, rfl, -⟩ := Pattern.startsIn_word_seq_iff.1 h
    have hread : readOutput ("// expect:".toList ++ behind) =
        some (readLine ((skip " " behind).getD behind)) := by
      rw [readOutput, skip_append, Option.map_some]
    obtain ⟨whole, hwhole, hdivides⟩ := follows_output.exists_divides hread
    exact ⟨whole, _, _, hwhole, hdivides⟩
  | error =>
    obtain ⟨_, rfl, hbehind⟩ := Pattern.startsIn_word_seq_iff.1 h
    obtain ⟨message, rest, rfl, hmessage, hrest, -⟩ := exists_message rfl hbehind
    exact ⟨_, _, rest, (List.append_assoc ..).symm, .error hmessage hrest⟩
  | errorAt =>
    obtain ⟨_, rfl, hbehind⟩ := Pattern.startsIn_word_seq_iff.1 h
    obtain ⟨m, rest, rfl, hm, hrest, -⟩ := exists_lineMessage rfl hbehind
    exact ⟨_, _, rest, (List.append_assoc ..).symm, .errorAt hm hrest⟩
  | diagnostic =>
    obtain ⟨m, rest, rfl, hm, hrest, tail, htail, hbegins⟩ := exists_lineMessage rfl h
    exact ⟨_, _, rest, rfl, .diagnostic hm (ne_of_append htail hbegins) hrest⟩
  | exclusion =>
    obtain ⟨_, rfl, rest, rfl⟩ := h
    exact ⟨_, [], rest, rfl, .exclusion⟩

section Follows

variable {α : Type} {read : Reader α} {groups : α → List String} {k : Kind}

theorem Follows.exists_preferred? (h : Follows read groups k) {text rest : List Char} {value : α}
    (hread : read text = some (value, rest)) :
    ∃ whole, text = whole ++ rest ∧
      k.pattern.preferred? text = some ⟨whole, groups value, rest⟩ := by
  obtain ⟨whole, rfl, hdivides⟩ := h.exists_divides hread
  exact ⟨whole, rfl, hdivides.preferred?⟩

theorem Follows.preferred?_eq_none (h : Follows read groups k) {text : List Char}
    (hread : read text = none) : k.pattern.preferred? text = none := by
  rw [Pattern.preferred?_eq_none_iff]
  intro hstarts
  obtain ⟨whole, carried, rest, rfl, hdivides⟩ := exists_divides_of_startsIn hstarts
  obtain ⟨value, hsome, -⟩ := h.exists_read hdivides
  rw [hread] at hsome
  cases hsome

theorem Follows.map_leftmost?_of_read (h : Follows read groups k) {text rest : List Char}
    {value : α} (hread : read text = some (value, rest)) :
    (leftmost? read text).map (fun found ↦ found.whole :: groups found.value) =
      (k.pattern.search? text).map Reading.shown := by
  obtain ⟨whole, htext, hpreferred⟩ := h.exists_preferred? hread
  have hwhole : text.take (text.length - rest.length) = whole := by
    rw [htext, List.length_append, Nat.add_sub_cancel, List.take_left]
  rw [leftmost?.eq_def, hread, Pattern.search?_of_preferred? hpreferred]
  exact congrArg (fun covered ↦ some (String.ofList covered :: groups value)) hwhole

/-- A reader and its pattern find the same in a text. -/
theorem Follows.map_leftmost? (h : Follows read groups k) (text : List Char) :
    (leftmost? read text).map (fun found ↦ found.whole :: groups found.value) =
      (k.pattern.search? text).map Reading.shown := by
  induction text with
  | nil =>
    cases hread : read [] with
    | some found => exact h.map_leftmost?_of_read hread
    | none =>
      rw [leftmost?.eq_def, hread, Pattern.search?_nil, h.preferred?_eq_none hread]
      rfl
  | cons c text ih =>
    cases hread : read (c :: text) with
    | some found => exact h.map_leftmost?_of_read hread
    | none =>
      rw [leftmost?_cons_of_none hread, Pattern.search?_cons, h.preferred?_eq_none hread,
        Option.none_or, ih]

end Follows

namespace Kind

variable {k : Kind} {text front whole rest : List Char} {groups : List String}

/-- What is found in a line is what the pattern of the mark finds in it. -/
theorem search?_eq (k : Kind) (text : String) :
    k.search? text = (k.pattern.search? text.toList).map Reading.shown := by
  cases k with
  | output => exact follows_output.map_leftmost? text.toList
  | error => exact follows_error.map_leftmost? text.toList
  | errorAt => exact follows_errorAt.map_leftmost? text.toList
  | diagnostic => exact follows_diagnostic.map_leftmost? text.toList
  | exclusion => exact follows_exclusion.map_leftmost? text.toList

theorem IsMatch.search?_eq (h : k.IsMatch text front whole groups rest) :
    k.pattern.search? text = some ⟨whole, groups, rest⟩ := by
  cases hsearch : k.pattern.search? text with
  | none =>
    have hnone := Pattern.search?_eq_none_iff.1 hsearch front _ h.isFirstPlace.text_eq
    exact absurd h.divides.startsIn hnone
  | some r =>
    obtain ⟨front', later, hplace, hr⟩ := Pattern.exists_isFirstPlace hsearch
    obtain ⟨-, rfl⟩ := h.isFirstPlace.eq hplace
    rw [← hr, h.divides.preferred?]

theorem exists_isMatch {r : Reading} (h : k.pattern.search? text = some r) :
    ∃ front, k.IsMatch text front r.covered r.groups r.rest := by
  obtain ⟨front, later, hplace, hr⟩ := Pattern.exists_isFirstPlace h
  obtain ⟨whole, groups, rest, rfl, hdivides⟩ := exists_divides_of_startsIn hplace.startsIn
  have hsome := hdivides.preferred?
  rw [hr] at hsome
  cases hsome
  exact ⟨front, hplace, (Pattern.covered_mem_language_of_preferred? hr).1,
    fun word hword hbegins ↦ hdivides.length_le hword hbegins, hdivides⟩

/-- Nothing is found in a text iff no place of it begins a word of the language.  Otherwise the
match is at the first such place, it is the longest one there, and it is divided as the pattern
says: this is the leftmost reading with every choice greedy. -/
theorem search_leftmost_greedy (k : Kind) (text : String) :
    (k.search? text = none ↔
        ∀ front later, text.toList = front ++ later → ¬ k.pattern.StartsIn later) ∧
      (∀ found, k.search? text = some found ↔
        ∃ front whole groups rest, found = String.ofList whole :: groups ∧
          k.IsMatch text.toList front whole groups rest) ∧
      k.search? text = (k.pattern.search? text.toList).map Reading.shown := by
  rw [search?_eq]
  refine ⟨?_, fun found ↦ ⟨fun hfound ↦ ?_, ?_⟩, rfl⟩
  · rw [Option.map_eq_none_iff, Pattern.search?_eq_none_iff]
  · obtain ⟨r, hr, rfl⟩ := Option.map_eq_some_iff.1 hfound
    obtain ⟨front, hmatch⟩ := exists_isMatch hr
    exact ⟨front, r.covered, r.groups, r.rest, rfl, hmatch⟩
  · rintro ⟨front, whole, groups, rest, rfl, hmatch⟩
    rw [hmatch.search?_eq]
    rfl

example : diagnostic.search? "// // [line 1] [line ٢3] Errors: x\ny" =
    some ["[line ٢3] Errors: x", "٢3", "Errors: x"] := by decide +kernel

end Kind

end LoxScan.Suite.Mark
