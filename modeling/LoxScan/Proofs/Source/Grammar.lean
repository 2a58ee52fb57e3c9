import LoxScan.Source.Scan

/-!
# The lexical grammar

Source text is a row of segments.  A segment has a role, which says what a scan makes of it, and
whether a stretch of text can play that role depends on the stretch itself and on what directly
follows it, never on what stands before.  Nothing here refers to how text is cut: lexemes are the
spellings of their kind, and a segment stands where its spelling ends.
-/

namespace LoxScan.Grammar

open Number (Numeral)

def IsBlank (c : Char) : Prop := c ∈ [' ', '\r', '\t', '\n']

def IsLetter (c : Char) : Prop := ('a' ≤ c ∧ c ≤ 'z') ∨ ('A' ≤ c ∧ c ≤ 'Z')

def IsWordStart (c : Char) : Prop := IsLetter c ∨ c = '_'

def IsWordCharacter (c : Char) : Prop := IsWordStart c ∨ c.isDigit

instance : DecidablePred IsBlank := fun c ↦
  inferInstanceAs (Decidable (c ∈ [' ', '\r', '\t', '\n']))

instance : DecidablePred IsLetter := fun _ ↦ inferInstanceAs (Decidable (_ ∨ _))

instance : DecidablePred IsWordStart := fun c ↦ inferInstanceAs (Decidable (IsLetter c ∨ _))

instance : DecidablePred IsWordCharacter := fun c ↦ inferInstanceAs (Decidable (IsWordStart c ∨ _))

/-- A character outside a class differs from those in it. -/
theorem ne_of_class {p : Char → Prop} {c d : Char} (hc : p c) (hd : ¬ p d) : c ≠ d := by
  rintro rfl
  exact hd hc

theorem not_isBlank_of_class {p : Char → Prop} {c : Char} (hc : p c)
    (hp : ¬ p ' ' ∧ ¬ p '\r' ∧ ¬ p '\t' ∧ ¬ p '\n') : ¬ IsBlank c := by
  intro hblank
  simp only [IsBlank, List.mem_cons, List.not_mem_nil, or_false] at hblank
  rcases hblank with rfl | rfl | rfl | rfl
  · exact hp.1 hc
  · exact hp.2.1 hc
  · exact hp.2.2.1 hc
  · exact hp.2.2.2 hc

theorem not_isBlank_of_isDigit {c : Char} (hc : c.isDigit) : ¬ IsBlank c :=
  not_isBlank_of_class (p := fun d ↦ d.isDigit) hc (by decide)

theorem not_isBlank_of_isWordStart {c : Char} (hc : IsWordStart c) : ¬ IsBlank c :=
  not_isBlank_of_class hc (by decide)

theorem not_isBlank_of_isWordCharacter {c : Char} (hc : IsWordCharacter c) : ¬ IsBlank c :=
  not_isBlank_of_class hc (by decide)

theorem not_isDigit_of_isWordStart {c : Char} (hc : IsWordStart c) : ¬ c.isDigit := by
  rcases hc with hc | rfl
  · intro hdigit
    have hnine := (Char.isDigit_iff_toNat.1 hdigit).2
    simp only [IsLetter, Char.le_def, UInt32.le_iff_toNat_le, Char.toNat] at hc hnine
    have hdigits : '9'.val.toNat = 57 := rfl
    have hupper : 'A'.val.toNat = 65 := rfl
    have hlower : 'a'.val.toNat = 97 := rfl
    omega
  · decide

def IsDigitRun (digits : List Char) : Prop := digits ≠ [] ∧ ∀ c ∈ digits, c.isDigit

/-- The kinds of lexeme with their values and spellings.  A name that is spelled like a keyword is
that keyword. -/
inductive Spells : Token.Kind → Option Literal → List Char → Prop where
  | punctuator (p : Token.Punctuator) : Spells (.punctuator p) none p.spelling
  | keyword (k : Token.Keyword) : Spells (.keyword k) none k.spelling.toList
  | identifier {c : Char} {name : List Char} (hstart : IsWordStart c)
      (hname : ∀ x ∈ name, IsWordCharacter x)
      (hkeyword : ∀ k : Token.Keyword, k.spelling.toList ≠ c :: name) :
      Spells .identifier none (c :: name)
  | integer {whole : List Char} (hwhole : IsDigitRun whole) :
      Spells .number (some (.number (Numeral.value ⟨whole, none⟩))) whole
  | decimal {whole fraction : List Char} (hwhole : IsDigitRun whole)
      (hfraction : IsDigitRun fraction) :
      Spells .number (some (.number (Numeral.value ⟨whole, some fraction⟩)))
        (whole ++ '.' :: fraction)
  | string {body : List Char} (hbody : '"' ∉ body) :
      Spells .string (some (.string (String.ofList body))) ('"' :: body ++ ['"'])

/-- What may directly follow a lexeme, since anything else would be part of it. -/
def EndsBefore (lexeme rest : List Char) : Token.Kind → Prop
  | .punctuator .slash => rest.head? ≠ some '/' ∧ rest.head? ≠ some '*'
  | .punctuator .bang | .punctuator .equal | .punctuator .greater | .punctuator .less =>
    rest.head? ≠ some '='
  | .keyword _ | .identifier => ∀ c ∈ rest.head?, ¬ IsWordCharacter c
  | .number =>
    (∀ c ∈ rest.head?, ¬ c.isDigit) ∧
      ('.' ∉ lexeme → ∀ d tail, rest = '.' :: d :: tail → ¬ d.isDigit)
  | _ => True

theorem endsBefore_nil (lexeme : List Char) (kind : Token.Kind) : EndsBefore lexeme [] kind := by
  cases kind with
  | punctuator p => cases p <;> simp [EndsBefore]
  | _ => simp [EndsBefore]

/-- The characters before the first blank.  No lexeme looks further ahead than these. -/
def front (rest : List Char) : List Char := rest.takeWhile fun c ↦ ¬ IsBlank c

theorem front_cons_of_blank {c : Char} (hc : IsBlank c) (rest : List Char) :
    front (c :: rest) = [] := by
  simp [front, hc]

theorem front_cons_of_not_blank {c : Char} (hc : ¬ IsBlank c) (rest : List Char) :
    front (c :: rest) = c :: front rest := by
  simp [front, hc]

theorem prefix_front_append {text rest later : List Char} (h : front later <+: rest) :
    front (text ++ later) <+: text ++ rest := by
  induction text with
  | nil => exact h
  | cons c text ih =>
    by_cases hc : IsBlank c
    · rw [List.cons_append, front_cons_of_blank hc]
      exact List.nil_prefix
    · rw [List.cons_append, front_cons_of_not_blank hc, List.cons_append, List.cons_prefix_cons]
      exact ⟨rfl, ih⟩

theorem head?_of_front {rest later : List Char} (h : front later <+: rest) {c : Char}
    (hc : ¬ IsBlank c) (hhead : later.head? = some c) : rest.head? = some c := by
  obtain ⟨tail, rfl⟩ := List.head?_eq_some_iff.1 hhead
  rw [front_cons_of_not_blank hc] at h
  obtain ⟨further, rfl⟩ := h
  rfl

/-- A lexeme that ends before a text ends before every other one that shows no more than a
beginning of it. -/
theorem EndsBefore.of_front {lexeme rest later : List Char} {kind : Token.Kind}
    (h : EndsBefore lexeme rest kind) (hfront : front later <+: rest) :
    EndsBefore lexeme later kind := by
  cases kind with
  | punctuator p =>
    cases p with
    | slash =>
      exact ⟨mt (head?_of_front hfront (by decide)) h.1,
        mt (head?_of_front hfront (by decide)) h.2⟩
    | bang | equal | greater | less => exact mt (head?_of_front hfront (by decide)) h
    | _ => trivial
  | keyword _ | identifier =>
    exact fun c hc hword ↦
      h c (head?_of_front hfront (not_isBlank_of_isWordCharacter hword) hc) hword
  | number =>
    refine ⟨fun c hc hdigit ↦
      h.1 c (head?_of_front hfront (not_isBlank_of_isDigit hdigit) hc) hdigit, ?_⟩
    rintro hpoint d tail rfl hdigit
    rw [front_cons_of_not_blank (by decide),
      front_cons_of_not_blank (not_isBlank_of_isDigit hdigit)] at hfront
    obtain ⟨further, rfl⟩ := hfront
    exact h.2 hpoint d _ rfl hdigit
  | string => trivial
  | endOfText => trivial

/-- A blank ends a lexeme no later than the end of the text does. -/
theorem EndsBefore.append_blank {lexeme rest tail : List Char} {kind : Token.Kind}
    (h : EndsBefore lexeme rest kind) (htail : ∀ c ∈ tail.head?, IsBlank c) :
    EndsBefore lexeme (rest ++ tail) kind := by
  have hfront : front tail = [] := by
    cases tail with
    | nil => rfl
    | cons c tail => exact front_cons_of_blank (htail c rfl) tail
  have hshown : front (rest ++ tail) <+: rest ++ [] :=
    prefix_front_append (hfront ▸ List.nil_prefix)
  rw [List.append_nil] at hshown
  exact h.of_front hshown

/-- No other segment begins with such a character. -/
def IsUnclaimed (c : Char) : Prop :=
  ¬ IsBlank c ∧ c ≠ '"' ∧ ¬ c.isDigit ∧ ¬ IsWordStart c ∧
    ∀ p : Token.Punctuator, p.spelling.head? ≠ some c

/-- A comment with such a body is closed by the `*/` behind it and by no earlier one. -/
def NeverCloses (body : List Char) : Prop := ¬ ['*', '/'] <:+: body

inductive Role where
  | blank
  | lineComment
  | blockComment
  | lexeme (kind : Token.Kind) (literal : Option Literal)
  | fault (cause : LexicalError.Cause)
deriving DecidableEq

/-- `Stands role text rest` says that a text plays a role where the source goes on with `rest`. -/
inductive Stands : Role → List Char → List Char → Prop where
  | blank {c : Char} {rest : List Char} (hblank : IsBlank c) : Stands .blank [c] rest
  | lineComment {body rest : List Char} (hbody : '\n' ∉ body)
      (hrest : ∀ c ∈ rest.head?, c = '\n') : Stands .lineComment ('/' :: '/' :: body) rest
  | blockComment {body rest : List Char} (hbody : NeverCloses body) :
      Stands .blockComment ('/' :: '*' :: body ++ ['*', '/']) rest
  | lexeme {kind : Token.Kind} {literal : Option Literal} {text rest : List Char}
      (hspells : Spells kind literal text) (hends : EndsBefore text rest kind) :
      Stands (.lexeme kind literal) text rest
  | unexpected {c : Char} {rest : List Char} (hunclaimed : IsUnclaimed c) :
      Stands (.fault .unexpectedCharacter) [c] rest
  | openString {body : List Char} (hbody : '"' ∉ body) :
      Stands (.fault .unterminatedString) ('"' :: body) []
  | openComment {body : List Char} (hbody : NeverCloses body) :
      Stands (.fault .unterminatedComment) ('/' :: '*' :: body) []

structure Segment where
  role : Role
  text : List Char
deriving DecidableEq

/-- The ways to cut a text into segments from left to right. -/
inductive Segmentation : List Char → List Segment → Prop where
  | nil : Segmentation [] []
  | cons {s : Segment} {rest : List Char} {segments : List Segment}
      (hstands : Stands s.role s.text rest) (hrest : Segmentation rest segments) :
      Segmentation (s.text ++ rest) (s :: segments)

theorem Spells.text_ne_nil {kind : Token.Kind} {literal : Option Literal} {text : List Char}
    (h : Spells kind literal text) : text ≠ [] := by
  cases h with
  | punctuator p => cases p <;> simp [Token.Punctuator.spelling]
  | keyword k => cases k <;> decide
  | identifier hstart hname hkeyword => simp
  | integer hwhole => exact hwhole.1
  | decimal hwhole hfraction => simp
  | string hbody => simp

theorem Stands.text_ne_nil {role : Role} {text rest : List Char} (h : Stands role text rest) :
    text ≠ [] := by
  cases h with
  | lexeme hspells hends => exact hspells.text_ne_nil
  | _ => simp

/-- A segmentation leaves nothing out. -/
theorem Segmentation.flatMap_text {source : List Char} {segments : List Segment}
    (h : Segmentation source segments) : segments.flatMap Segment.text = source := by
  induction h with
  | nil => rfl
  | cons hstands hrest ih => rw [List.flatMap_cons, ih]

theorem Segmentation.text_ne_nil {source : List Char} {segments : List Segment}
    (h : Segmentation source segments) : ∀ s ∈ segments, s.text ≠ [] := by
  induction h with
  | nil => simp
  | cons hstands hrest ih =>
    rw [List.forall_mem_cons]
    exact ⟨hstands.text_ne_nil, ih⟩

end LoxScan.Grammar
