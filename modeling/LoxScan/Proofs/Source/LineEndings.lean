import LoxScan.Proofs.Source.Outline

/-!
# Line endings

A carriage return in front of a newline is a blank before a blank, and a comment or a string takes
it in as it takes in the newline.  So text whose lines end in a pair of them is scanned like text
whose lines end in newlines only, and the pairs show in the characters of strings alone.
-/

namespace LoxScan

namespace Text

/-- A carriage return in front of every newline. -/
def crlfOf (text : List Char) : List Char :=
  text.flatMap fun c ↦ if c = '\n' then ['\r', '\n'] else [c]

def crlf (text : String) : String := String.ofList (crlfOf text.toList)

theorem crlfOf_newline (rest : List Char) : crlfOf ('\n' :: rest) = '\r' :: '\n' :: crlfOf rest :=
  rfl

theorem crlfOf_cons {c : Char} (hc : c ≠ '\n') (rest : List Char) :
    crlfOf (c :: rest) = c :: crlfOf rest := by
  rw [crlfOf, List.flatMap_cons, if_neg hc]
  rfl

theorem crlfOf_append (text rest : List Char) :
    crlfOf (text ++ rest) = crlfOf text ++ crlfOf rest :=
  List.flatMap_append

theorem crlfOf_of_not_mem {text : List Char} (h : '\n' ∉ text) : crlfOf text = text := by
  induction text with
  | nil => rfl
  | cons c text ih =>
    obtain ⟨hc, htext⟩ := not_or.1 (mt List.mem_cons.2 h)
    rw [crlfOf_cons (Ne.symm hc), ih htext]

theorem mem_of_mem_crlfOf {c : Char} (hc : c ≠ '\r') {text : List Char} (h : c ∈ crlfOf text) :
    c ∈ text := by
  obtain ⟨d, hd, hcd⟩ := List.mem_flatMap.1 h
  split at hcd
  · next heq =>
    have hnewline : c = '\n' := by simpa [hc] using hcd
    rwa [hnewline, ← heq]
  · rwa [List.mem_singleton.1 hcd]

theorem count_crlfOf (text : List Char) : (crlfOf text).count '\n' = text.count '\n' := by
  induction text with
  | nil => rfl
  | cons c text ih =>
    by_cases hc : c = '\n'
    · rw [hc, crlfOf_newline, List.count_cons_of_ne (by decide), List.count_cons_self,
        List.count_cons_self, ih]
    · rw [crlfOf_cons hc, List.count_cons_of_ne hc, List.count_cons_of_ne hc, ih]

end Text

def Literal.crlf : Literal → Literal
  | string text => string (Text.crlf text)
  | number value => number value

/-- The token with paired line endings in its lexeme and in its value, on the same line. -/
def Token.crlf (t : Token) : Token :=
  { t with lexeme := Text.crlf t.lexeme, literal := t.literal.map Literal.crlf }

namespace Grammar

open Text (crlfOf crlfOf_append crlfOf_newline crlfOf_cons crlfOf_of_not_mem count_crlfOf)

def Role.crlf : Role → Role
  | .lexeme kind literal => .lexeme kind (literal.map Literal.crlf)
  | role => role

def Landmark.crlf (m : Landmark) : Landmark :=
  ⟨m.newlines, ⟨m.segment.role.crlf, crlfOf m.segment.text⟩⟩

theorem prefix_front_crlfOf (rest : List Char) : front (crlfOf rest) <+: rest := by
  induction rest with
  | nil => exact List.nil_prefix
  | cons c rest ih =>
    by_cases hc : c = '\n'
    · rw [hc, crlfOf_newline, front_cons_of_blank (by decide)]
      exact List.nil_prefix
    · rw [crlfOf_cons hc]
      exact @prefix_front_append [c] _ _ ih

theorem NeverCloses.crlfOf {body : List Char} (h : NeverCloses body) :
    NeverCloses (Text.crlfOf body) := by
  induction body with
  | nil => exact h
  | cons c body ih =>
    obtain ⟨hc, hbody⟩ := Piece.neverCloses_cons.1 h
    by_cases hnewline : c = '\n'
    · rw [hnewline, crlfOf_newline]
      refine Piece.neverCloses_cons.2 ⟨?_, Piece.neverCloses_cons.2 ⟨?_, ih hbody⟩⟩
      · exact fun h ↦ absurd h.1 (by decide)
      · exact fun h ↦ absurd h.1 (by decide)
    · rw [crlfOf_cons hnewline]
      refine Piece.neverCloses_cons.2 ⟨fun h ↦ hc ⟨h.1, ?_⟩, ih hbody⟩
      exact head?_of_front (prefix_front_crlfOf body) (by decide) h.2

/-- Of all lexemes, only strings reach across lines. -/
theorem Spells.newline_not_mem {kind : Token.Kind} {literal : Option Literal} {text : List Char}
    (h : Spells kind literal text) (hkind : kind ≠ .string) : '\n' ∉ text :=
  fun hmem ↦ h.not_isBlank_of_mem hkind '\n' hmem (by decide)

theorem Spells.map_crlf {kind : Token.Kind} {literal : Option Literal} {text : List Char}
    (h : Spells kind literal text) (hkind : kind ≠ .string) :
    literal.map Literal.crlf = literal := by
  cases h with
  | string hbody => exact absurd rfl hkind
  | _ => rfl

/-- A string takes in the carriage returns, and no other lexeme has any to take in. -/
theorem Spells.crlf {kind : Token.Kind} {literal : Option Literal} {text : List Char}
    (h : Spells kind literal text) :
    Spells kind (literal.map Literal.crlf) (crlfOf text) := by
  by_cases hkind : kind = .string
  · subst hkind
    cases h with
    | @string body hbody =>
      have hvalue : Text.crlf (String.ofList body) = String.ofList (crlfOf body) := by
        rw [Text.crlf, String.toList_ofList]
      have htext : crlfOf ('"' :: body ++ ['"']) = '"' :: crlfOf body ++ ['"'] := by
        rw [crlfOf_append, crlfOf_cons (by decide)]
        rfl
      rw [Option.map_some, Literal.crlf, hvalue, htext]
      exact .string fun hmem ↦ hbody (Text.mem_of_mem_crlfOf (by decide) hmem)
  · rw [crlfOf_of_not_mem (h.newline_not_mem hkind), h.map_crlf hkind]
    exact h

theorem Spells.endsBefore_crlf {kind : Token.Kind} {literal : Option Literal}
    {text rest : List Char} (h : Spells kind literal text) (hends : EndsBefore text rest kind) :
    EndsBefore (crlfOf text) (crlfOf rest) kind := by
  by_cases hkind : kind = .string
  · subst hkind
    trivial
  · rw [crlfOf_of_not_mem (h.newline_not_mem hkind)]
    exact hends.of_front (prefix_front_crlfOf rest)

/-- Blanks and line comments apart, a segment stands as it stood. -/
theorem Stands.crlf {role : Role} {text rest : List Char} (h : Stands role text rest)
    (hblank : role ≠ .blank) (hcomment : role ≠ .lineComment) :
    Stands role.crlf (crlfOf text) (crlfOf rest) := by
  cases h with
  | blank _ => exact absurd rfl hblank
  | lineComment _ _ => exact absurd rfl hcomment
  | @blockComment body _ hbody =>
    have htext : crlfOf ('/' :: '*' :: body ++ ['*', '/']) =
        '/' :: '*' :: crlfOf body ++ ['*', '/'] := by
      rw [crlfOf_append, crlfOf_cons (by decide), crlfOf_cons (by decide)]
      rfl
    rw [htext]
    exact .blockComment hbody.crlfOf
  | lexeme hspells hends => exact .lexeme hspells.crlf (hspells.endsBefore_crlf hends)
  | @unexpected c _ hunclaimed =>
    have hc : '\n' ∉ [c] := by
      rw [List.mem_singleton]
      rintro rfl
      exact hunclaimed.1 (by decide)
    rw [crlfOf_of_not_mem hc]
    exact .unexpected hunclaimed
  | openString hbody =>
    rw [crlfOf_cons (by decide)]
    exact .openString fun hmem ↦ hbody (Text.mem_of_mem_crlfOf (by decide) hmem)
  | openComment hbody =>
    rw [crlfOf_cons (by decide), crlfOf_cons (by decide)]
    exact .openComment hbody.crlfOf

theorem outline_return (newlines : Nat) (rest : List Char) :
    outline newlines ('\r' :: rest) = outline newlines rest := by
  have hstands : Stands .blank ['\r'] rest := .blank (by decide)
  exact outline_of_silent hstands rfl newlines

theorem outline_newline (newlines : Nat) (rest : List Char) :
    outline newlines ('\n' :: rest) = outline (newlines + 1) rest := by
  have hstands : Stands .blank ['\n'] rest := .blank (by decide)
  exact outline_of_silent hstands rfl newlines

theorem outline_crlf_blank {c : Char} (hc : IsBlank c) (rest : List Char) (newlines : Nat) :
    outline newlines (crlfOf [c] ++ crlfOf rest) =
      outline (newlines + [c].count '\n') (crlfOf rest) := by
  by_cases hnewline : c = '\n'
  · rw [hnewline]
    exact (outline_return _ _).trans (outline_newline _ _)
  · rw [crlfOf_of_not_mem (by simpa using Ne.symm hnewline)]
    exact outline_of_silent (.blank hc) rfl newlines

/-- A line comment takes in the carriage return behind it. -/
theorem outline_crlf_lineComment {text rest : List Char} (h : Stands .lineComment text rest)
    (newlines : Nat) :
    outline newlines (crlfOf text ++ crlfOf rest) =
      outline (newlines + text.count '\n') (crlfOf rest) := by
  cases h with
  | @lineComment body _ hbody hrest =>
    have htext : crlfOf ('/' :: '/' :: body) = '/' :: '/' :: body := by
      rw [crlfOf_cons (by decide), crlfOf_cons (by decide), crlfOf_of_not_mem hbody]
    rw [htext]
    cases rest with
    | nil => exact outline_of_silent (.lineComment hbody hrest) rfl newlines
    | cons c rest =>
      obtain rfl : c = '\n' := hrest c rfl
      have hreturn : '\n' ∉ body ++ ['\r'] := by simpa using hbody
      have hstands : Stands .lineComment ('/' :: '/' :: (body ++ ['\r'])) ('\n' :: crlfOf rest) :=
        .lineComment hreturn (by rintro c ⟨⟩; rfl)
      have hcount : ('/' :: '/' :: (body ++ ['\r'])).count '\n' =
          ('/' :: '/' :: body).count '\n' := by
        simp
      rw [crlfOf_newline, outline_return, ← hcount, ← outline_of_silent hstands rfl newlines]
      simp

theorem Stands.outline_crlf {role : Role} {text rest : List Char} (h : Stands role text rest)
    (newlines : Nat) :
    outline newlines (crlfOf text ++ crlfOf rest) =
      (if role.isSilent then [] else [⟨newlines, ⟨role.crlf, crlfOf text⟩⟩]) ++
        outline (newlines + text.count '\n') (crlfOf rest) := by
  by_cases hblank : role = .blank
  · subst hblank
    cases h with
    | blank hc => exact outline_crlf_blank hc rest newlines
  by_cases hcomment : role = .lineComment
  · subst hcomment
    exact outline_crlf_lineComment h newlines
  · have hsilent : role.crlf.isSilent = role.isSilent := by cases role <;> rfl
    rw [outline_of_stands (h.crlf hblank hcomment), hsilent, count_crlfOf]

theorem Segmentation.outline_crlfOf {source : List Char} {cut : List Segment}
    (h : Segmentation source cut) (newlines : Nat) :
    outline newlines (crlfOf source) = (outline newlines source).map Landmark.crlf := by
  induction h generalizing newlines with
  | nil =>
    rw [show crlfOf [] = [] from rfl, outline_nil]
    rfl
  | @cons s rest cut hstands hrest ih =>
    rw [crlfOf_append, hstands.outline_crlf, ih, outline_of_stands hstands, List.map_append]
    congr 1
    split <;> rfl

theorem Landmark.token?_crlf (m : Landmark) : m.crlf.token? = m.token?.map Token.crlf := by
  obtain ⟨newlines, role, text⟩ := m
  cases role with
  | lexeme kind literal =>
    simp [Landmark.crlf, Role.crlf, Landmark.token?, Segment.lexeme?, Token.crlf, Text.crlf,
      count_crlfOf]
  | _ => rfl

theorem Landmark.error?_crlf (m : Landmark) : m.crlf.error? = m.error? := by
  obtain ⟨newlines, role, text⟩ := m
  cases role <;> rfl

/-- With paired line endings a text has the same tokens on the same lines, with paired line
endings in the lexemes and values of its strings, and the same errors. -/
theorem scan_crlf (source : String) :
    (Scan.ofText (Text.crlf source)).tokens = (Scan.ofText source).tokens.map Token.crlf ∧
      (Scan.ofText (Text.crlf source)).errors = (Scan.ofText source).errors := by
  have htext : (Text.crlf source).toList = crlfOf source.toList := String.toList_ofList
  have houtline := (segmentation_segments source.toList).outline_crlfOf 0
  have htoken : Landmark.token? ∘ Landmark.crlf = fun m ↦ m.token?.map Token.crlf :=
    funext Landmark.token?_crlf
  have herror : Landmark.error? ∘ Landmark.crlf = Landmark.error? := funext Landmark.error?_crlf
  constructor
  · rw [tokens_eq_outline, tokens_eq_outline, htext, houtline, count_crlfOf, List.map_append,
      List.filterMap_map, List.map_filterMap, htoken]
    rfl
  · rw [errors_eq_outline, errors_eq_outline, htext, houtline, List.filterMap_map, herror]

end Grammar

end LoxScan
