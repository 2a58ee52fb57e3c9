import Mathlib.Data.List.TakeWhile
import LoxScan.Proofs.Source.Grammar

/-!
# Where a cut falls

One law for each class of text says where the first piece of a text ends: a comment or a string at
the first mark that closes it, a run of digits or word characters where its class ends, an operator
behind the `=` that extends it.  The classes are those of the grammar, and no law asks for more
than the piece and the characters that directly follow it.
-/

namespace LoxScan

open Grammar Number

namespace Piece

theorem isBlank_iff {c : Char} : isBlank c = true ↔ IsBlank c := by
  simp [isBlank, IsBlank, or_assoc]

theorem isDigit_eq (c : Char) : isDigit c = c.isDigit := by
  simp [isDigit, Char.isDigit, Char.le_def]

theorem isWordStart_iff {c : Char} : isWordStart c = true ↔ IsWordStart c := by
  simp [isWordStart, IsWordStart, IsLetter]

theorem isWordCharacter_iff {c : Char} : isWordCharacter c = true ↔ IsWordCharacter c := by
  simp [isWordCharacter, isWordStart_iff, IsWordCharacter, isDigit_eq]

theorem cut_blank {c : Char} (hc : IsBlank c) (rest : List Char) :
    cut c rest = (blank c, rest) := by
  unfold cut
  rw [if_pos (isBlank_iff.2 hc)]

theorem cut_slash (rest : List Char) : cut '/' rest = cutSlash rest := rfl

theorem cut_quote (rest : List Char) : cut '"' rest = cutString rest := rfl

theorem cut_digit {c : Char} (hc : c.isDigit) (rest : List Char) :
    cut c rest = cutNumber (c :: rest) := by
  unfold cut
  rw [if_neg (isBlank_iff.not.2 (not_isBlank_of_isDigit hc)),
    if_neg (ne_of_class (p := fun d ↦ d.isDigit) hc (by decide)),
    if_neg (ne_of_class (p := fun d ↦ d.isDigit) hc (by decide)), if_pos (isDigit_eq c ▸ hc)]

theorem cut_wordStart {c : Char} (hc : IsWordStart c) (rest : List Char) :
    cut c rest = (word (c :: rest.takeWhile isWordCharacter), rest.dropWhile isWordCharacter) := by
  unfold cut
  rw [if_neg (isBlank_iff.not.2 (not_isBlank_of_isWordStart hc)),
    if_neg (ne_of_class hc (by decide)), if_neg (ne_of_class hc (by decide)),
    if_neg (isDigit_eq c ▸ not_isDigit_of_isWordStart hc), if_pos (isWordStart_iff.2 hc)]

/-- A run ends where its class does. -/
theorem takeWhile_run {p : Char → Bool} {run rest : List Char} (hrun : ∀ c ∈ run, p c)
    (hrest : ∀ c ∈ rest.head?, p c = false) :
    (run ++ rest).takeWhile p = run ∧ (run ++ rest).dropWhile p = rest := by
  rw [List.takeWhile_append_of_pos hrun, List.dropWhile_append_of_pos hrun]
  cases rest with
  | nil => simp
  | cons c rest =>
    have hc : p c = false := hrest c rfl
    simp [hc]

theorem forall_mem_head?_dropWhile (p : Char → Bool) (l : List Char) :
    ∀ c ∈ (l.dropWhile p).head?, p c = false := by
  intro c hc
  have h := List.head?_dropWhile_not p l
  rwa [Option.mem_def.1 hc] at h

theorem neverCloses_cons {c : Char} {body : List Char} :
    NeverCloses (c :: body) ↔ ¬ (c = '*' ∧ body.head? = some '/') ∧ NeverCloses body := by
  have hhead : ['/'] <+: body ↔ body.head? = some '/' := by
    cases body with
    | nil => simp
    | cons d body => simp [eq_comm]
  unfold NeverCloses
  rw [List.infix_cons_iff, not_or, List.cons_prefix_cons, hhead, eq_comm]

theorem untilCommentEnd?_cons {c : Char} {rest : List Char}
    (h : ¬ (c = '*' ∧ rest.head? = some '/')) :
    untilCommentEnd? (c :: rest) =
      (untilCommentEnd? rest).map fun (body, after) ↦ (c :: body, after) := by
  rw [untilCommentEnd?]
  rintro tail hc rfl
  exact h ⟨hc, rfl⟩

theorem untilCommentEnd?_of_neverCloses {body : List Char} (hbody : NeverCloses body)
    (rest : List Char) : untilCommentEnd? (body ++ '*' :: '/' :: rest) = some (body, rest) := by
  induction body with
  | nil => rw [List.nil_append, untilCommentEnd?]
  | cons c body ih =>
    obtain ⟨hc, hbody⟩ := neverCloses_cons.1 hbody
    have hhead : ¬ (c = '*' ∧ (body ++ '*' :: '/' :: rest).head? = some '/') := by
      cases body with
      | nil => simp
      | cons d body => simpa using hc
    rw [List.cons_append, untilCommentEnd?_cons hhead, ih hbody]
    rfl

theorem untilCommentEnd?_eq_none_iff {cs : List Char} :
    untilCommentEnd? cs = none ↔ NeverCloses cs := by
  induction cs with
  | nil => simp [untilCommentEnd?, NeverCloses]
  | cons c rest ih =>
    by_cases hc : c = '*' ∧ rest.head? = some '/'
    · obtain ⟨rfl, hrest⟩ := hc
      obtain ⟨tail, rfl⟩ := List.head?_eq_some_iff.1 hrest
      simp [untilCommentEnd?, neverCloses_cons]
    · rw [untilCommentEnd?_cons hc, Option.map_eq_none_iff, ih, neverCloses_cons,
        and_iff_right hc]

theorem neverCloses_of_untilCommentEnd? {cs body after : List Char}
    (h : untilCommentEnd? cs = some (body, after)) : NeverCloses body := by
  fun_induction untilCommentEnd? cs generalizing body after with
  | case1 rest =>
    obtain ⟨rfl, rfl⟩ : [] = body ∧ rest = after := by simpa using h
    simp [NeverCloses]
  | case2 => simp at h
  | case3 c rest hopen ih =>
    obtain ⟨⟨inner, tail⟩, hinner, heq⟩ := Option.map_eq_some_iff.1 h
    obtain ⟨rfl, rfl⟩ : c :: inner = body ∧ tail = after := by simpa using heq
    refine neverCloses_cons.2 ⟨?_, ih hinner⟩
    rintro ⟨rfl, hhead⟩
    obtain ⟨further, rfl⟩ := List.head?_eq_some_iff.1 hhead
    exact hopen _ rfl (untilCommentEnd?_append hinner).symm

theorem cutSlash_lineComment {body rest : List Char} (hbody : '\n' ∉ body)
    (hrest : ∀ c ∈ rest.head?, c = '\n') :
    cutSlash ('/' :: body ++ rest) = (lineComment body, rest) := by
  have hrun : (body ++ rest).takeWhile (· != '\n') = body ∧
      (body ++ rest).dropWhile (· != '\n') = rest :=
    takeWhile_run (fun c hc ↦ by simpa using ne_of_mem_of_not_mem hc hbody)
      (fun c hc ↦ by simpa using hrest c hc)
  rw [List.cons_append, cutSlash, hrun.1, hrun.2]

theorem cutSlash_blockComment {body : List Char} (hbody : NeverCloses body) (rest : List Char) :
    cutSlash ('*' :: body ++ '*' :: '/' :: rest) = (blockComment body, rest) := by
  rw [List.cons_append, cutSlash, untilCommentEnd?_of_neverCloses hbody]

theorem cutSlash_openComment {body : List Char} (hbody : NeverCloses body) :
    cutSlash ('*' :: body) = (openComment body, []) := by
  rw [cutSlash, untilCommentEnd?_eq_none_iff.2 hbody]

theorem cutSlash_slash {rest : List Char} (hslash : rest.head? ≠ some '/')
    (hstar : rest.head? ≠ some '*') : cutSlash rest = (punctuator .slash, rest) := by
  rw [cutSlash]
  · rintro tail rfl
    exact hslash rfl
  · rintro tail rfl
    exact hstar rfl

theorem cutString_string {body : List Char} (hbody : '"' ∉ body) (rest : List Char) :
    cutString (body ++ '"' :: rest) = (string body, rest) := by
  have hrun : (body ++ '"' :: rest).takeWhile (· != '"') = body ∧
      (body ++ '"' :: rest).dropWhile (· != '"') = '"' :: rest :=
    takeWhile_run (fun c hc ↦ by simpa using ne_of_mem_of_not_mem hc hbody) (by simp)
  rw [cutString, hrun.2, hrun.1]

theorem cutString_openString {body : List Char} (hbody : '"' ∉ body) :
    cutString body = (openString body, []) := by
  have hnil : body.dropWhile (· != '"') = [] :=
    List.dropWhile_eq_nil_iff.2 fun c hc ↦ by simpa using ne_of_mem_of_not_mem hc hbody
  rw [cutString, hnil]

theorem isDigitRun_iff {run : List Char} : IsDigitRun run ↔ run ≠ [] ∧ ∀ c ∈ run, isDigit c := by
  simp only [IsDigitRun, isDigit_eq]

theorem cutNumber_integer {whole rest : List Char} (hwhole : IsDigitRun whole)
    (hrest : ∀ c ∈ rest.head?, ¬ c.isDigit)
    (hpoint : ∀ d tail, rest = '.' :: d :: tail → ¬ d.isDigit) :
    cutNumber (whole ++ rest) = (number ⟨whole, none⟩, rest) := by
  have hrun := takeWhile_run (p := isDigit) (isDigitRun_iff.1 hwhole).2
    (fun c hc ↦ by simpa [isDigit_eq] using hrest c hc)
  unfold cutNumber
  simp only [hrun.1, hrun.2]
  split
  · next d tail =>
    rw [isDigit_eq, if_neg (hpoint d tail rfl)]
  · rfl

theorem cutNumber_decimal {whole fraction rest : List Char} (hwhole : IsDigitRun whole)
    (hfraction : IsDigitRun fraction) (hrest : ∀ c ∈ rest.head?, ¬ c.isDigit) :
    cutNumber (whole ++ '.' :: fraction ++ rest) = (number ⟨whole, some fraction⟩, rest) := by
  have hrun : (whole ++ '.' :: (fraction ++ rest)).takeWhile isDigit = whole ∧
      (whole ++ '.' :: (fraction ++ rest)).dropWhile isDigit = '.' :: (fraction ++ rest) :=
    takeWhile_run (isDigitRun_iff.1 hwhole).2 (by simp [isDigit_eq])
  have hdigits := takeWhile_run (p := isDigit) (isDigitRun_iff.1 hfraction).2
    (fun c hc ↦ by simpa [isDigit_eq] using hrest c hc)
  obtain ⟨d, tail, rfl⟩ := List.exists_cons_of_ne_nil hfraction.1
  have hd : isDigit d := isDigit_eq d ▸ hfraction.2 d List.mem_cons_self
  rw [List.append_assoc, List.cons_append]
  unfold cutNumber
  simp only [hrun.1, hrun.2]
  rw [List.cons_append] at hdigits ⊢
  simp only [if_pos hd, hdigits.1, hdigits.2]

theorem cut_word {c : Char} {name rest : List Char} (hc : IsWordStart c)
    (hname : ∀ x ∈ name, IsWordCharacter x) (hrest : ∀ x ∈ rest.head?, ¬ IsWordCharacter x) :
    cut c (name ++ rest) = (word (c :: name), rest) := by
  have hrun := takeWhile_run (p := isWordCharacter) (fun x hx ↦ isWordCharacter_iff.2 (hname x hx))
    (fun x hx ↦ Bool.eq_false_iff.2 (isWordCharacter_iff.not.2 (hrest x hx)))
  rw [cut_wordStart hc, hrun.1, hrun.2]

theorem cut_plain {c : Char} {plain extended : Token.Punctuator} {rest : List Char}
    (h : extensible? c = some (plain, extended)) (hrest : rest.head? ≠ some '=') :
    cut c rest = (punctuator plain, rest) := by
  have hclass : (¬ isBlank c ∧ c ≠ '/' ∧ c ≠ '"') ∧ ¬ isDigit c ∧ ¬ isWordStart c ∧
      single? c = none := by
    unfold extensible? at h
    split at h <;> cases h <;> decide
  obtain ⟨⟨hblank, hslash, hquote⟩, hdigit, hword, hsingle⟩ := hclass
  unfold cut
  rw [if_neg hblank, if_neg hslash, if_neg hquote, if_neg hdigit, if_neg hword, hsingle, h]
  split
  · contradiction
  · exact absurd rfl hrest
  · next hpair _ => cases hpair; rfl
  · contradiction

theorem cut_punctuator {p : Token.Punctuator} {c : Char} {tail rest : List Char}
    (hp : p.spelling = c :: tail) (hrest : EndsBefore p.spelling rest (.punctuator p)) :
    cut c (tail ++ rest) = (punctuator p, rest) := by
  cases p with
  | slash =>
    obtain ⟨rfl, rfl⟩ : '/' = c ∧ [] = tail := by simpa [Token.Punctuator.spelling] using hp
    exact (cut_slash _).trans (cutSlash_slash hrest.1 hrest.2)
  | bang | equal | greater | less =>
    cases hp
    exact cut_plain rfl hrest
  | _ =>
    cases hp
    rfl

theorem cut_stray {c : Char} (hc : IsUnclaimed c) (rest : List Char) :
    cut c rest = (stray c, rest) := by
  obtain ⟨hblank, hquote, hdigit, hword, hpunctuator⟩ := hc
  have hslash : c ≠ '/' := fun h ↦ hpunctuator .slash (by rw [h]; rfl)
  have hsingle : single? c = none := Option.eq_none_iff_forall_ne_some.2 fun p h ↦
    hpunctuator p (by rw [spelling_of_single? h]; rfl)
  have hextensible : extensible? c = none := Option.eq_none_iff_forall_ne_some.2 fun pair h ↦
    hpunctuator pair.1 (by rw [(spelling_of_extensible? h).1]; rfl)
  unfold cut
  rw [if_neg (isBlank_iff.not.2 hblank), if_neg hslash, if_neg hquote,
    if_neg (isDigit_eq c ▸ hdigit), if_neg (isWordStart_iff.not.2 hword), hsingle, hextensible]

end Piece

end LoxScan
