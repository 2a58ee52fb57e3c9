import Mathlib.Data.List.Infix
import LoxScan.Proofs.Source.Cut
import LoxScan.Suite.Mark

/-!
# The forms of marks

What stands at a place of a text has the form of a mark if it is put together from the fixed words
of the mark, the digits of a line number and a part that runs to the end of the line.  A reader
succeeds on exactly the texts of its form, and what is found in a text is what has the form at the
first place at which anything has it.
-/

namespace LoxScan.Suite.Mark

/-- What follows is behind the end of a line. -/
def EndsLine (rest : List Char) : Prop := ∀ c ∈ rest.head?, c = '\n'

theorem endsLine_nil : EndsLine [] := by simp [EndsLine]

theorem skip_append (word : String) (rest : List Char) :
    skip word (word.toList ++ rest) = some rest := by
  have hprefix : word.toList.isPrefixOf (word.toList ++ rest) :=
    List.isPrefixOf_iff_prefix.2 (List.prefix_append _ _)
  rw [skip, if_pos hprefix, ← String.length_toList, List.drop_left]

theorem skip_eq_none_iff {word : String} {text : List Char} :
    skip word text = none ↔ ¬ word.toList <+: text := by
  rw [skip, ← List.isPrefixOf_iff_prefix]
  split <;> simp_all

theorem skip_eq_some_iff {word : String} {text rest : List Char} :
    skip word text = some rest ↔ text = word.toList ++ rest := by
  constructor
  · intro h
    have hprefix : word.toList <+: text := by
      by_contra hnot
      rw [skip_eq_none_iff.2 hnot] at h
      cases h
    obtain ⟨later, rfl⟩ := hprefix
    rw [skip_append] at h
    rw [Option.some_inj.1 h]
  · rintro rfl
    exact skip_append word rest

theorem not_prefix_of_head? {c : Char} {word : String} (hword : word.toList.head? = some c)
    {text : List Char} (htext : text.head? ≠ some c) : ¬ word.toList <+: text := by
  rintro ⟨later, rfl⟩
  rw [List.head?_append, hword] at htext
  exact htext rfl

theorem readLine_eq_iff {text rest : List Char} {line : String} :
    readLine text = (line, rest) ↔
      text = line.toList ++ rest ∧ '\n' ∉ line.toList ∧ EndsLine rest := by
  constructor
  · intro h
    obtain ⟨rfl, rfl⟩ := Prod.mk.inj h
    rw [String.toList_ofList]
    refine ⟨List.takeWhile_append_dropWhile.symm, fun hmem ↦ ?_, fun c hc ↦ ?_⟩
    · have hne : ('\n' != '\n') = true := List.mem_takeWhile_imp (p := (· != '\n')) hmem
      exact bne_iff_ne.1 hne rfl
    · simpa using Piece.forall_mem_head?_dropWhile (· != '\n') text c hc
  · rintro ⟨rfl, hline, hrest⟩
    have hrun : (line.toList ++ rest).takeWhile (· != '\n') = line.toList ∧
        (line.toList ++ rest).dropWhile (· != '\n') = rest :=
      Piece.takeWhile_run (fun c hc ↦ bne_iff_ne.2 (ne_of_mem_of_not_mem hc hline))
        (fun c hc ↦ by simpa using hrest c hc)
    rw [readLine, hrun.1, hrun.2, String.ofList_toList]

theorem readLine_of_not_mem {text : List Char} (h : '\n' ∉ text) :
    readLine text = (String.ofList text, []) := by
  rw [readLine_eq_iff, String.toList_ofList, List.append_nil]
  exact ⟨rfl, h, endsLine_nil⟩

section Leftmost

variable {α : Type} {read : Reader α} {form : List Char → α → Prop} {text rest : List Char}
  {value : α}

/-- Somewhere in a text there is something of a form. -/
def Occurs (form : List Char → α → Prop) (text : List Char) : Prop :=
  ∃ front later value, text = front ++ later ∧ form later value

/-- The first place of a text with something of a form has it with this value. -/
def OccursFirst (form : List Char → α → Prop) (text : List Char) (value : α) : Prop :=
  ∃ front later, text = front ++ later ∧ form later value ∧
    ∀ other after found, text = other ++ after → form after found → front.length ≤ other.length

/-- A reader succeeds on exactly the texts of a form, with what these carry. -/
def ReadsForm (read : Reader α) (form : List Char → α → Prop) : Prop :=
  ∀ later value, form later value ↔ ∃ rest, read later = some (value, rest)

theorem exists_leftmost?_eq (h : read text = some (value, rest)) :
    ∃ whole, leftmost? read text = some ⟨whole, value⟩ := by
  rw [leftmost?.eq_def, h]
  exact ⟨_, rfl⟩

theorem leftmost?_cons_of_none {c : Char} (h : read (c :: text) = none) :
    leftmost? read (c :: text) = leftmost? read text := by
  rw [leftmost?, h]

theorem leftmost?_eq_none_iff :
    leftmost? read text = none ↔ ∀ later, later <:+ text → read later = none := by
  induction text with
  | nil =>
    rw [leftmost?.eq_def]
    cases hread : read [] <;> simp [hread]
  | cons c text ih =>
    cases hread : read (c :: text) with
    | none =>
      rw [leftmost?_cons_of_none hread, ih]
      simp only [List.suffix_cons_iff, forall_eq_or_imp, hread, true_and]
    | some found =>
      rw [leftmost?.eq_def, hread]
      simp only [reduceCtorEq, false_iff]
      intro hnone
      rw [hnone _ List.suffix_rfl] at hread
      cases hread

/-- A mark with a fixed first character is not found where that character does not occur. -/
theorem leftmost?_eq_none_of_not_mem {c : Char}
    (hread : ∀ later, later.head? ≠ some c → read later = none) (hc : c ∉ text) :
    leftmost? read text = none := by
  refine leftmost?_eq_none_iff.2 fun later hlater ↦ hread later fun hhead ↦ hc ?_
  exact hlater.mem (List.mem_of_mem_head? hhead)

theorem ReadsForm.leftmost?_eq_none_iff (hread : ReadsForm read form) :
    leftmost? read text = none ↔ ¬ Occurs form text := by
  rw [Mark.leftmost?_eq_none_iff]
  constructor
  · rintro hnone ⟨front, later, value, rfl, hform⟩
    obtain ⟨rest, hsome⟩ := (hread later value).1 hform
    rw [hnone later (List.suffix_append front later)] at hsome
    cases hsome
  · rintro hoccurs later ⟨front, rfl⟩
    cases hresult : read later with
    | none => rfl
    | some found =>
      have hform := (hread later found.1).2 ⟨found.2, hresult⟩
      exact absurd ⟨front, later, found.1, rfl, hform⟩ hoccurs

/-- What is found is what has the form first. -/
theorem ReadsForm.occursFirst (hread : ReadsForm read form) {found : Found α}
    (h : leftmost? read text = some found) : OccursFirst form text found.value := by
  induction text with
  | nil =>
    rw [leftmost?.eq_def] at h
    cases hresult : read [] with
    | none =>
      rw [hresult] at h
      cases h
    | some result =>
      rw [hresult] at h
      cases h
      exact ⟨[], [], rfl, (hread _ _).2 ⟨_, hresult⟩, fun _ _ _ _ _ ↦ Nat.zero_le _⟩
  | cons c text ih =>
    cases hresult : read (c :: text) with
    | none =>
      rw [leftmost?_cons_of_none hresult] at h
      obtain ⟨front, later, rfl, hform, hfirst⟩ := ih h
      refine ⟨c :: front, later, rfl, hform, fun other after value hsplit hvalue ↦ ?_⟩
      cases other with
      | nil =>
        rw [List.nil_append] at hsplit
        obtain ⟨rest, hsome⟩ := (hread after value).1 hvalue
        rw [← hsplit, hresult] at hsome
        cases hsome
      | cons d other =>
        obtain ⟨-, hsplit⟩ := List.cons.inj hsplit
        exact Nat.succ_le_succ (hfirst other after value hsplit hvalue)
    | some result =>
      rw [leftmost?.eq_def, hresult] at h
      cases h
      exact ⟨[], c :: text, rfl, (hread _ _).2 ⟨_, hresult⟩, fun _ _ _ _ _ ↦ Nat.zero_le _⟩

theorem OccursFirst.occurs (h : OccursFirst form text value) : Occurs form text := by
  obtain ⟨front, later, htext, hform, -⟩ := h
  exact ⟨front, later, value, htext, hform⟩

/-- A text has one first place, and what stands there carries one value. -/
theorem ReadsForm.eq_of_occursFirst (hread : ReadsForm read form) {other : α}
    (hvalue : OccursFirst form text value) (hother : OccursFirst form text other) :
    other = value := by
  obtain ⟨front, later, htext, hform, hfirst⟩ := hvalue
  obtain ⟨front', later', htext', hform', hfirst'⟩ := hother
  have hlength : front.length = front'.length :=
    Nat.le_antisymm (hfirst _ _ _ htext' hform') (hfirst' _ _ _ htext hform)
  obtain ⟨-, rfl⟩ := List.append_inj (htext.symm.trans htext') hlength
  obtain ⟨rest, hsome⟩ := (hread later value).1 hform
  obtain ⟨rest', hsome'⟩ := (hread later other).1 hform'
  exact congrArg Prod.fst (Option.some_inj.1 (hsome'.symm.trans hsome))

theorem ReadsForm.exists_leftmost?_eq (hread : ReadsForm read form)
    (h : OccursFirst form text value) : ∃ whole, leftmost? read text = some ⟨whole, value⟩ := by
  cases hfound : leftmost? read text with
  | none => exact absurd h.occurs (hread.leftmost?_eq_none_iff.1 hfound)
  | some found =>
    refine ⟨found.whole, ?_⟩
    rw [← hread.eq_of_occursFirst h (hread.occursFirst hfound)]

end Leftmost

/-- A message begins with the word for an error and stays in its line. -/
structure IsMessage (message : String) : Prop where
  word : "Error".toList <+: message.toList
  line : '\n' ∉ message.toList

/-- A message that can be read from what it is displayed as. -/
structure IsReadable (m : LineMessage) : Prop where
  number_ne_nil : m.number.toList ≠ []
  digits : ∀ c ∈ m.number.toList, Text.DecimalDigit.isDecimalDigit c
  message : "Error".toList <+: m.message.toList
  line : '\n' ∉ m.message.toList

theorem isDecimalDigit_of_isDigit {c : Char} (hc : c.isDigit) :
    Text.DecimalDigit.isDecimalDigit c := by
  obtain ⟨hleast, hgreatest⟩ := Char.isDigit_iff_toNat.1 hc
  have hzero : '0'.toNat = 48 := rfl
  have hnine : '9'.toNat = 57 := rfl
  refine List.any_eq_true.2 ⟨48, List.mem_cons_self, ?_⟩
  rw [Bool.and_eq_true, decide_eq_true_iff, decide_eq_true_iff]
  omega

/-- A line number that is written in the usual way is read whatever the message. -/
theorem isReadable_of_isMessage {message : String} (number : Nat) (h : IsMessage message) :
    IsReadable ⟨toString number, message⟩ := by
  have hnumber : (toString number).toList = Nat.toDigits 10 number := Nat.toList_repr
  refine ⟨?_, fun c hc ↦ isDecimalDigit_of_isDigit ?_, h.word, h.line⟩
  · rw [hnumber]
    exact Nat.toDigits_ne_nil
  · rw [hnumber] at hc
    exact Nat.isDigit_of_mem_toDigits (by decide) (by decide) hc

theorem toList_display (m : LineMessage) :
    m.display.toList =
      "[line ".toList ++ (m.number.toList ++ ("] ".toList ++ m.message.toList)) := by
  rw [LineMessage.display, String.toList_append, String.toList_append, String.toList_append,
    List.append_assoc, List.append_assoc]

theorem not_mem_toList_display {c : Char} {m : LineMessage}
    (hwords : c ∉ "[line ".toList ∧ c ∉ "] ".toList) (hnumber : c ∉ m.number.toList)
    (hmessage : c ∉ m.message.toList) : c ∉ m.display.toList := by
  rw [toList_display]
  simp only [List.mem_append, not_or]
  exact ⟨hwords.1, hnumber, hwords.2, hmessage⟩

theorem readMessage_eq_some_iff {text rest : List Char} {message : String} :
    readMessage text = some (message, rest) ↔
      IsMessage message ∧ EndsLine rest ∧ text = message.toList ++ rest := by
  constructor
  · intro h
    obtain ⟨later, hskip, hline⟩ := Option.map_eq_some_iff.1 h
    obtain ⟨htext, hnewline, hrest⟩ := readLine_eq_iff.1 hline
    have hword : ∀ c ∈ "Error".toList, (c != '\n') = true := fun c hc ↦
      bne_iff_ne.2 (ne_of_mem_of_not_mem hc (by decide))
    have hmessage : message.toList = "Error".toList ++ later.takeWhile (· != '\n') := by
      rw [← List.takeWhile_append_of_pos hword, ← skip_eq_some_iff.1 hskip,
        ← (Prod.mk.inj hline).1, String.toList_ofList]
    exact ⟨⟨⟨_, hmessage.symm⟩, hnewline⟩, hrest, htext⟩
  · rintro ⟨⟨⟨later, hlater⟩, hnewline⟩, hrest, rfl⟩
    have hskip : skip "Error" (message.toList ++ rest) = some (later ++ rest) := by
      rw [skip_eq_some_iff, ← hlater, List.append_assoc]
    rw [readMessage, hskip, Option.map_some, readLine_eq_iff.2 ⟨rfl, hnewline, hrest⟩]

theorem readLineMessage_eq_some_iff {text rest : List Char} {m : LineMessage} :
    readLineMessage text = some (m, rest) ↔
      IsReadable m ∧ EndsLine rest ∧ text = m.display.toList ++ rest := by
  constructor
  · intro h
    simp only [readLineMessage, Option.bind_eq_bind, Option.bind_eq_some_iff] at h
    obtain ⟨later, htext, h⟩ := h
    split at h
    · simp at h
    next hnumber =>
    simp only [Option.pure_def, Option.bind_eq_some_iff] at h
    obtain ⟨after, hafter, ⟨message, tail⟩, hmessage, heq⟩ := h
    obtain ⟨rfl, rfl⟩ := Prod.mk.inj (Option.some_inj.1 heq)
    obtain ⟨hreadable, hrest, rfl⟩ := readMessage_eq_some_iff.1 hmessage
    have hlater := List.prefix_iff_eq_append.1
      (List.takeWhile_prefix Text.DecimalDigit.isDecimalDigit (l := later))
    rw [skip_eq_some_iff.1 hafter] at hlater
    refine ⟨⟨?_, ?_, hreadable.word, hreadable.line⟩, hrest, ?_⟩
    · simpa using hnumber
    · rw [String.toList_ofList]
      exact fun c hc ↦ List.mem_takeWhile_imp hc
    · calc
        text = "[line ".toList ++ later := skip_eq_some_iff.1 htext
        _ = "[line ".toList ++ (later.takeWhile Text.DecimalDigit.isDecimalDigit ++
            ("] ".toList ++ (message.toList ++ tail))) := congrArg _ hlater.symm
        _ = _ := by simp only [toList_display, String.toList_ofList, List.append_assoc]
  · rintro ⟨hm, hrest, rfl⟩
    have hbracket : ∀ c ∈ ("] ".toList ++ (m.message.toList ++ rest)).head?,
        Text.DecimalDigit.isDecimalDigit c = false := by
      rintro c ⟨⟩
      decide
    have hnumber := (Piece.takeWhile_run hm.digits hbracket).1
    have hsome : m.number.toList.isEmpty = false := by
      rw [List.isEmpty_eq_false_iff]
      exact hm.number_ne_nil
    have hmessage := readMessage_eq_some_iff.2 ⟨⟨hm.message, hm.line⟩, hrest, rfl⟩
    rw [toList_display, readLineMessage]
    simp only [List.append_assoc, skip_append, Option.bind_eq_bind, Option.bind_some, hnumber,
      hsome, List.drop_left, hmessage, String.ofList_toList]
    rfl

theorem readLineMessage_display {m : LineMessage} (hm : IsReadable m) :
    readLineMessage m.display.toList = some (m, []) :=
  readLineMessage_eq_some_iff.2 ⟨hm, endsLine_nil, (List.append_nil _).symm⟩

/-! ## The forms -/

/-- A text without the space in front of it, if there is one. -/
def withoutSpace : List Char → List Char
  | ' ' :: text => text
  | text => text

def OutputForm (later : List Char) (text : String) : Prop :=
  ∃ shown rest, '\n' ∉ shown ∧ EndsLine rest ∧
    later = "// expect:".toList ++ (shown ++ rest) ∧ text = String.ofList (withoutSpace shown)

def ErrorForm (later : List Char) (message : String) : Prop :=
  ∃ rest, IsMessage message ∧ EndsLine rest ∧ later = "// ".toList ++ (message.toList ++ rest)

def ErrorAtForm (later : List Char) (m : LineMessage) : Prop :=
  ∃ rest, IsReadable m ∧ EndsLine rest ∧ later = "// ".toList ++ (m.display.toList ++ rest)

def DiagnosticForm (later : List Char) (m : LineMessage) : Prop :=
  ∃ rest, IsReadable m ∧ m.message ≠ "Error" ∧ EndsLine rest ∧ later = m.display.toList ++ rest

theorem withoutSpace_suffix (text : List Char) : withoutSpace text <:+ text := by
  fun_cases withoutSpace text with
  | case1 text => exact List.suffix_cons ' ' text
  | case2 text => exact List.suffix_rfl

theorem getD_skip_space {shown rest : List Char} (hrest : EndsLine rest) :
    (skip " " (shown ++ rest)).getD (shown ++ rest) = withoutSpace shown ++ rest := by
  by_cases hspace : shown.head? = some ' '
  · obtain ⟨text, rfl⟩ := List.head?_eq_some_iff.1 hspace
    have hskip : skip " " (' ' :: text ++ rest) = some (text ++ rest) := skip_eq_some_iff.2 rfl
    rw [hskip, Option.getD_some, withoutSpace]
  · have hhead : (shown ++ rest).head? ≠ some ' ' := by
      cases shown with
      | nil => exact fun h ↦ absurd (hrest ' ' h) (by decide)
      | cons c text => exact hspace
    have hskip : skip " " (shown ++ rest) = none :=
      skip_eq_none_iff.2 (not_prefix_of_head? rfl hhead)
    have hwithout : withoutSpace shown = shown := by
      fun_cases withoutSpace shown with
      | case1 text => exact absurd rfl hspace
      | case2 => rfl
    rw [hskip, Option.getD_none, hwithout]

theorem readsForm_output : ReadsForm readOutput OutputForm := by
  have hread {shown rest : List Char} (hshown : '\n' ∉ shown) (hrest : EndsLine rest) :
      readLine ((skip " " (shown ++ rest)).getD (shown ++ rest)) =
        (String.ofList (withoutSpace shown), rest) := by
    rw [getD_skip_space hrest, readLine_eq_iff, String.toList_ofList]
    exact ⟨rfl, fun hmem ↦ hshown ((withoutSpace_suffix shown).mem hmem), hrest⟩
  intro later text
  constructor
  · rintro ⟨shown, rest, hshown, hrest, rfl, rfl⟩
    refine ⟨rest, ?_⟩
    rw [readOutput, skip_append, Option.map_some, hread hshown hrest]
  · rintro ⟨rest, h⟩
    obtain ⟨after, hafter, hline⟩ := Option.map_eq_some_iff.1 h
    rcases hsplit : readLine after with ⟨shown, tail⟩
    obtain ⟨rfl, hshown, htail⟩ := readLine_eq_iff.1 hsplit
    rw [hread hshown htail] at hline
    exact ⟨shown.toList, tail, hshown, htail, skip_eq_some_iff.1 hafter,
      (Prod.mk.inj hline).1.symm⟩

theorem readsForm_error : ReadsForm readError ErrorForm := by
  intro later message
  simp only [readError, ErrorForm, Option.bind_eq_some_iff, skip_eq_some_iff,
    readMessage_eq_some_iff]
  refine exists_congr fun rest ↦ ?_
  constructor
  · rintro ⟨hmessage, hrest, hlater⟩
    exact ⟨_, hlater, hmessage, hrest, rfl⟩
  · rintro ⟨_, hlater, hmessage, hrest, rfl⟩
    exact ⟨hmessage, hrest, hlater⟩

theorem readsForm_errorAt : ReadsForm readErrorAt ErrorAtForm := by
  intro later m
  simp only [readErrorAt, ErrorAtForm, Option.bind_eq_some_iff, skip_eq_some_iff,
    readLineMessage_eq_some_iff]
  refine exists_congr fun rest ↦ ?_
  constructor
  · rintro ⟨hm, hrest, hlater⟩
    exact ⟨_, hlater, hm, hrest, rfl⟩
  · rintro ⟨_, hlater, hm, hrest, rfl⟩
    exact ⟨hm, hrest, hlater⟩

theorem readsForm_diagnostic : ReadsForm readDiagnostic DiagnosticForm := by
  intro later m
  refine exists_congr fun rest ↦ ?_
  rw [readDiagnostic, Option.filter_eq_some_iff, readLineMessage_eq_some_iff, bne_iff_ne]
  tauto

end LoxScan.Suite.Mark
