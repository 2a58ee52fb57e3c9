import Mathlib.Logic.Function.Iterate
import LoxScan.Suite.Run

/-!
# Terminals

A terminal of unbounded width shows lines and has a cursor in one of them.  A few characters are
obeyed: the line feed, the carriage return, and control sequences that move the cursor up or down or
erase its line.  All other control sequences, the colours among them, change nothing, and any other
character, even a tab, takes one column at the cursor.

A line that the cursor stays below is not touched any more, so what has been shown above it is kept.
-/

namespace LoxScan.Suite

/-- What the next character is taken for: as one to be shown, as the one behind the escape
character, or as a part of a control sequence whose parameters have been read so far. -/
inductive Terminal.Reading where
  | text
  | escape
  | sequence (parameters : List Char)
deriving DecidableEq, Repr

/-- The lines of a terminal as they are seen from its cursor.  Those above it are listed upwards and
those below it downwards. -/
structure Terminal where
  above : List String
  row : String
  column : Nat
  below : List String
  reading : Terminal.Reading
deriving DecidableEq, Repr

namespace Terminal

/-- A line with a character in a column, which is reached with blanks if the line is too short. -/
def overwrite (row : String) (column : Nat) (c : Char) : String :=
  String.ofList (row.toList.take column ++ List.replicate (column - row.length) ' ' ++
    c :: row.toList.drop (column + 1))

def put (t : Terminal) (c : Char) : Terminal :=
  { t with row := overwrite t.row t.column c, column := t.column + 1 }

/-- The beginning of the next line, which is a new one at the end of the screen. -/
def lineFeed (t : Terminal) : Terminal :=
  match t.below with
  | [] => { t with above := t.row :: t.above, row := "", column := 0 }
  | next :: rest => { t with above := t.row :: t.above, row := next, column := 0, below := rest }

def up (t : Terminal) : Terminal :=
  match t.above with
  | [] => t
  | next :: rest => { t with above := rest, row := next, below := t.row :: t.below }

def down (t : Terminal) : Terminal :=
  match t.below with
  | [] => t
  | next :: rest => { t with above := t.row :: t.above, row := next, below := rest }

def eraseLine (t : Terminal) : Terminal := { t with row := "" }

/-- How often a movement is made: once, unless a larger number is given. -/
def times (parameters : List Char) : Nat :=
  max 1 (parameters.foldl (fun n c ↦ 10 * n + (c.toNat - '0'.toNat)) 0)

/-- Obeys a control sequence, given its parameters and the character that ends it. -/
def obey (t : Terminal) (parameters : List Char) (final : Char) : Terminal :=
  if final = 'A' then up^[times parameters] t
  else if final = 'B' then down^[times parameters] t
  else if final = 'K' ∧ parameters = ['2'] then t.eraseLine
  else t

def step (t : Terminal) (c : Char) : Terminal :=
  match t.reading with
  | .text =>
    if c = '\n' then t.lineFeed
    else if c = '\r' then { t with column := 0 }
    else if c = '\x1b' then { t with reading := .escape }
    else t.put c
  | .escape => { t with reading := if c = '[' then .sequence [] else .text }
  | .sequence parameters =>
    if '@' ≤ c ∧ c ≤ '~' then { t with reading := .text }.obey parameters c
    else { t with reading := .sequence (parameters ++ [c]) }

/-- What a terminal shows after some text. -/
def replay (t : Terminal) (text : String) : Terminal := text.toList.foldl step t

/-- The lines above the cursor from the top of the screen on. -/
def linesAbove (t : Terminal) : List String := t.above.reverse

/-- The cursor at the end of what has been written into a line.  There is nothing below but a number
of empty lines. -/
def writing (lines : List String) (written : String) (spare : Nat) : Terminal :=
  ⟨lines.reverse, written, written.length, List.replicate spare "", .text⟩

/-- The cursor at the beginning of an empty line, which is the last one. -/
def under (lines : List String) : Terminal := writing lines "" 0

/-- Characters that are not obeyed. -/
def IsShown (c : Char) : Prop := c ≠ '\n' ∧ c ≠ '\r' ∧ c ≠ '\x1b'

instance (c : Char) : Decidable (IsShown c) :=
  inferInstanceAs (Decidable (c ≠ '\n' ∧ c ≠ '\r' ∧ c ≠ '\x1b'))

def IsText (text : String) : Prop := ∀ c ∈ text.toList, IsShown c

instance (text : String) : Decidable (IsText text) := List.decidableBAll _ text.toList

/-- Characters that do not end a control sequence. -/
def AreParameters (cs : List Char) : Prop := ∀ c ∈ cs, ¬ ('@' ≤ c ∧ c ≤ '~')

instance (cs : List Char) : Decidable (AreParameters cs) := List.decidableBAll _ cs

variable {kept lines : List String} {written : String} {spare : Nat} {t u v : Terminal}

@[simp]
theorem linesAbove_writing : (writing lines written spare).linesAbove = lines :=
  List.reverse_reverse lines

theorem replay_append (t : Terminal) (first second : String) :
    t.replay (first ++ second) = (t.replay first).replay second := by
  simp only [replay, String.toList_append, List.foldl_append]

theorem overwrite_length (row : String) (c : Char) : overwrite row row.length c = row.push c := by
  apply String.toList_injective
  rw [overwrite, String.toList_ofList, String.toList_push, ← String.length_toList,
    List.take_length, Nat.sub_self, List.drop_of_length_le (Nat.le_succ _), List.replicate_zero,
    List.append_nil]

theorem step_writing {c : Char} (hc : IsShown c) :
    (writing lines written spare).step c = writing lines (written.push c) spare := by
  obtain ⟨hnewline, hreturn, hescape⟩ := hc
  simp only [step, writing, if_neg hnewline, if_neg hreturn, if_neg hescape, put, overwrite_length,
    String.length_push]

theorem step_writing_newline :
    (writing lines written spare).step '\n' = writing (lines ++ [written]) "" (spare - 1) := by
  cases spare <;> simp [step, writing, lineFeed, List.replicate_succ]

/-- The lines stand above the cursor, each in its place. -/
def Keeps (kept : List String) (t : Terminal) : Prop := kept <+: t.linesAbove

/-- A terminal becomes another one by some characters, and the lines stand above its cursor all the
way. -/
inductive Along (kept : List String) : Terminal → List Char → Terminal → Prop where
  | nil {t : Terminal} (h : Keeps kept t) : Along kept t [] t
  | cons {t u : Terminal} {c : Char} {rest : List Char} (h : Keeps kept t)
      (hrest : Along kept (t.step c) rest u) : Along kept t (c :: rest) u

theorem keeps_writing (h : kept <+: lines) : Keeps kept (writing lines written spare) := by
  rwa [Keeps, linesAbove_writing]

namespace Along

theorem foldl_eq {text : List Char} (h : Along kept t text u) : text.foldl step t = u := by
  induction h with
  | nil => rfl
  | cons _ _ ih => exact ih

theorem keeps_of_prefix {text part : List Char} (h : Along kept t text u) (hpart : part <+: text) :
    Keeps kept (part.foldl step t) := by
  induction h generalizing part with
  | nil h =>
    obtain rfl := List.prefix_nil.1 hpart
    exact h
  | cons h _ ih =>
    cases part with
    | nil => exact h
    | cons d part =>
      obtain ⟨rfl, hrest⟩ := List.cons_prefix_cons.1 hpart
      exact ih hrest

theorem append {first second : List Char} (h : Along kept t first u)
    (hsecond : Along kept u second v) : Along kept t (first ++ second) v := by
  induction h with
  | nil => exact hsecond
  | cons h _ ih => exact .cons h (ih hsecond)

/-- Fewer lines are kept with more of them. -/
theorem mono {fewer : List String} {text : List Char} (hfewer : fewer <+: kept)
    (h : Along kept t text u) : Along fewer t text u := by
  induction h with
  | nil h => exact .nil (hfewer.trans h)
  | cons h _ ih => exact .cons (hfewer.trans h) ih

theorem singleton {c : Char} (h : Keeps kept t) (hc : Keeps kept (t.step c)) :
    Along kept t [c] (t.step c) :=
  .cons h (.nil hc)

end Along

/-- A terminal becomes another one by some text, and the lines stand above its cursor all the
way. -/
def Shows (kept : List String) (t : Terminal) (text : String) (u : Terminal) : Prop :=
  Along kept t text.toList u

namespace Shows

theorem replay_eq {text : String} (h : Shows kept t text u) : t.replay text = u := h.foldl_eq

theorem keeps_of_prefix {text part : String} (h : Shows kept t text u)
    (hpart : part.toList <+: text.toList) : Keeps kept (t.replay part) :=
  Along.keeps_of_prefix h hpart

theorem append {first second : String} (h : Shows kept t first u)
    (hsecond : Shows kept u second v) : Shows kept t (first ++ second) v := by
  rw [Shows, String.toList_append]
  exact Along.append h hsecond

theorem mono {fewer : List String} {text : String} (hfewer : fewer <+: kept)
    (h : Shows kept t text u) : Shows fewer t text u :=
  Along.mono hfewer h

/-- Text without characters that are obeyed is written. -/
theorem text (hkept : kept <+: lines) {text : String} (htext : IsText text) :
    Shows kept (writing lines written spare) text (writing lines (written ++ text) spare) := by
  rw [IsText] at htext
  rw [Shows]
  generalize hcs : text.toList = cs at htext
  obtain rfl : text = String.ofList cs := by rw [← hcs, String.ofList_toList]
  clear hcs
  induction cs generalizing written with
  | nil => simpa using Along.nil (keeps_writing hkept)
  | cons c cs ih =>
    obtain ⟨hc, hcs⟩ := List.forall_mem_cons.1 htext
    refine .cons (keeps_writing hkept) ?_
    rw [step_writing hc]
    have hpush : written ++ String.ofList (c :: cs) = written.push c ++ String.ofList cs := by
      apply String.toList_injective
      simp
    rw [hpush]
    exact ih hcs

theorem newline (hkept : kept <+: lines) :
    Shows kept (writing lines written spare) "\n"
      (writing (lines ++ [written]) "" (spare - 1)) := by
  rw [← step_writing_newline]
  refine Along.singleton (keeps_writing hkept) (c := '\n') ?_
  rw [step_writing_newline]
  exact keeps_writing (hkept.trans (List.prefix_append ..))

end Shows

theorem obey_text (ht : t.reading = .text) : { t with reading := .text } = t := by
  rw [← ht]

/-- The end of a control sequence after some of its parameters. -/
theorem Along.parameters {read rest : List Char} {final : Char}
    (hrest : AreParameters rest) (hfinal : '@' ≤ final ∧ final ≤ '~')
    (ht : t.reading = .text) (hkept : Keeps kept t)
    (hobey : Keeps kept (t.obey (read ++ rest) final)) :
    Along kept { t with reading := .sequence read } (rest ++ [final])
      (t.obey (read ++ rest) final) := by
  induction rest generalizing read with
  | nil =>
    have hstep : { t with reading := .sequence read }.step final = t.obey read final := by
      simp only [step, if_pos hfinal, obey_text ht]
    rw [List.append_nil, ← hstep] at hobey ⊢
    exact .singleton hkept hobey
  | cons c rest ih =>
    obtain ⟨hc, hrest⟩ := List.forall_mem_cons.1 hrest
    have hstep : { t with reading := .sequence read }.step c =
        { t with reading := .sequence (read ++ [c]) } := by
      simp only [step, if_neg hc]
    have happend : read ++ c :: rest = read ++ [c] ++ rest := List.append_cons ..
    rw [happend] at hobey ⊢
    refine .cons hkept ?_
    rw [hstep]
    exact ih hrest hobey

theorem Along.controlSequence (parameters : List Char) (final : Char)
    (hparameters : AreParameters parameters) (hfinal : '@' ≤ final ∧ final ≤ '~')
    (ht : t.reading = .text) (hkept : Keeps kept t) (hobey : Keeps kept (t.obey parameters final)) :
    Along kept t ('\x1b' :: '[' :: (parameters ++ [final])) (t.obey parameters final) := by
  have hescape : t.step '\x1b' = { t with reading := .escape } := by
    simp only [step, ht]
    rfl
  refine .cons hkept ?_
  rw [hescape]
  exact .cons hkept (.parameters hparameters hfinal ht hkept hobey)

namespace Shows

open Screen

/-- Painted text is written like text that is not. -/
theorem paint (hkept : kept <+: lines) {text : String} (htext : IsText text) (colour : Colour)
    (colours : Bool) :
    Shows kept (writing lines written spare) (colour.paint colours text)
      (writing lines (written ++ text) spare) := by
  cases colours with
  | false => exact Shows.text hkept htext
  | true =>
    have hcode : Shows kept (writing lines written spare) ("\x1b[" ++ colour.code ++ "m")
        (writing lines written spare) := by
      have hsequence : ("\x1b[" ++ colour.code ++ "m").toList =
          '\x1b' :: '[' :: (colour.code.toList ++ ['m']) := by
        cases colour <;> decide
      rw [Shows, hsequence]
      refine Along.controlSequence _ 'm' ?_ (by decide) rfl (keeps_writing hkept)
        (keeps_writing hkept)
      cases colour <;> decide
    have hreset : Shows kept (writing lines (written ++ text) spare) "\x1b[0m"
        (writing lines (written ++ text) spare) :=
      Along.controlSequence ['0'] 'm' (by decide) (by decide) rfl (keeps_writing hkept)
        (keeps_writing hkept)
    exact (hcode.append (Shows.text hkept htext)).append hreset

/-- The line above the cursor is erased, and the cursor is at its beginning. -/
theorem eraseLineAbove (hkept : kept <+: lines) (line : String) :
    Shows kept (under (lines ++ [line])) Screen.eraseLineAbove (writing lines "" 1) := by
  let found : Terminal := ⟨lines.reverse, line, 0, [""], .text⟩
  let erased : Terminal := writing lines "" 1
  have hfound : Keeps kept found := by
    have hwritten : Keeps kept (writing lines line 1) := keeps_writing hkept
    exact hwritten
  have herased : Keeps kept erased := keeps_writing hkept
  have hunder (last : String) : Keeps kept (under (lines ++ [last])) :=
    keeps_writing (hkept.trans (List.prefix_append ..))
  have hlast : (under (lines ++ [line])).obey ['1'] 'A' = found := by
    simp [under, writing, obey, times, up, found]
  have hdown : erased.obey ['1'] 'B' = under (lines ++ [""]) := by
    simp [under, writing, obey, times, down, erased]
  have hup : (under (lines ++ [""])).obey ['1'] 'A' = erased := by
    simp [under, writing, obey, times, up, erased]
  have hfirst : Shows kept (under (lines ++ [line])) "\x1b[1A" found := by
    rw [← hlast] at hfound ⊢
    exact Along.controlSequence ['1'] 'A' (by decide) (by decide) rfl (hunder line) hfound
  have hreturn : Shows kept found "\r" found := .singleton hfound hfound
  have herase : Shows kept found "\x1b[2K" erased :=
    Along.controlSequence ['2'] 'K' (by decide) (by decide) rfl hfound herased
  have hsecond : Shows kept erased "\x1b[1B" (under (lines ++ [""])) := by
    rw [← hdown]
    exact Along.controlSequence ['1'] 'B' (by decide) (by decide) rfl herased (hdown ▸ hunder "")
  have hthird : Shows kept (under (lines ++ [""])) "\x1b[1A" erased := by
    rw [← hup]
    exact Along.controlSequence ['1'] 'A' (by decide) (by decide) rfl (hunder "") (hup ▸ herased)
  exact (((hfirst.append hreturn).append herase).append hsecond).append hthird

end Shows

end Terminal

end LoxScan.Suite
