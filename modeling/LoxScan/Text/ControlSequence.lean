/-!
# Control sequences

Text that is meant for a terminal holds sequences that the terminal obeys instead of showing them.
They begin with the escape character, and what follows it says where they end: a sequence of its
own, a control sequence with parameters, a string for a device, or a title.

For a reader that is no terminal the sequences are left out, and so is every control character
that is not a blank.  A blank inside a sequence is shown nevertheless, together with what follows
it, and the sequence goes on at the next control character.
-/

namespace LoxScan.Text.ControlSequence

/-- What is being read.  Inside a sequence it is the part of the sequence that has been reached. -/
inductive State where
  | text
  | escape
  | escapeTail
  | parameters
  | stringHeader
  | string
  | title
deriving DecidableEq, Repr

/-- The control characters that space text out. -/
def isBlank (c : Char) : Bool := c == '\t' || c == '\n' || c == '\x0c' || c == '\r'

def isBetween (low high c : Char) : Bool := low ≤ c && c ≤ high

/-- A string ends at the byte of the string terminator, even if it is part of a character. -/
def endsString (c : Char) : Bool := (String.utf8EncodeChar c).contains 0x9C

namespace State

/-- The character after the escape character decides what kind of sequence begins.  Most of them
are a sequence of their own, which ends at once or after a few characters that sort before the
digits. -/
def afterEscape (c : Char) : State :=
  match c with
  | '[' => parameters
  | ']' => title
  | 'P' => stringHeader
  | 'X' => string
  | '^' => string
  | '_' => string
  | c =>
    if isBetween ' ' '/' c then escapeTail else if isBetween '0' '~' c then text else escape

/-- Three control characters act everywhere: two cancel a sequence, and one begins the next. -/
def next (s : State) (c : Char) : State :=
  if c = '\x18' ∨ c = '\x1a' then text
  else if c = '\x1b' then escape
  else
    match s with
    | text => text
    | escape => afterEscape c
    | escapeTail => if isBetween '0' '~' c then text else escapeTail
    | parameters => if isBetween '@' '~' c then text else parameters
    | stringHeader => if isBetween '@' '~' c then string else stringHeader
    | string => if endsString c then text else string
    | title => if c = '\x07' then text else title

/-- Whether a character is shown.  Strings and titles hide even blanks. -/
def shows (s : State) (c : Char) : Bool :=
  match s with
  | text => isBlank c || (' ' ≤ c && c != '\x7f')
  | escape => isBlank c
  | escapeTail => isBlank c
  | parameters => isBlank c
  | stringHeader => false
  | string => false
  | title => false

end State

/-- What is shown of characters, given whether the one before them was shown.  A character beyond
ASCII that is shown ends the sequence that a blank has interrupted. -/
def stripFrom (s : State) (showing : Bool) : List Char → List Char
  | [] => []
  | c :: rest =>
    if s.shows c || (showing && State.text.shows c) then
      c :: stripFrom (if c ≤ '\x7f' then s else .text) true rest
    else stripFrom (s.next c) false rest

theorem State.shows_text_of_shows {s : State} {c : Char} (h : s.shows c) : text.shows c := by
  cases s <;> simp_all [shows]

/-- What is shown holds no control characters but blanks. -/
theorem shows_of_mem_stripFrom {s : State} {showing : Bool} {cs : List Char} {c : Char}
    (h : c ∈ stripFrom s showing cs) : State.text.shows c := by
  fun_induction stripFrom s showing cs with
  | case1 => simp at h
  | case2 s showing d rest hd ih =>
    rcases List.mem_cons.mp h with rfl | h
    · rcases Bool.or_eq_true_iff.mp hd with hd | hd
      · exact State.shows_text_of_shows hd
      · exact (Bool.and_eq_true_iff.mp hd).2
    · exact ih h
  | case3 s showing d rest hd ih => exact ih h

/-- Text without control sequences is shown as it is. -/
theorem stripFrom_text {showing : Bool} {cs : List Char} (h : ∀ c ∈ cs, State.text.shows c) :
    stripFrom .text showing cs = cs := by
  induction cs generalizing showing with
  | nil => rfl
  | cons c rest ih =>
    have hc := h c List.mem_cons_self
    simp [stripFrom, hc, ih fun d hd ↦ h d (List.mem_cons_of_mem c hd)]

def strip (text : String) : String := String.ofList (stripFrom .text false text.toList)

end LoxScan.Text.ControlSequence
