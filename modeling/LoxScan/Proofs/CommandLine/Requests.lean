import Mathlib.Data.List.Basic
import LoxScan.CommandLine.ScanCommand

/-!
# What the arguments ask for

The argument lists that the scanning command accepts can be counted on one hand: a script may be
given or not, and a separator may stand before it or behind it.  A flag acts if it comes first or
right behind a script.  All other lists are refused, because of an argument that nothing allows or
because the script is empty.
-/

namespace LoxScan.CommandLine.ScanCommand

/-- An argument that cannot be taken for an option. -/
def IsPlain (argument : String) : Prop := argument = "-" ∨ argument.toList.head? ≠ some '-'

/-- An argument that is the long name of a flag or a group of letters that begins with its own. -/
def Names (flag : Flag) (argument : String) : Prop :=
  argument = "--" ++ flag.name ∨ ['-', flag.letter] <+: argument.toList

/-- The argument lists that are accepted, with the script they give. -/
inductive Accepts : List String → Option String → Prop where
  | nothing : Accepts [] none
  | separator : Accepts ["--"] none
  | plain {path : String} (hne : path ≠ "") (hplain : IsPlain path) : Accepts [path] (some path)
  | closed {path : String} (hne : path ≠ "") (hplain : IsPlain path) :
      Accepts [path, "--"] (some path)
  | behind {path : String} (hne : path ≠ "") : Accepts ["--", path] (some path)

/-- The argument lists on which a flag acts, whatever comes after it. -/
inductive Acts (flag : Flag) : List String → Prop where
  | first {argument : String} (hnames : Names flag argument) (rest : List String) :
      Acts flag (argument :: rest)
  | second {path argument : String} (hne : path ≠ "") (hplain : IsPlain path)
      (hnames : Names flag argument) (rest : List String) : Acts flag (path :: argument :: rest)

/-- All other argument lists. -/
def IsRefused (arguments : List String) : Prop :=
  (∀ script, ¬ Accepts arguments script) ∧ ∀ flag ∈ grammar.flags, ¬ Acts flag arguments

theorem IsPlain.ne_separator {argument : String} (h : IsPlain argument) : argument ≠ "--" := by
  rintro rfl
  rcases h with h | h
  · exact absurd h (by decide)
  · exact h rfl

theorem Names.ne_separator {flag : Flag} (hflag : flag ∈ grammar.flags) {argument : String}
    (h : Names flag argument) : argument ≠ "--" := by
  rintro rfl
  rcases List.mem_pair.1 hflag with rfl | rfl <;> rcases h with h | h <;>
    exact absurd h (by decide)

theorem read_of_isPlain {argument : String} (h : IsPlain argument) (g : Grammar) (p : Progress) :
    p.read g argument = p.readWord g argument := by
  rw [Progress.read.eq_def]
  split
  · next long heq =>
    rcases h with rfl | h
    · exact absurd heq (by simp)
    · exact absurd (by rw [heq]; rfl) h
  · next letter rest heq =>
    rcases h with rfl | h
    · exact absurd heq (by simp)
    · exact absurd (by rw [heq]; rfl) h
  · rfl

theorem read_of_names {flag : Flag} (hflag : flag ∈ grammar.flags) {argument : String}
    (h : Names flag argument) (p : Progress) :
    p.read grammar argument = p.actOn grammar flag := by
  rcases List.mem_pair.1 hflag with rfl | rfl
  · rcases h with rfl | ⟨rest, h⟩
    · rfl
    · rw [Progress.read, ← h]
      rfl
  · rcases h with rfl | ⟨rest, h⟩
    · rfl
    · rw [Progress.read, ← h]
      rfl

/-- A long name that no flag has, or that comes with a value, is a problem. -/
theorem readLong_of_other {name : String} {value : Option String} (p : Progress)
    (h : value = none → ∀ flag ∈ grammar.flags, flag.name ≠ name) :
    ∃ problem, p.readLong grammar name value = .error (.problem problem) := by
  unfold Progress.readLong
  cases hfind : grammar.flags.find? fun flag ↦ flag.name == name with
  | none => exact ⟨_, rfl⟩
  | some flag =>
    cases value with
    | none =>
      have hname : flag.name = name := by simpa using List.find?_some hfind
      exact absurd hname (h rfl flag (List.mem_of_find?_eq_some hfind))
    | some value => exact ⟨_, rfl⟩

theorem readLetter_of_other {letter : Char} (p : Progress)
    (h : ∀ flag ∈ grammar.flags, flag.letter ≠ letter) :
    ∃ problem, p.readLetter grammar letter = .error (.problem problem) := by
  have hfind : grammar.flags.find? (fun flag ↦ flag.letter == letter) = none := by
    rw [List.find?_eq_none]
    intro flag hflag hletter
    exact h flag hflag (beq_iff_eq.1 hletter)
  rw [Progress.readLetter, hfind]
  exact ⟨_, rfl⟩

/-- An argument of any other form is a problem, whatever has been read before it. -/
theorem read_of_other {argument : String} (hplain : ¬ IsPlain argument)
    (hnames : ∀ flag ∈ grammar.flags, ¬ Names flag argument) (p : Progress) :
    ∃ problem, p.read grammar argument = .error (.problem problem) := by
  rw [Progress.read.eq_def]
  split
  · next long heq =>
    dsimp only
    split
    · next hvalue =>
      have hlong : long.takeWhile (· != '=') = long := by
        simpa [hvalue] using List.takeWhile_append_dropWhile (p := (· != '=')) (l := long)
      apply readLong_of_other p
      intro _ flag hflag hname
      apply hnames flag hflag
      left
      apply String.toList_injective
      have htext : (String.ofList long).toList = long := String.toList_ofList
      rw [heq, String.toList_append, hname, hlong, htext]
      rfl
    · exact readLong_of_other p (fun hvalue ↦ absurd hvalue (Option.some_ne_none _))
  · next letter rest hnot heq =>
    apply readLetter_of_other p
    intro flag hflag hletter
    apply hnames flag hflag
    right
    rw [heq, hletter]
    exact List.prefix_append ['-', letter] rest
  · next hlong hletter =>
    exfalso
    apply hplain
    by_cases hhead : argument.toList.head? = some '-'
    · obtain ⟨rest, hlist⟩ := List.head?_eq_some_iff.1 hhead
      cases rest with
      | nil => exact .inl (String.toList_injective hlist)
      | cons letter rest => exact absurd hlist (hletter letter rest)
    · exact .inr hhead

/-- The progress after a first plain argument. -/
def opened (path : String) : Progress := ⟨Arguments.none, some (.plain path)⟩

theorem settle_opened {path : String} (hne : path ≠ "") :
    (opened path).settle grammar = .ok ⟨[], some path⟩ := by
  simp [Progress.settle, opened, hne, Arguments.none]

theorem settle_opened_empty :
    (opened "").settle grammar = .error (.problem .emptyArgument) := rfl

theorem readAll_cons {argument : String} (h : argument ≠ "--") (p : Progress)
    (rest : List String) :
    p.readAll grammar false (argument :: rest) =
      (p.read grammar argument).bind fun q ↦ q.readAll grammar false rest := by
  rw [Progress.readAll, if_neg Bool.false_ne_true, if_neg h]
  rfl

theorem readAll_start_plain {path : String} (h : IsPlain path) (rest : List String) :
    Progress.start.readAll grammar false (path :: rest) =
      (opened path).readAll grammar false rest := by
  rw [readAll_cons h.ne_separator, read_of_isPlain h]
  rfl

/-- What has been read before a flag is settled when the flag acts. -/
theorem readAll_of_names {flag : Flag} (hflag : flag ∈ grammar.flags) {argument : String}
    (h : Names flag argument) (p : Progress) (rest : List String) :
    p.readAll grammar false (argument :: rest) =
      (p.settle grammar).bind fun _ ↦ .error (.flag flag.name) := by
  rw [readAll_cons (h.ne_separator hflag), read_of_names hflag h, Progress.actOn]
  cases p.settle grammar <;> rfl

/-- Behind a plain argument there is room for a separator, or for a flag and anything. -/
theorem readAll_opened_cases (path : String) (rest : List String) :
    (rest = [] ∨ rest = ["--"]) ∨
      (∃ flag ∈ grammar.flags, ∃ argument tail, Names flag argument ∧ rest = argument :: tail) ∨
      ∃ problem, (opened path).readAll grammar false rest = .error (.problem problem) := by
  cases rest with
  | nil => exact .inl (.inl rfl)
  | cons argument tail =>
    by_cases hseparator : argument = "--"
    · subst hseparator
      cases tail with
      | nil => exact .inl (.inr rfl)
      | cons surplus tail => exact .inr (.inr ⟨_, rfl⟩)
    by_cases hnames : ∃ flag ∈ grammar.flags, Names flag argument
    · obtain ⟨flag, hflag, hnames⟩ := hnames
      exact .inr (.inl ⟨flag, hflag, argument, tail, hnames, rfl⟩)
    · right
      right
      rw [readAll_cons hseparator]
      by_cases hplain : IsPlain argument
      · rw [read_of_isPlain hplain]
        exact ⟨_, rfl⟩
      · obtain ⟨problem, hread⟩ :=
          read_of_other hplain (fun flag hflag h ↦ hnames ⟨flag, hflag, h⟩) (opened path)
        rw [hread]
        exact ⟨problem, rfl⟩

theorem parse_of_accepts {arguments : List String} {script : Option String}
    (h : Accepts arguments script) : grammar.parse arguments = .ok ⟨[], script⟩ := by
  rw [Grammar.parse]
  cases h with
  | nothing => rfl
  | separator => rfl
  | plain hne hplain =>
    rw [readAll_start_plain hplain]
    exact settle_opened hne
  | closed hne hplain =>
    rw [readAll_start_plain hplain]
    exact settle_opened hne
  | behind hne => exact settle_opened hne

theorem parse_of_acts {flag : Flag} (hflag : flag ∈ grammar.flags) {arguments : List String}
    (h : Acts flag arguments) : grammar.parse arguments = .error (.flag flag.name) := by
  rw [Grammar.parse]
  cases h with
  | first hnames rest =>
    rw [readAll_of_names hflag hnames]
    rfl
  | second hne hplain hnames rest =>
    rw [readAll_start_plain hplain, readAll_of_names hflag hnames, settle_opened hne]
    rfl

/-- A list that begins with a plain argument. -/
theorem parse_plain_cases {path : String} (hplain : IsPlain path) (rest : List String) :
    (∃ script, Accepts (path :: rest) script) ∨
      (∃ flag ∈ grammar.flags, Acts flag (path :: rest)) ∨
      ∃ problem, grammar.parse (path :: rest) = .error (.problem problem) := by
  rw [Grammar.parse, readAll_start_plain hplain]
  by_cases hempty : path = ""
  · subst hempty
    right
    right
    rcases readAll_opened_cases "" rest with
      (rfl | rfl) | ⟨flag, hflag, argument, tail, hnames, rfl⟩ | hproblem
    · exact ⟨_, settle_opened_empty⟩
    · exact ⟨_, settle_opened_empty⟩
    · rw [readAll_of_names hflag hnames, settle_opened_empty]
      exact ⟨_, rfl⟩
    · exact hproblem
  · rcases readAll_opened_cases path rest with
      (rfl | rfl) | ⟨flag, hflag, argument, tail, hnames, rfl⟩ | hproblem
    · exact .inl ⟨_, .plain hempty hplain⟩
    · exact .inl ⟨_, .closed hempty hplain⟩
    · exact .inr (.inl ⟨flag, hflag, .second hempty hplain hnames tail⟩)
    · exact .inr (.inr hproblem)

/-- A list that begins with a separator. -/
theorem parse_separator_cases (rest : List String) :
    (∃ script, Accepts ("--" :: rest) script) ∨
      ∃ problem, grammar.parse ("--" :: rest) = .error (.problem problem) := by
  cases rest with
  | nil => exact .inl ⟨_, .separator⟩
  | cons path rest =>
    cases rest with
    | nil =>
      by_cases hempty : path = ""
      · subst hempty
        exact .inr ⟨_, settle_opened_empty⟩
      · exact .inl ⟨_, .behind hempty⟩
    | cons surplus rest => exact .inr ⟨_, rfl⟩

/-- Every list is accepted, or a flag acts on it, or there is a problem with it. -/
theorem parse_cases (arguments : List String) :
    (∃ script, Accepts arguments script) ∨ (∃ flag ∈ grammar.flags, Acts flag arguments) ∨
      ∃ problem, grammar.parse arguments = .error (.problem problem) := by
  cases arguments with
  | nil => exact .inl ⟨_, .nothing⟩
  | cons first rest =>
    by_cases hseparator : first = "--"
    · rw [hseparator]
      exact (parse_separator_cases rest).imp id .inr
    by_cases hplain : IsPlain first
    · exact parse_plain_cases hplain rest
    by_cases hnames : ∃ flag ∈ grammar.flags, Names flag first
    · obtain ⟨flag, hflag, hnames⟩ := hnames
      exact .inr (.inl ⟨flag, hflag, .first hnames rest⟩)
    · obtain ⟨problem, hread⟩ :=
        read_of_other hplain (fun flag hflag h ↦ hnames ⟨flag, hflag, h⟩) Progress.start
      right
      right
      rw [Grammar.parse, readAll_cons hseparator, hread]
      exact ⟨problem, rfl⟩

/-- What is refused is what there is a problem with. -/
theorem isRefused_iff {arguments : List String} :
    IsRefused arguments ↔ ∃ problem, grammar.parse arguments = .error (.problem problem) := by
  constructor
  · rintro ⟨haccepts, hacts⟩
    rcases parse_cases arguments with ⟨script, h⟩ | ⟨flag, hflag, h⟩ | hproblem
    · exact absurd h (haccepts script)
    · exact absurd h (hacts flag hflag)
    · exact hproblem
  · rintro ⟨problem, hproblem⟩
    constructor
    · intro script h
      rw [parse_of_accepts h] at hproblem
      cases hproblem
    · intro flag hflag h
      rw [parse_of_acts hflag h] at hproblem
      cases hproblem

section Request

variable {arguments : List String}

theorem ofArguments_of_accepts_some {path : String} (h : Accepts arguments (some path)) :
    Request.ofArguments arguments = .script path := by
  rw [Request.ofArguments, parse_of_accepts h]

theorem ofArguments_of_accepts_none (h : Accepts arguments none) :
    Request.ofArguments arguments = .prompt := by
  rw [Request.ofArguments, parse_of_accepts h]

theorem ofArguments_of_acts {flag : Flag} (hflag : flag ∈ grammar.flags)
    (h : Acts flag arguments) :
    Request.ofArguments arguments = if flag.name = helpFlag.name then .help else .version := by
  rw [Request.ofArguments, parse_of_acts hflag h]

theorem ofArguments_of_isRefused (h : IsRefused arguments) :
    Request.ofArguments arguments = .refused := by
  obtain ⟨problem, hparse⟩ := isRefused_iff.1 h
  rw [Request.ofArguments, hparse]

end Request

end LoxScan.CommandLine.ScanCommand
