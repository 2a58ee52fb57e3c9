import Mathlib.Data.List.TakeWhile
import LoxScan.Proofs.Suite.Discovery

/-!
# Relative paths of test files

What names lead to from a directory is seen from there by these names, if the directory and the
shown path begin alike.  They do not if the spelling of the directory has more behind a component
`.` in front, which is not shown but counts for the directory: then the names are seen behind a
detour.
-/

namespace LoxScan.Suite

open FileTree (IsName)
open Text.Split

namespace RelativePath

/-- The components that paths have in common at the front are dropped. -/
theorem from?_append (common names : List String) :
    from? [] (common ++ names) common = some names := by
  induction common with
  | nil => rfl
  | cons name common ih =>
    rw [List.cons_append, from?, if_pos ⟨rfl, rfl⟩]
    exact ih

/-- A component `.` in front of a base takes a component of the path along, after which nothing is
in common. -/
theorem from?_dot {name : String} (h : name ≠ ".") (path base : List String) :
    from? [] (name :: path) ("." :: base) = from? [name] path base := by
  rw [from?, if_neg (by simp [h]), if_pos rfl]
  rfl

/-- A path that goes on from a base with `.` in front is seen behind a detour through its first
component, unless that leads upwards. -/
theorem from?_detour {first : String} (hdot : first ≠ ".") (rest : List String)
    {names : List String} (hnil : names ≠ []) :
    from? [] (first :: (rest ++ names)) ("." :: first :: rest) =
      if first = ".." then none
      else some ([first, ".."] ++ rest.map (fun _ ↦ "..") ++ rest ++ names) := by
  obtain ⟨name, later, hlater⟩ : ∃ name later, rest ++ names = name :: later :=
    List.exists_cons_of_ne_nil (by simp [hnil])
  rw [from?_dot hdot, List.append_assoc, hlater, from?, if_neg (by simp), if_neg hdot]
  rfl

/-- Whether a component counts behind the first. -/
def counts (name : String) : Bool := name != "" && name != "."

theorem componentsOf_of_fields {path first : String} {rest : List String}
    (h : fields '/' path = first :: rest) (hfirst : first ≠ "") :
    componentsOf path = first :: rest.filter counts := by
  simp only [componentsOf, h, if_neg hfirst]
  rfl

theorem filter_counts_of_isName {names : List String} (h : ∀ name ∈ names, IsName name) :
    names.filter counts = names := by
  refine List.filter_eq_self.2 fun name hname ↦ ?_
  simp [counts, (h name hname).ne_empty, (h name hname).ne_dot]

theorem filter_counts_of_dots {dots : List String} (h : ∀ step ∈ dots, step = ".") :
    dots.filter counts = [] := by
  refine List.filter_eq_nil_iff.2 fun step hstep ↦ ?_
  rw [h step hstep]
  decide

theorem filter_counts_filter (names : List String) :
    (names.filter (· ≠ "")).filter counts = names.filter counts := by
  rw [List.filter_filter]
  refine List.filter_congr fun name _ ↦ ?_
  by_cases hname : name = "" <;> simp [counts, hname]

end RelativePath

namespace Site

theorem foldl_shownStep_of_ne_nil (steps : List String) {names : List String}
    (hnames : names ≠ []) : steps.foldl shownStep names = names ++ steps.filter (· ≠ "") := by
  induction steps generalizing names with
  | nil => simp
  | cons step steps ih =>
    rw [List.foldl_cons, shownStep]
    by_cases hstep : step = ""
    · rw [if_pos (.inl hstep), ih hnames, List.filter_cons_of_neg (by simpa using hstep)]
    · rw [if_neg (by simp [hstep, hnames]), ih (by simp),
        List.filter_cons_of_pos (by simpa using hstep), List.append_assoc]
      rfl

theorem foldl_shownStep_dots {steps : List String} (h : ∀ step ∈ steps, step = ".") :
    steps.foldl shownStep [] = [] := by
  induction steps with
  | nil => rfl
  | cons step steps ih =>
    obtain ⟨hstep, hsteps⟩ := List.forall_mem_cons.1 h
    rw [List.foldl_cons, shownStep, if_pos (.inr ⟨hstep, rfl⟩), ih hsteps]

end Site

/-- The spelling of a directory begins with a component `.` only if it has no others. -/
def HasNamedFront (directory : String) : Prop :=
  (stepsOf directory).head? = some "." → ∀ step ∈ stepsOf directory, step = "."

/-- What is in front of the names of a test file when it is seen from a directory. -/
def detour (directory : String) : List String :=
  match RelativePath.componentsOf directory with
  | first :: step :: steps =>
    if first ≠ "." then []
    else if step = ".." then shownSteps directory
    else [step, ".."] ++ steps.map (fun _ ↦ "..") ++ steps
  | _ => []

variable {directory : String} {names : List String}

theorem detour_of_ne_dot {first : String} {rest : List String}
    (h : RelativePath.componentsOf directory = first :: rest) (hdot : first ≠ ".") :
    detour directory = [] := by
  rw [detour, h]
  cases rest with
  | nil => rfl
  | cons step steps => exact if_pos hdot

theorem detour_of_dot {step : String} {steps : List String}
    (h : RelativePath.componentsOf directory = "." :: step :: steps) :
    detour directory =
      if step = ".." then shownSteps directory
      else [step, ".."] ++ steps.map (fun _ ↦ "..") ++ steps := by
  rw [detour, h]
  rfl

/-- The components of a directory behind the dots in front. -/
theorem stepsOf_cases (hrelative : isAbsolute directory = false)
    (hfront : HasPlainFront directory) :
    (∀ step ∈ stepsOf directory, step = ".") ∨
      ∃ dots first rest, stepsOf directory = dots ++ first :: rest ∧
        (∀ step ∈ dots, step = ".") ∧ first ≠ "" ∧ first ≠ "." := by
  have hplain := hfront hrelative
  have hsplit := List.takeWhile_append_dropWhile (p := fun step : String ↦ decide (step = "."))
    (l := stepsOf directory)
  have hdots : ∀ step ∈ (stepsOf directory).takeWhile (· = "."), step = "." := fun step h ↦
    of_decide_eq_true (List.mem_takeWhile_imp (p := fun step : String ↦ decide (step = ".")) h)
  cases hdrop : (stepsOf directory).dropWhile (· = ".") with
  | nil =>
    left
    exact fun step hstep ↦ of_decide_eq_true (List.dropWhile_eq_nil_iff.1 hdrop step hstep)
  | cons first rest =>
    right
    rw [hdrop] at hplain hsplit
    have hhead := List.head?_dropWhile_not (fun step : String ↦ decide (step = "."))
      (stepsOf directory)
    rw [hdrop] at hhead
    exact ⟨_, first, rest, hsplit.symm, hdots, by simpa using hplain, by simpa using hhead⟩

/-- The components that count in a directory, however it ends. -/
theorem componentsOf_directory {first : String} {rest : List String}
    (h : stepsOf directory = first :: rest) (hfirst : first ≠ "") :
    RelativePath.componentsOf directory = first :: rest.filter RelativePath.counts := by
  rcases fields_eq_stepsOf directory with heq | heq
  · exact RelativePath.componentsOf_of_fields (heq.trans h) hfirst
  · rw [h, List.cons_append] at heq
    rw [RelativePath.componentsOf_of_fields heq hfirst, List.filter_append]
    simp [RelativePath.counts]

section Relative

variable (hrelative : isAbsolute directory = false)
include hrelative

/-- The directory itself, spelled with dots only. -/
theorem componentsOf_of_dots (h : ∀ step ∈ stepsOf directory, step = ".") :
    RelativePath.componentsOf directory = ["."] ∧ shownSteps directory = [] := by
  refine ⟨?_, by rw [shownSteps_of_relative hrelative, Site.foldl_shownStep_dots h]⟩
  obtain ⟨first, rest, hsteps⟩ :=
    List.exists_cons_of_ne_nil (fields_ne_nil '/' (withoutSlash directory))
  rw [← stepsOf] at hsteps
  rw [hsteps] at h
  obtain ⟨rfl, hrest⟩ := List.forall_mem_cons.1 h
  rw [componentsOf_directory hsteps (by decide), RelativePath.filter_counts_of_dots hrest]

theorem componentsOf_of_named {dots rest : List String} {first : String}
    (hsteps : stepsOf directory = dots ++ first :: rest) (hdots : ∀ step ∈ dots, step = ".")
    (hempty : first ≠ "") (hdot : first ≠ ".") :
    RelativePath.componentsOf directory =
        (if dots = [] then [] else ["."]) ++ first :: rest.filter RelativePath.counts ∧
      shownSteps directory = first :: rest.filter (· ≠ "") := by
  constructor
  · cases dots with
    | nil => exact componentsOf_directory hsteps hempty
    | cons dot dots =>
      obtain ⟨rfl, hlater⟩ := List.forall_mem_cons.1 hdots
      rw [List.cons_append] at hsteps
      rw [componentsOf_directory hsteps (by decide), List.filter_append,
        RelativePath.filter_counts_of_dots hlater,
        List.filter_cons_of_pos (by simp [RelativePath.counts, hempty, hdot])]
      rfl
  · rw [shownSteps_of_relative hrelative, hsteps, List.foldl_append,
      Site.foldl_shownStep_dots hdots, List.foldl_cons, Site.shownStep_of_ne hempty hdot,
      Site.foldl_shownStep_of_ne_nil rest (by simp)]
    rfl

theorem HasNamedFront.hasPlainFront (h : HasNamedFront directory) (hne : directory ≠ "") :
    HasPlainFront directory := by
  intro _
  obtain ⟨first, rest, hsteps, hfirst⟩ := exists_stepsOf_of_relative hne hrelative
  by_cases hdot : first = "."
  · have hdots : ∀ step ∈ stepsOf directory, decide (step = ".") = true :=
      fun step hstep ↦ decide_eq_true (h (by rw [hsteps, hdot]; rfl) step hstep)
    rw [List.dropWhile_eq_nil_iff.2 hdots]
    simp
  · rw [hsteps, List.dropWhile_cons_of_neg (by simpa using hdot)]
    simpa using hfirst

/-- There is no detour iff the directory has a named front. -/
theorem detour_eq_nil_iff (hfront : HasPlainFront directory) :
    detour directory = [] ↔ HasNamedFront directory := by
  rcases stepsOf_cases hrelative hfront with hall | ⟨dots, first, rest, hsteps, hdots, hempty, hdot⟩
  · have hnil : detour directory = [] := by
      rw [detour, (componentsOf_of_dots hrelative hall).1]
    exact iff_of_true hnil fun _ ↦ hall
  · obtain ⟨hcomponents, hshown⟩ := componentsOf_of_named hrelative hsteps hdots hempty hdot
    cases dots with
    | nil =>
      refine iff_of_true (detour_of_ne_dot hcomponents hdot) fun hhead ↦ ?_
      rw [hsteps] at hhead
      exact absurd (Option.some.inj hhead) hdot
    | cons dot dots =>
      obtain ⟨rfl, -⟩ := List.forall_mem_cons.1 hdots
      refine iff_of_false ?_ fun hnamed ↦ ?_
      · rw [detour_of_dot hcomponents, hshown]
        split <;> simp
      · exact hdot (hnamed (by rw [hsteps]; rfl) first (by simp [hsteps]))

/-- How a test file is seen from the directory. -/
theorem between_pathBelow (hfront : HasPlainFront directory) (hnil : names ≠ [])
    (hnames : ∀ name ∈ names, IsName name) :
    RelativePath.between directory (pathBelow directory names) =
      String.intercalate "/" (detour directory ++ names) := by
  have hfields := fields_pathBelow hnil hnames directory
  rcases stepsOf_cases hrelative hfront with hall | ⟨dots, first, rest, hsteps, hdots, hempty, hdot⟩
  · obtain ⟨hcomponents, hshown⟩ := componentsOf_of_dots hrelative hall
    obtain ⟨name, later, rfl⟩ := List.exists_cons_of_ne_nil hnil
    obtain ⟨hname, hlater⟩ := List.forall_mem_cons.1 hnames
    have hdetour : detour directory = [] := by rw [detour, hcomponents]
    rw [hshown, List.nil_append] at hfields
    rw [RelativePath.between, hcomponents,
      RelativePath.componentsOf_of_fields hfields hname.ne_empty,
      RelativePath.filter_counts_of_isName hlater, RelativePath.from?_dot hname.ne_dot, hdetour]
    rfl
  · obtain ⟨hcomponents, hshown⟩ := componentsOf_of_named hrelative hsteps hdots hempty hdot
    rw [hshown, List.cons_append] at hfields
    have hpath : RelativePath.componentsOf (pathBelow directory names) =
        first :: (rest.filter RelativePath.counts ++ names) := by
      rw [RelativePath.componentsOf_of_fields hfields hempty, List.filter_append,
        RelativePath.filter_counts_filter, RelativePath.filter_counts_of_isName hnames]
    cases dots with
    | nil =>
      have hbetween := RelativePath.from?_append (first :: rest.filter RelativePath.counts) names
      rw [List.cons_append] at hbetween
      rw [RelativePath.between, hpath, hcomponents, detour_of_ne_dot hcomponents hdot]
      simp only [if_true, List.nil_append, hbetween]
    | cons dot dots =>
      have hcomponents : RelativePath.componentsOf directory =
          "." :: first :: rest.filter RelativePath.counts := hcomponents
      rw [RelativePath.between, hpath, hcomponents, RelativePath.from?_detour hdot _ hnil,
        detour_of_dot hcomponents]
      by_cases hdots : first = ".."
      · rw [if_pos hdots, if_pos hdots]
        rfl
      · rw [if_neg hdots, if_neg hdots]

end Relative

end LoxScan.Suite
