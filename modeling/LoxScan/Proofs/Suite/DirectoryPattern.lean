import LoxScan.Proofs.Text.Fields
import LoxScan.Suite.Run

/-!
# The pattern of a suite

A directory is pasted into the pattern that is searched for.  If no character of it stands for
anything else in patterns, the pattern has the components of the directory, then any number of
directories, then names that end like those of test files.
-/

namespace LoxScan.Suite

open Text.Split

namespace PathPattern

/-- A character that stands for itself wherever it is in a pattern. -/
def IsLiteral (c : Char) : Prop := c ≠ '*' ∧ c ≠ '?' ∧ c ≠ '['

instance (c : Char) : Decidable (IsLiteral c) := inferInstanceAs (Decidable (_ ∧ _ ∧ _))

theorem readAtom_of_isLiteral {c : Char} (h : IsLiteral c) (position : Nat) (previous : Option Char)
    (rest : List Char) : readAtom position previous c rest = .ok (.char c, rest) := by
  obtain ⟨hstar, hmark, hbracket⟩ := h
  rw [readAtom]
  · exact hmark
  · exact hstar
  · exact hbracket

theorem readAtoms_cons {c : Char} (h : IsLiteral c) (steps position : Nat)
    (previous : Option Char) (rest : List Char) :
    readAtoms (steps + 1) position previous (c :: rest) =
      (readAtoms steps (position + 1) (some c) rest).map (.char c :: ·) := by
  have htaken : (c :: rest).take ((c :: rest).length - rest.length) = [c] := by
    simp
  rw [readAtoms, readAtom_of_isLiteral h]
  simp only [Except.bind, bind, htaken, List.length_singleton, List.getLast?_singleton]
  cases readAtoms steps (position + 1) (some c) rest <;> rfl

/-- Literal characters are read as they are, and what follows them is read where it stands. -/
theorem readAtoms_append {text : List Char} (h : ∀ c ∈ text, IsLiteral c) (steps position : Nat)
    (previous : Option Char) (rest : List Char) :
    readAtoms (text.length + steps) position previous (text ++ rest) =
      (readAtoms steps (position + text.length) (text.getLast?.or previous) rest).map
        (text.map .char ++ ·) := by
  induction text generalizing position previous with
  | nil =>
    rw [List.nil_append, List.length_nil, Nat.zero_add]
    exact (congrFun Except.map_id (readAtoms steps position previous rest)).symm
  | cons c text ih =>
    obtain ⟨hc, htext⟩ := List.forall_mem_cons.1 h
    have hsteps : (c :: text).length + steps = text.length + steps + 1 := by
      rw [List.length_cons]
      omega
    have hposition : position + 1 + text.length = position + (c :: text).length := by
      rw [List.length_cons]
      omega
    have hprevious : text.getLast?.or (some c) = (c :: text).getLast?.or previous := by
      rw [List.getLast?_cons]
      cases text.getLast? <;> rfl
    rw [hsteps, List.cons_append, readAtoms_cons hc, ih htext, hposition, hprevious]
    cases readAtoms steps _ _ rest <;> rfl

theorem Component.ofText_of_isLiteral {text : String} (h : ∀ c ∈ text.toList, IsLiteral c) :
    Component.ofText text = .ok (.name text) := by
  have hatoms : atomsOf text = .ok (text.toList.map .char) := by
    have hread := readAtoms_append h 0 0 none []
    rw [List.append_nil] at hread
    rw [atomsOf, ← String.length_toList]
    simpa [readAtoms, Except.map] using hread
  have hname : (text.toList.map Atom.char).all isChar = true := by
    simp [isChar]
  have hdirectories : text.toList.map Atom.char ≠ [.directories] := by
    cases text.toList <;> simp
  rw [Component.ofText, hatoms]
  simp [bind, Except.bind, hname, hdirectories]
  rfl

/-- What the names of test files look like. -/
def testFileAtoms : List Atom := .anyRun :: ".lox".toList.map .char

theorem describes_map_char (text name : List Char) :
    describes (text.map .char) name = decide (text = name) := by
  induction text generalizing name with
  | nil => cases name <;> simp [describes_nil]
  | cons c text ih =>
    cases name with
    | nil => simp [describes_cons_nil]
    | cons d name =>
      rw [List.map_cons, describes_cons_cons (by simp), ih, Atom.describesChar, Bool.eq_iff_iff]
      simp

/-- A run of any characters in front of a text describes the names that end with it. -/
theorem describes_anyRun_map_char (text name : List Char) :
    describes (.anyRun :: text.map .char) name = true ↔ text <:+ name := by
  induction name with
  | nil => rw [describes_anyRun_nil, describes_map_char, decide_eq_true_iff, List.suffix_nil]
  | cons c name ih =>
    rw [describes_anyRun_cons, Bool.or_eq_true, ih, describes_map_char, decide_eq_true_iff,
      List.suffix_cons_iff]

end PathPattern

/-- A directory without the slash at its end, if there is one. -/
def withoutSlash (directory : String) : String :=
  if directory.toList.getLast? = some '/' then String.ofList directory.toList.dropLast
  else directory

/-- The components of a directory.  A slash at the end stands in front of no component. -/
def stepsOf (directory : String) : List String := fields '/' (withoutSlash directory)

theorem mem_of_mem_withoutSlash {directory : String} {c : Char}
    (h : c ∈ (withoutSlash directory).toList) : c ∈ directory.toList := by
  rw [withoutSlash] at h
  split at h
  · rw [String.toList_ofList] at h
    exact List.dropLast_subset _ h
  · exact h

theorem eq_withoutSlash_append {directory : String} (h : directory.toList.getLast? = some '/') :
    directory = withoutSlash directory ++ "/" := by
  apply String.toList_injective
  rw [withoutSlash, if_pos h, String.toList_append, String.toList_ofList]
  exact (List.dropLast_append_getLast? '/' h).symm

theorem fields_eq_stepsOf (directory : String) :
    fields '/' directory = stepsOf directory ∨
      fields '/' directory = stepsOf directory ++ [""] := by
  by_cases h : directory.toList.getLast? = some '/'
  · right
    have hfields := fields_append '/' (withoutSlash directory) ""
    rw [String.append_empty] at hfields
    exact (congrArg (fields '/') (eq_withoutSlash_append h)).trans hfields
  · left
    rw [stepsOf, withoutSlash, if_neg h]

theorem Plan.pattern_eq {p : Plan} (hne : p.directory ≠ "") :
    p.pattern = withoutSlash p.directory ++ "/" ++ "**/*.lox" := by
  rw [Plan.pattern]
  split
  · next h => exact congrArg (· ++ "**/*.lox") (eq_withoutSlash_append (h.resolve_left hne))
  · next h =>
    rw [withoutSlash, if_neg (not_or.1 h).2, String.append_assoc]
    rfl

theorem Plan.fields_pattern {p : Plan} (hne : p.directory ≠ "") :
    fields '/' p.pattern = stepsOf p.directory ++ ["**", "*.lox"] := by
  rw [Plan.pattern_eq hne]
  exact fields_append '/' (withoutSlash p.directory) "**/*.lox"

/-- Whether a directory is looked up from the root of the file system. -/
def isAbsolute (directory : String) : Bool := directory.toList.head? == some '/'

theorem isAbsolute_iff {directory : String} :
    isAbsolute directory = true ↔ directory.toList.head? = some '/' :=
  beq_iff_eq

theorem head?_stepsOf_eq_empty {directory : String} (h : directory ≠ "") :
    (stepsOf directory).head? = some "" ↔ isAbsolute directory = true := by
  rw [stepsOf, head?_fields_eq_empty, isAbsolute_iff, withoutSlash]
  split
  · next hlast =>
    rcases hchars : directory.toList with _ | ⟨c, _ | ⟨d, rest⟩⟩
    · exact absurd (String.toList_eq_nil_iff.1 hchars) h
    · rw [hchars] at hlast
      simpa using hlast
    · simp
  · simp [h]

theorem exists_stepsOf_of_relative {directory : String} (hne : directory ≠ "")
    (h : isAbsolute directory = false) :
    ∃ first rest, stepsOf directory = first :: rest ∧ first ≠ "" := by
  obtain ⟨first, rest, hsteps⟩ :=
    List.exists_cons_of_ne_nil (fields_ne_nil '/' (withoutSlash directory))
  refine ⟨first, rest, hsteps, ?_⟩
  rintro rfl
  have habsolute := (head?_stepsOf_eq_empty hne).1 (congrArg List.head? hsteps)
  rw [h] at habsolute
  cases habsolute

theorem Plan.isAbsolute_pattern {p : Plan} (hne : p.directory ≠ "") :
    isAbsolute p.pattern = isAbsolute p.directory := by
  have hne : p.directory.toList ≠ [] := by simpa using hne
  obtain ⟨c, rest, hdirectory⟩ := List.exists_cons_of_ne_nil hne
  rw [Plan.pattern]
  split <;> simp [isAbsolute, hdirectory]

/-- The components of a directory that are followed one after the other from where it is looked
up. -/
def followedSteps (directory : String) : List String :=
  if isAbsolute directory then (stepsOf directory).drop 1 else stepsOf directory

open PathPattern (Component IsLiteral testFileAtoms)

theorem mapM_ofText_append {steps : List String}
    (h : ∀ step ∈ steps, ∀ c ∈ step.toList, IsLiteral c) :
    (steps ++ ["**", "*.lox"]).mapM Component.ofText =
      .ok (steps.map .name ++ [.directories, .wildcard testFileAtoms]) := by
  induction steps with
  | nil => rfl
  | cons step steps ih =>
    obtain ⟨hstep, hsteps⟩ := List.forall_mem_cons.1 h
    rw [List.cons_append, List.mapM_cons, Component.ofText_of_isLiteral hstep, ih hsteps]
    rfl

theorem readAtoms_testFiles (position : Nat) :
    PathPattern.readAtoms 8 position (some '/') "**/*.lox".toList =
      .ok (.directories :: testFileAtoms) :=
  rfl

theorem Plan.atomsOf_pattern {p : Plan} (hne : p.directory ≠ "")
    (h : ∀ c ∈ p.directory.toList, IsLiteral c) :
    ∃ atoms, PathPattern.atomsOf p.pattern = .ok atoms := by
  have htext : ∀ c ∈ (withoutSlash p.directory).toList ++ ['/'], IsLiteral c := by
    intro c hc
    rcases List.mem_append.1 hc with hc | hc
    · exact h c (mem_of_mem_withoutSlash hc)
    · rw [List.mem_singleton.1 hc]
      decide
  have hread := PathPattern.readAtoms_append htext 8 0 none "**/*.lox".toList
  rw [List.getLast?_concat, Option.some_or, readAtoms_testFiles] at hread
  have hpattern : p.pattern.toList =
      (withoutSlash p.directory).toList ++ ['/'] ++ "**/*.lox".toList := by
    rw [Plan.pattern_eq hne, String.toList_append, String.toList_append]
    rfl
  rw [PathPattern.atomsOf, ← String.length_toList, hpattern, List.length_append]
  exact ⟨_, hread⟩

/-- The components of the pattern, if no character of the directory has a meaning of its own. -/
theorem Plan.ofText_pattern {p : Plan} (hne : p.directory ≠ "")
    (h : ∀ c ∈ p.directory.toList, IsLiteral c) :
    PathPattern.ofText p.pattern =
      .ok ⟨isAbsolute p.directory, (followedSteps p.directory).map .name ++
        [.directories, .wildcard testFileAtoms]⟩ := by
  obtain ⟨atoms, hatoms⟩ := Plan.atomsOf_pattern hne h
  have hliteral : ∀ step ∈ followedSteps p.directory, ∀ c ∈ step.toList, IsLiteral c := by
    intro step hstep c hc
    have hmem : step ∈ stepsOf p.directory := by
      rw [followedSteps] at hstep
      split at hstep
      · exact List.mem_of_mem_drop hstep
      · exact hstep
    exact h c (mem_of_mem_withoutSlash (mem_of_mem_fields hmem hc))
  have hfields : (if isAbsolute p.pattern then (fields '/' p.pattern).drop 1
      else fields '/' p.pattern) = followedSteps p.directory ++ ["**", "*.lox"] := by
    rw [Plan.isAbsolute_pattern hne, Plan.fields_pattern hne, followedSteps]
    split
    · rw [List.drop_append_of_le_length]
      exact List.length_pos_iff.2 (fields_ne_nil '/' _)
    · rfl
  rw [PathPattern.ofText, hatoms]
  change ((if isAbsolute p.pattern then (fields '/' p.pattern).drop 1
      else fields '/' p.pattern).mapM Component.ofText >>= fun components ↦
        Except.ok (PathPattern.mk (isAbsolute p.pattern) components)) = _
  rw [hfields, mapM_ofText_append hliteral, Plan.isAbsolute_pattern hne]
  rfl

end LoxScan.Suite
