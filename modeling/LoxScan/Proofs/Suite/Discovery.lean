import LoxScan.Proofs.FileTree.Names
import LoxScan.Proofs.Suite.DirectoryPattern

/-!
# Discovery of test files

A walk along the components of a directory reaches the place where the directory is.  The names that
it shows are those components, without the ones that add nothing.  From there every entry at any
depth is visited once, so the paths that the pattern of a suite describes are those of the test
files below its directory.
-/

namespace LoxScan.Suite

open FileTree (Directory IsName Node Place)
open PathPattern (Atom Component IsLiteral testFileAtoms)
open Text.Split

namespace Site

/-- The names that are shown one component further. -/
def shownStep (names : List String) (step : String) : List String :=
  if step = "" ∨ step = "." ∧ names = [] then names else names ++ [step]

variable {names steps : List String} {step : String} {start place next last : Place} {s : Site}

theorem shownStep_of_ne (hnone : step ≠ "") (hdot : step ≠ ".") (names : List String) :
    shownStep names step = names ++ [step] :=
  if_neg (by simp [hnone, hdot])

theorem eq_nil_of_shownStep (h : shownStep names step = []) :
    names = [] ∧ (step = "" ∨ step = ".") := by
  rw [shownStep] at h
  split at h
  · next hstays => exact ⟨h, hstays.imp_right And.left⟩
  · simp at h

theorem sizeOfNames_shownStep_le (names : List String) (step : String) :
    sizeOfNames (shownStep names step) ≤ sizeOfNames names + sizeOfNames [step] := by
  rw [shownStep]
  split
  · exact Nat.le_add_right _ _
  · exact Nat.le_of_eq (sizeOfNames_append names [step])

theorem mem_foldl_shownStep {name : String} (h : name ∈ steps.foldl shownStep names) :
    name ∈ names ∨ name ∈ steps ∧ name ≠ "" := by
  induction steps generalizing names with
  | nil => exact .inl h
  | cons step steps ih =>
    rcases ih h with h | ⟨hsteps, hne⟩
    · rw [shownStep] at h
      split at h
      · exact .inl h
      · next hshown =>
        rcases List.mem_append.1 h with h | h
        · exact .inl h
        · obtain rfl := List.mem_singleton.1 h
          exact .inr ⟨List.mem_cons_self, fun hnone ↦ hshown (.inl hnone)⟩
    · exact .inr ⟨List.mem_cons_of_mem _ hsteps, hne⟩

theorem eq_of_step_of_stays (hstep : Place.step place step = .ok next)
    (hstays : step = "" ∨ step = ".") : next = place := by
  rcases Place.step_cases hstep with ⟨-, ⟨-, heq⟩ | ⟨rfl, -⟩ | ⟨hempty, hdot, -⟩⟩
  · exact heq
  · exact absurd hstays (by decide)
  · exact absurd hstays (not_or.2 ⟨hempty, hdot⟩)

theorem at?_eq_some (hne : names ≠ []) (hsize : sizeOfNames names ≤ Place.pathLimit + 1) :
    at? names place = some ⟨names, place⟩ := by
  have hpath := utf8ByteSize_intercalate hne
  rw [at?]
  exact if_neg (by simp only [path]; omega)

/-- A component that leads somewhere is followed by a walk, unless it is empty and the first. -/
theorem named?_of_step (hstep : Place.step s.place step = .ok place)
    (hempty : step = "" → s.names ≠ [])
    (hsize : sizeOfNames s.names + sizeOfNames [step] ≤ Place.pathLimit + 1) :
    s.named? step = some ⟨shownStep s.names step, place⟩ := by
  have hat : at? (s.names ++ [step]) place = some ⟨s.names ++ [step], place⟩ := by
    apply at?_eq_some (by simp)
    rwa [sizeOfNames_append]
  rcases Place.step_cases hstep with
    ⟨hdirectory, ⟨rfl | rfl, rfl⟩ | ⟨rfl, rfl⟩ | ⟨hnone, hdot, hdots, hchild⟩⟩
  · rw [named?, if_pos rfl, if_neg (by simp [hempty rfl, hdirectory]), shownStep,
      if_pos (.inl rfl)]
  · rw [named?, if_neg (by decide), if_pos rfl, if_neg (by simp [hdirectory]), shownStep]
    split
    · next hnames => rw [if_pos (.inr ⟨rfl, List.isEmpty_iff.1 hnames⟩)]
    · next hnames =>
      rw [if_neg (by simpa using hnames)]
      exact hat
  · rw [named?, if_neg (by decide), if_neg (by decide), if_pos rfl, if_neg (by simp [hdirectory]),
      shownStep_of_ne (by decide) (by decide)]
    exact hat
  · rw [named?, if_neg hnone, if_neg hdot, if_neg hdots, hchild, shownStep_of_ne hnone hdot]
    exact hat

/-- Components that lead to a place are followed by a walk, unless the first that the walk would
show is empty. -/
theorem walk_names (hsteps : steps.foldlM Place.step s.place = .ok place)
    (hfront : s.names = [] → (steps.dropWhile (· = ".")).head? ≠ some "")
    (hsize : sizeOfNames s.names + sizeOfNames steps ≤ Place.pathLimit + 1)
    (rest : List Component) :
    walk (steps.map .name ++ rest) s = walk rest ⟨steps.foldl shownStep s.names, place⟩ := by
  induction steps generalizing s with
  | nil =>
    cases hsteps
    rfl
  | cons step steps ih =>
    obtain ⟨next, hstep, hlater⟩ := Place.exists_step_of_foldlM_cons hsteps
    have hsizes : sizeOfNames (step :: steps) = sizeOfNames [step] + sizeOfNames steps := by
      simp [sizeOfNames]
    have hempty : step = "" → s.names ≠ [] := by
      rintro rfl hnames
      exact hfront hnames rfl
    have hnamed := named?_of_step hstep hempty (by omega)
    have hle := sizeOfNames_shownStep_le s.names step
    rw [List.map_cons, List.cons_append, walk, hnamed]
    simp only [Option.toList_some, List.flatMap_singleton, List.foldl_cons]
    refine ih hlater (fun hnames ↦ ?_) (by simp only; omega)
    obtain ⟨hnil, hstays⟩ := eq_nil_of_shownStep hnames
    have hdot : step = "." := hstays.resolve_left fun hnone ↦ hempty hnone hnil
    have hfront := hfront hnil
    rwa [List.dropWhile_cons_of_pos (by simpa using hdot)] at hfront

/-- Nothing is reached by an empty component if nothing has been shown before it. -/
theorem walk_eq_nil (hnames : s.names = []) (h : (steps.dropWhile (· = ".")).head? = some "")
    (rest : List Component) : walk (steps.map .name ++ rest) s = [] := by
  induction steps with
  | nil => cases h
  | cons step steps ih =>
    rw [List.map_cons, List.cons_append, walk]
    by_cases hdot : step = "."
    · rw [List.dropWhile_cons_of_pos (by simpa using hdot)] at h
      rw [named?, if_neg (by simp [hdot]), if_pos hdot, hnames]
      split
      · rfl
      · exact (List.flatMap_singleton ..).trans (ih h)
    · rw [List.dropWhile_cons_of_neg (by simpa using hdot)] at h
      rw [named?, if_pos (Option.some.inj h), if_pos (.inl (by simp [hnames]))]
      rfl

/-- The names that are shown lead where the components do. -/
theorem foldlM_shown (hnames : names.foldlM Place.step start = .ok place)
    (hsteps : steps.foldlM Place.step place = .ok last) :
    (steps.foldl shownStep names).foldlM Place.step start = .ok last := by
  induction steps generalizing names place with
  | nil =>
    cases hsteps
    exact hnames
  | cons step steps ih =>
    obtain ⟨next, hstep, hlater⟩ := Place.exists_step_of_foldlM_cons hsteps
    refine ih ?_ hlater
    rw [shownStep]
    split
    · next hstays =>
      rw [eq_of_step_of_stays hstep (hstays.imp_right And.left)]
      exact hnames
    · rw [List.foldlM_append, hnames]
      change ([step].foldlM Place.step place) = _
      rw [List.foldlM_cons, hstep]
      rfl

mutual

theorem map_names_below (names : List String) (above : List Directory) : ∀ node : Node,
    (below names above node).map Site.names = node.routes.map (names ++ ·)
  | .directory entries => map_names_belowEntries names (entries :: above) entries
  | .file _ => rfl
  | .program _ => rfl

theorem map_names_belowEntries (names : List String) (above : List Directory) :
    ∀ d : Directory, (belowEntries names above d).map Site.names = d.routes.map (names ++ ·)
  | .empty => rfl
  | .entry name node later => by
    rw [belowEntries, Directory.routes, List.map_append, List.map_append, List.map_cons,
      map_names_below (names ++ [name]) above node, map_names_belowEntries names above later,
      List.map_cons, List.map_map]
    simp only [Function.comp_def, List.append_assoc, List.cons_append, List.nil_append]

end

theorem map_names_descendants (s : Site) :
    s.descendants.map Site.names = s.place.routes.map (s.names ++ ·) := by
  exact map_names_below s.names s.place.above s.place.node

/-- What `**` and a description of names lead to. -/
theorem map_path_walk (s : Site) (atoms : List Atom) :
    (walk [.directories, .wildcard atoms] s).map path =
      (s.place.routes.filter fun names ↦
          PathPattern.describes atoms (names.getLast?.getD "").toList).map
        fun names ↦ String.intercalate "/" (s.names ++ names) := by
  have hflat (sites : List Site) : sites.flatMap (walk []) = sites := List.flatMap_singleton' sites
  let isWanted (names : List String) : Bool :=
    PathPattern.describes atoms (names.getLast?.getD "").toList
  have hlast : ∀ names ∈ s.place.routes, isWanted (s.names ++ names) = isWanted names := by
    intro names hnames
    have hne : names ≠ [] := fun h ↦ s.place.nil_not_mem_routes (h ▸ hnames)
    simp only [isWanted, List.getLast?_append_of_ne_nil _ hne]
  calc (walk [.directories, .wildcard atoms] s).map path
      = (s.descendants.filter fun d ↦ isWanted d.names).map path := by
        rw [walk, hflat]
        · rfl
        · simp
    _ = ((s.descendants.map Site.names).filter isWanted).map (String.intercalate "/") := by
        rw [List.filter_map, List.map_map]
        rfl
    _ = ((s.place.routes.filter isWanted).map (s.names ++ ·)).map (String.intercalate "/") := by
        rw [map_names_descendants, List.filter_map]
        congr 2
        exact List.filter_congr hlast
    _ = (s.place.routes.filter isWanted).map
          fun names ↦ String.intercalate "/" (s.names ++ names) := by
        rw [List.map_map]
        rfl

end Site

/-! ## The directory of a suite -/

/-- Where a path is followed from. -/
def startOf (tree : FileTree) (path : String) : Place :=
  if isAbsolute path then Place.root tree else Place.working tree

/-- The names that are shown before any component has been followed. -/
def startNames (path : String) : List String := if isAbsolute path then [""] else []

/-- The names that are shown in front of those below a directory. -/
def shownSteps (directory : String) : List String :=
  (followedSteps directory).foldl Site.shownStep (startNames directory)

/-- The path that is shown for what names lead to from a directory. -/
def pathBelow (directory : String) (names : List String) : String :=
  String.intercalate "/" (shownSteps directory ++ names)

/-- The spelling of a directory has no empty component right behind components `.` in front. -/
def HasPlainFront (directory : String) : Prop :=
  isAbsolute directory = false → ((stepsOf directory).dropWhile (· = ".")).head? ≠ some ""

instance (directory : String) : Decidable (HasPlainFront directory) :=
  inferInstanceAs (Decidable (_ → _))

variable {tree : FileTree} {directory : String} {place : Place}

theorem find_eq_ok (h : Place.find tree directory = .ok place) :
    directory ≠ "" ∧ directory.utf8ByteSize ≤ Place.pathLimit ∧
      (fields '/' directory).foldlM Place.step (startOf tree directory) = .ok place := by
  rw [Place.find] at h
  split at h
  · cases h
  next hne =>
  split at h
  · cases h
  next hsize =>
  refine ⟨hne, Nat.le_of_not_lt hsize, ?_⟩
  simpa [startOf, isAbsolute] using h

theorem foldlM_stepsOf (h : Place.find tree directory = .ok place) :
    (stepsOf directory).foldlM Place.step (startOf tree directory) = .ok place := by
  obtain ⟨-, -, hfields⟩ := find_eq_ok h
  rcases fields_eq_stepsOf directory with heq | heq
  · rwa [heq] at hfields
  · rw [heq, List.foldlM_append] at hfields
    cases hsteps : (stepsOf directory).foldlM Place.step (startOf tree directory) with
    | error refusal =>
      rw [hsteps] at hfields
      cases hfields
    | ok last =>
      rw [hsteps] at hfields
      obtain ⟨next, hstep, hnil⟩ := Place.exists_step_of_foldlM_cons hfields
      cases hnil
      rw [Site.eq_of_step_of_stays hstep (.inl rfl)]

theorem wellFormed_of_find (htree : tree.WellFormed)
    (h : Place.find tree directory = .ok place) : place.WellFormed := by
  refine Place.WellFormed.foldlM_step ?_ (find_eq_ok h).2.2
  rw [startOf]
  split
  · exact Place.wellFormed_root htree
  · exact Place.wellFormed_working htree

/-- The components of a directory lead where the directory is. -/
theorem foldlM_followedSteps (h : Place.find tree directory = .ok place) :
    (followedSteps directory).foldlM Place.step (startOf tree directory) = .ok place := by
  have hsteps := foldlM_stepsOf h
  rw [followedSteps]
  split
  · next habsolute =>
    have hhead := (head?_stepsOf_eq_empty (find_eq_ok h).1).2 habsolute
    obtain ⟨rest, hrest⟩ := List.head?_eq_some_iff.1 hhead
    rw [hrest] at hsteps
    obtain ⟨next, hstep, hlater⟩ := Place.exists_step_of_foldlM_cons hsteps
    rw [Site.eq_of_step_of_stays hstep (.inl rfl)] at hlater
    rwa [hrest]
  · exact hsteps

theorem sizeOfNames_startNames_add_le (h : directory ≠ "") :
    sizeOfNames (startNames directory) + sizeOfNames (followedSteps directory) ≤
      directory.utf8ByteSize + 1 := by
  have hsteps : sizeOfNames (startNames directory) + sizeOfNames (followedSteps directory) =
      sizeOfNames (stepsOf directory) := by
    rw [startNames, followedSteps]
    split
    · next habsolute =>
      obtain ⟨rest, hrest⟩ := List.head?_eq_some_iff.1 ((head?_stepsOf_eq_empty h).2 habsolute)
      simp [hrest, sizeOfNames]
    · exact Nat.zero_add _
  rw [hsteps, ← sizeOfNames_fields]
  rcases fields_eq_stepsOf directory with heq | heq
  · exact Nat.le_of_eq (congrArg sizeOfNames heq).symm
  · rw [heq, sizeOfNames_append]
    exact Nat.le_add_right _ _

/-- The test files that are discovered, with the paths by which they are shown. -/
theorem paths_eq (hfront : HasPlainFront directory)
    (hfind : Place.find tree directory = .ok place) :
    (PathPattern.mk (isAbsolute directory) ((followedSteps directory).map .name ++
        [.directories, .wildcard testFileAtoms])).paths tree =
      (place.routes.filter fun names ↦
          PathPattern.describes testFileAtoms (names.getLast?.getD "").toList).map
        (pathBelow directory) := by
  obtain ⟨hne, hlimit, -⟩ := find_eq_ok hfind
  have hsize := sizeOfNames_startNames_add_le hne
  let start : Site := ⟨startNames directory, startOf tree directory⟩
  have hstart : (if isAbsolute directory then ⟨[""], Place.root tree⟩
      else ⟨[], Place.working tree⟩) = start := by
    simp only [start, startNames, startOf]
    split <;> rfl
  have hplain : start.names = [] →
      ((followedSteps directory).dropWhile (· = ".")).head? ≠ some "" := by
    intro hnames
    have hrelative : isAbsolute directory = false := by
      simpa [start, startNames] using hnames
    rw [followedSteps, if_neg (by simp [hrelative])]
    exact hfront hrelative
  have hlimits : sizeOfNames start.names + sizeOfNames (followedSteps directory) ≤
      Place.pathLimit + 1 :=
    Nat.le_trans hsize (Nat.succ_le_succ hlimit)
  simp only [PathPattern.paths, hstart]
  rw [Site.walk_names (foldlM_followedSteps hfind) hplain hlimits, Site.map_path_walk]
  rfl

theorem paths_eq_nil (hfront : ¬ HasPlainFront directory) (rest : List Component) :
    (PathPattern.mk (isAbsolute directory) ((followedSteps directory).map .name ++ rest)).paths
      tree = [] := by
  rw [HasPlainFront, Classical.not_imp, not_not] at hfront
  obtain ⟨hrelative, hhead⟩ := hfront
  have hsteps : followedSteps directory = stepsOf directory := by
    rw [followedSteps, if_neg (by simp [hrelative])]
  rw [PathPattern.paths, hsteps, hrelative]
  exact congrArg (List.map Site.path) (Site.walk_eq_nil rfl hhead rest)

theorem shownSteps_of_relative (h : isAbsolute directory = false) :
    shownSteps directory = (stepsOf directory).foldl Site.shownStep [] := by
  simp [shownSteps, followedSteps, startNames, h]

theorem shownSteps_of_absolute (h : isAbsolute directory = true) :
    ∃ rest, shownSteps directory = "" :: rest := by
  have hshown (steps names : List String) :
      ∃ rest, steps.foldl Site.shownStep ("" :: names) = "" :: rest := by
    induction steps generalizing names with
    | nil => exact ⟨names, rfl⟩
    | cons step steps ih =>
      rw [List.foldl_cons, Site.shownStep]
      split
      · exact ih names
      · exact ih (names ++ [step])
  rw [shownSteps, startNames, if_pos h]
  exact hshown _ []

theorem separator_not_mem_shownSteps {name : String} (h : name ∈ shownSteps directory) :
    '/' ∉ name.toList := by
  rcases Site.mem_foldl_shownStep h with h | ⟨h, -⟩
  · rw [startNames] at h
    split at h
    · rw [List.mem_singleton.1 h]
      decide
    · cases h
  · rw [followedSteps] at h
    split at h
    · exact separator_not_mem_fields (List.mem_of_mem_drop h)
    · exact separator_not_mem_fields h

/-- The names that are shown lead where the directory is. -/
theorem foldlM_shownSteps (h : Place.find tree directory = .ok place) :
    (shownSteps directory).foldlM Place.step (startOf tree directory) = .ok place := by
  refine Site.foldlM_shown ?_ (foldlM_followedSteps h)
  rw [startNames, startOf]
  split <;> rfl

section Names

variable {names : List String} (hne : names ≠ []) (hnames : ∀ name ∈ names, IsName name)
include hne hnames

/-- The path that is shown for some names is read back as these, behind those that are shown in
front of them. -/
theorem fields_pathBelow (directory : String) :
    fields '/' (pathBelow directory names) = shownSteps directory ++ names := by
  apply fields_intercalate (by simp [hne])
  intro name hname
  rcases List.mem_append.1 hname with h | h
  · exact separator_not_mem_shownSteps h
  · exact (hnames name h).slash

theorem isAbsolute_pathBelow (directory : String) :
    isAbsolute (pathBelow directory names) = isAbsolute directory := by
  have hfields := fields_pathBelow hne hnames directory
  have hpath : pathBelow directory names ≠ "" := by
    intro hempty
    rw [hempty, show fields '/' "" = [""] from rfl] at hfields
    obtain ⟨name, later, rfl⟩ := List.exists_cons_of_ne_nil hne
    have hname : name ∈ [""] := hfields ▸ List.mem_append_right _ List.mem_cons_self
    exact (hnames name List.mem_cons_self).ne_empty (List.mem_singleton.1 hname)
  have hhead : (shownSteps directory ++ names).head? = some "" ↔
      isAbsolute (pathBelow directory names) = true := by
    rw [← hfields, head?_fields_eq_empty, isAbsolute_iff, or_iff_right hpath]
  rw [Bool.eq_iff_iff, ← hhead]
  cases habsolute : isAbsolute directory with
  | true =>
    obtain ⟨rest, hrest⟩ := shownSteps_of_absolute habsolute
    simp [hrest]
  | false =>
    refine iff_of_false (fun hempty ↦ ?_) (by simp)
    rw [shownSteps_of_relative habsolute] at hempty
    rcases List.mem_append.1 (List.mem_of_mem_head? hempty) with h | h
    · exact ((Site.mem_foldl_shownStep h).resolve_left List.not_mem_nil).2 rfl
    · exact (hnames "" h).ne_empty rfl

end Names

variable {names : List String}

/-- A path that is shown leads where its names lead from the directory. -/
theorem foldlM_of_find_pathBelow {last : Place} (hfind : Place.find tree directory = .ok place)
    (hplace : place.WellFormed) (hnames : names ∈ place.routes)
    (hbelow : Place.find tree (pathBelow directory names) = .ok last) :
    names.foldlM Place.step place = .ok last := by
  have hne : names ≠ [] := fun h ↦ place.nil_not_mem_routes (h ▸ hnames)
  have hstart : startOf tree (pathBelow directory names) = startOf tree directory := by
    rw [startOf, isAbsolute_pathBelow hne (hplace.isName hnames), ← startOf]
  obtain ⟨-, -, hfields⟩ := find_eq_ok hbelow
  rw [fields_pathBelow hne (hplace.isName hnames), hstart, List.foldlM_append,
    foldlM_shownSteps hfind] at hfields
  exact hfields

/-- Different names are shown by different paths. -/
theorem nodup_map_pathBelow (hplace : place.WellFormed) {files : List (List String)}
    (hfiles : files.Sublist place.routes) (directory : String) :
    (files.map (pathBelow directory)).Nodup := by
  have hfields : ∀ names ∈ files,
      fields '/' (pathBelow directory names) = shownSteps directory ++ names := fun names hnames ↦
    fields_pathBelow (fun h ↦ place.nil_not_mem_routes (hfiles.subset (h ▸ hnames)))
      (hplace.isName (hfiles.subset hnames)) directory
  refine (hplace.nodup_routes.sublist hfiles).map_on fun names h other h' heq ↦ ?_
  have heq := congrArg (fields '/') heq
  rw [hfields names h, hfields other h'] at heq
  exact List.append_cancel_left heq

end LoxScan.Suite
