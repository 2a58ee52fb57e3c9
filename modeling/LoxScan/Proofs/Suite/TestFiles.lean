import LoxScan.Proofs.Suite.RelativePaths
import LoxScan.Proofs.Suite.Tally

/-!
# The test files of a suite

A suite run that comes to its end has counted the test files below its directory, each of them once,
and with a filter those of them whose path in the directory begins with it.  This is so if the
spelling of the directory stands for itself in the pattern and in the paths that are compared.  With
characters that patterns give a meaning to, or with a component `.` in front of others, a run can
succeed without having taken any test.
-/

namespace LoxScan.Suite

open FileTree (Directory IsName Leads Node Place)
open PathPattern (IsLiteral testFileAtoms)
open Text (Utf8.encode)
open Text.Split

/-- Names that lead from a place to an entry that is named like a test file. -/
def LeadsToTestFile (place : Place) (names : List String) : Prop :=
  ∃ d node name, place.entries? = some d ∧ Leads d names node ∧
    names.getLast? = some name ∧ ".lox".toList <:+ name.toList

/-- The names that lead to test files, in the order in which a walk visits these. -/
def testFiles (place : Place) : List (List String) :=
  place.routes.filter fun names ↦
    PathPattern.describes testFileAtoms (names.getLast?.getD "").toList

/-- The names that lead to the test files that a walk discovers if the directory is at a place. -/
def discovered (directory : String) (place : Place) : List (List String) :=
  if HasPlainFront directory then testFiles place else []

theorem mem_testFiles_iff {place : Place} {names : List String} :
    names ∈ testFiles place ↔ LeadsToTestFile place names := by
  rw [testFiles, List.mem_filter, Place.mem_routes_iff, testFileAtoms,
    PathPattern.describes_anyRun_map_char]
  constructor
  · rintro ⟨⟨d, node, hentries, hleads⟩, hsuffix⟩
    cases hlast : names.getLast? with
    | none =>
      rw [hlast] at hsuffix
      exact absurd hsuffix (by decide)
    | some name =>
      rw [hlast] at hsuffix
      exact ⟨d, node, name, hentries, hleads, hlast, hsuffix⟩
  · rintro ⟨d, node, name, hentries, hleads, hlast, hsuffix⟩
    rw [hlast]
    exact ⟨⟨d, node, hentries, hleads⟩, hsuffix⟩

theorem discovered_sublist (directory : String) (place : Place) :
    (discovered directory place).Sublist place.routes := by
  rw [discovered]
  split
  · exact List.filter_sublist
  · exact List.nil_sublist _

/-- A run with a plan has counted the files to which some names lead from a place: it has taken
them one after the other, under different paths, each path is that of a file with these contents,
and each file counts as what became of it. -/
structure Counted (w : Surroundings) (p : Plan) (place : Place) (files : List (List String))
    (c : Counters) : Prop where
  nodup : (files.map (pathBelow p.directory)).Nodup
  run : ∃ s, RunState.runTests ⟨Counters.zero, "\n"⟩ w p.binary
    (files.map (pathBelow p.directory)) = (s, .ok ()) ∧ s.counters = c
  contents : ∀ names ∈ files, ∃ d contents, place.entries? = some d ∧
    Leads d names (.file contents) ∧ w.read (pathBelow p.directory names) = .ok contents
  tallies : c.Tallies w p.binary (files.map (pathBelow p.directory))

variable {p : Plan} {w : Surroundings} {tree : FileTree} {place : Place} {s : RunState}
  {success : Bool}

theorem Plan.runTests_of_runPaths {paths : List String}
    (h : p.runPaths w paths = (s, .ok success)) :
    ∃ t, RunState.runTests ⟨Counters.zero, "\n"⟩ w p.binary (paths.filter p.accepts) = (t, .ok ()) ∧
      t.counters = s.counters := by
  rw [Plan.runPaths] at h
  split at h
  · cases h
  · next t hrun =>
    cases h
    exact ⟨t, hrun, rfl⟩

theorem Plan.exists_run_eq {result : Except RunError Bool} (h : (p.run w tree).2 = result) :
    ∃ s, p.run w tree = (s, result) :=
  ⟨_, Prod.ext rfl h⟩

/-- The files that a successful run has taken are those that a walk discovers. -/
theorem Plan.runPaths_of_run
    (hliteral : ∀ c ∈ p.directory.toList, IsLiteral c)
    (hfind : Place.find tree p.directory = .ok place) (hrun : p.run w tree = (s, .ok success)) :
    p.runPaths w ((discovered p.directory place).map (pathBelow p.directory)) =
      (s, .ok success) := by
  have hpaths : (PathPattern.mk (isAbsolute p.directory) ((followedSteps p.directory).map .name ++
      [.directories, .wildcard testFileAtoms])).paths tree =
        (discovered p.directory place).map (pathBelow p.directory) := by
    rw [discovered]
    split
    · next hfront => exact paths_eq hfront hfind
    · next hfront => exact paths_eq_nil hfront _
  rw [Plan.run, Plan.ofText_pattern (find_eq_ok hfind).1 hliteral] at hrun
  simp only [hpaths] at hrun
  rcases hresult : p.runPaths w ((discovered p.directory place).map (pathBelow p.directory)) with
    ⟨t, error | _⟩ <;> rw [hresult] at hrun <;> cases hrun
  rfl

/-- Only what can be read and is text becomes something, so no program does. -/
theorem exists_find_of_standing (hw : w.read = FileTree.read tree) {binary path : String}
    (h : (standing? w binary path).isSome) :
    ∃ contents above, w.read path = .ok contents ∧
      Place.find tree path = .ok ⟨.file contents, above⟩ := by
  cases hread : w.read path with
  | error error =>
    rw [standing?, hread] at h
    cases h
  | ok contents =>
    have hcontents := hread
    rw [hw, FileTree.read] at hcontents
    split at hcontents
    · cases hcontents
    split at hcontents
    · next above hfound =>
      cases hcontents
      exact ⟨contents, above, rfl, hfound⟩
    · cases hcontents
      rw [standing?, hread] at h
      cases h
    · cases hcontents
    · cases hcontents

/-- What is read under the path that is shown for some names is in the file that they lead to. -/
theorem exists_contents_of_standing (hw : w.read = FileTree.read tree)
    (hfind : Place.find tree p.directory = .ok place) (hplace : place.WellFormed)
    {names : List String} (hnames : names ∈ place.routes) {binary : String}
    (h : (standing? w binary (pathBelow p.directory names)).isSome) :
    ∃ d contents, place.entries? = some d ∧ Leads d names (.file contents) ∧
      w.read (pathBelow p.directory names) = .ok contents := by
  obtain ⟨d, node, hentries, hleads⟩ := Place.mem_routes_iff.1 hnames
  obtain ⟨contents, above, hcontents, hfound⟩ := exists_find_of_standing hw h
  have hlast := foldlM_of_find_pathBelow hfind hplace hnames hfound
  obtain rfl : .file contents = node :=
    hleads.node_eq_of_foldlM (hplace.entries hentries) hentries hlast
  exact ⟨d, contents, hentries, hleads, hcontents⟩

/-- A run over the test files that a plan accepts has counted them. -/
theorem counted_of_run (htree : tree.WellFormed)
    (hfind : Place.find tree p.directory = .ok place)
    (hliteral : ∀ c ∈ p.directory.toList, IsLiteral c)
    (hw : w.read = FileTree.read tree) (hrun : p.run w tree = (s, .ok success)) :
    Counted w p place
      ((discovered p.directory place).filter fun names ↦ p.accepts (pathBelow p.directory names))
      s.counters := by
  let files := (discovered p.directory place).filter fun names ↦
    p.accepts (pathBelow p.directory names)
  have hplace := wellFormed_of_find htree hfind
  have hfiles : files.Sublist place.routes :=
    List.filter_sublist.trans (discovered_sublist p.directory place)
  have hpaths : ((discovered p.directory place).map (pathBelow p.directory)).filter p.accepts =
      files.map (pathBelow p.directory) := List.filter_map
  obtain ⟨t, ht, hcounters⟩ :=
    Plan.runTests_of_runPaths (Plan.runPaths_of_run hliteral hfind hrun)
  rw [hpaths] at ht
  have htallies := tallies_of_runTests rfl ht
  rw [hcounters] at htallies
  refine ⟨nodup_map_pathBelow hplace hfiles p.directory, ⟨t, ht, hcounters⟩, fun names hnames ↦ ?_,
    htallies⟩
  exact exists_contents_of_standing hw hfind hplace (hfiles.subset hnames)
    (htallies.read _ (List.mem_map_of_mem hnames))

/-- A run without a filter that comes to its end has counted every test file below its directory,
at any depth, if the directory is spelled in characters that stand for themselves and without an
empty component right behind dots in front.  With such a component nothing is counted. -/
theorem counted_of_no_filter (htree : tree.WellFormed)
    (hfind : Place.find tree p.directory = .ok place)
    (hliteral : ∀ c ∈ p.directory.toList, IsLiteral c) (hfilter : p.filter = none)
    (hw : w.read = FileTree.read tree) (hrun : p.run w tree = (s, .ok success)) :
    ∃ files, Counted w p place files s.counters ∧
      (HasPlainFront p.directory → ∀ names, names ∈ files ↔ LeadsToTestFile place names) ∧
      (¬ HasPlainFront p.directory → files = []) := by
  refine ⟨_, counted_of_run htree hfind hliteral hw hrun, fun hfront names ↦ ?_, fun hfront ↦ ?_⟩
  · rw [List.mem_filter, discovered, if_pos hfront, mem_testFiles_iff]
    simp [Plan.accepts, hfilter]
  · rw [discovered, if_neg hfront, List.filter_nil]

/-- A test file, another one further below that takes itself out, and a file of another name. -/
def sampleEntries : Directory :=
  .entry "a.lox" (.file (Utf8.encode "// expect: EOF  null\n"))
    (.entry "b" (.directory (.entry "c.lox" (.file (Utf8.encode "// nontest")) .empty))
      (.entry "notes" (.file []) .empty))

/-- The test files are in a directory below the working directory, which is below the root. -/
def sampleTree (directory : String) : FileTree :=
  let entries : Directory := .entry directory (.directory sampleEntries) .empty
  ⟨entries, [.entry "work" (.directory entries) .empty], ⟨"work", if_pos rfl⟩, trivial⟩

def samplePlace (directory : String) : Place :=
  ⟨.directory sampleEntries, (sampleTree directory).entries :: (sampleTree directory).above⟩

/-- Every program prints what is expected of an empty source. -/
def sampleSurroundings (tree : FileTree) : Surroundings :=
  ⟨FileTree.read tree, fun _ _ ↦ .ok ⟨Utf8.encode "EOF  null\n", [], some 0⟩, false⟩

theorem leadsToTestFile_samplePlace (directory : String) :
    LeadsToTestFile (samplePlace directory) ["a.lox"] ∧
      LeadsToTestFile (samplePlace directory) ["b", "c.lox"] :=
  ⟨⟨sampleEntries, _, "a.lox", rfl, .entry List.mem_cons_self, rfl, by decide⟩,
    ⟨sampleEntries, _, "c.lox", rfl, .inside (List.mem_cons_of_mem _ List.mem_cons_self)
      (.entry List.mem_cons_self), rfl, by decide⟩⟩

theorem wellFormed_sampleTree {directory : String} (h : IsName directory) :
    (sampleTree directory).WellFormed := by
  have hentries : sampleEntries.WellFormed := by
    refine ⟨by decide, by decide, trivial, by decide, by decide, ?_, by decide, by decide,
      trivial, trivial⟩
    exact ⟨by decide, by decide, trivial, trivial⟩
  exact ⟨by decide, List.not_mem_nil, ⟨h, List.not_mem_nil, hentries, trivial⟩, trivial⟩

theorem isLiteral_of_all {text : String}
    (h : text.toList.all (fun c ↦ decide (IsLiteral c)) = true) :
    ∀ c ∈ text.toList, IsLiteral c := by
  simpa only [List.all_eq_true, decide_eq_true_eq] using h

/-- A directory that is spelled from the root by a way around, with repeated slashes. -/
theorem counted_of_no_filter_way_around :
    let tree := sampleTree "samples"
    let p : Plan := ⟨"./rox", "/work/..//work/samples//", none⟩
    tree.WellFormed ∧ Place.find tree p.directory = .ok (samplePlace "samples") ∧
      (∀ c ∈ p.directory.toList, IsLiteral c) ∧ p.filter = none ∧
      (sampleSurroundings tree).read = FileTree.read tree ∧
      ∃ s files, p.run (sampleSurroundings tree) tree = (s, .ok true) ∧
        Counted (sampleSurroundings tree) p (samplePlace "samples") files s.counters ∧
        ∀ names, names ∈ files ↔ LeadsToTestFile (samplePlace "samples") names := by
  dsimp only
  have htree : (sampleTree "samples").WellFormed := wellFormed_sampleTree (by decide)
  have hfind : Place.find (sampleTree "samples") "/work/..//work/samples//" =
      .ok (samplePlace "samples") := rfl
  have hliteral : ∀ c ∈ "/work/..//work/samples//".toList, IsLiteral c :=
    isLiteral_of_all (by decide)
  have hsuccess : (Plan.run ⟨"./rox", "/work/..//work/samples//", none⟩
      (sampleSurroundings (sampleTree "samples")) (sampleTree "samples")).2 = .ok true := by
    decide +kernel
  obtain ⟨s, hrun⟩ := Plan.exists_run_eq hsuccess
  obtain ⟨files, hcounted, hfiles, -⟩ :=
    counted_of_no_filter (p := ⟨"./rox", "/work/..//work/samples//", none⟩) htree hfind hliteral rfl
      rfl hrun
  exact ⟨htree, hfind, hliteral, rfl, rfl, s, files, hrun, hcounted, hfiles (by decide)⟩

/-- Brackets in the name of a directory are taken for a list of characters: the run succeeds without
having counted the test files in it. -/
theorem run_bracketed_directory :
    let tree := sampleTree "a[b]"
    let p : Plan := ⟨"./rox", "a[b]", none⟩
    tree.WellFormed ∧ Place.find tree p.directory = .ok (samplePlace "a[b]") ∧
      LeadsToTestFile (samplePlace "a[b]") ["a.lox"] ∧
      LeadsToTestFile (samplePlace "a[b]") ["b", "c.lox"] ∧
      (p.run (sampleSurroundings tree) tree).2 = .ok true ∧
      (p.run (sampleSurroundings tree) tree).1.counters = Counters.zero := by
  dsimp only
  obtain ⟨hfirst, hsecond⟩ := leadsToTestFile_samplePlace "a[b]"
  exact ⟨wellFormed_sampleTree (by decide), rfl, hfirst, hsecond, by decide +kernel,
    by decide +kernel⟩

/-- A run with a filter that comes to its end has counted the test files below its directory whose
path there begins with the filter, if the directory is relative, is spelled in characters that stand
for themselves, and has a component `.` in front only if it has no others.  Otherwise the beginning
of a detour is compared with the filter. -/
theorem counted_of_filter (htree : tree.WellFormed)
    (hfind : Place.find tree p.directory = .ok place)
    (hliteral : ∀ c ∈ p.directory.toList, IsLiteral c)
    (hrelative : isAbsolute p.directory = false)
    {wanted : String} (hfilter : p.filter = some wanted)
    (hw : w.read = FileTree.read tree) (hrun : p.run w tree = (s, .ok success)) :
    ∃ files, Counted w p place files s.counters ∧
      (HasNamedFront p.directory → ∀ names, names ∈ files ↔ LeadsToTestFile place names ∧
        wanted.toList <+: (String.intercalate "/" names).toList) ∧
      (¬ HasNamedFront p.directory → ∀ names, names ∈ files ↔ HasPlainFront p.directory ∧
        LeadsToTestFile place names ∧ detour p.directory ≠ [] ∧
          wanted.toList <+: (String.intercalate "/" (detour p.directory ++ names)).toList) := by
  have hne := (find_eq_ok hfind).1
  have hplace := wellFormed_of_find htree hfind
  have hmem (names : List String) : names ∈ (discovered p.directory place).filter
        (fun names ↦ p.accepts (pathBelow p.directory names)) ↔
      HasPlainFront p.directory ∧ LeadsToTestFile place names ∧
        wanted.toList <+: (String.intercalate "/" (detour p.directory ++ names)).toList := by
    rw [List.mem_filter, discovered]
    by_cases hfront : HasPlainFront p.directory
    · rw [if_pos hfront, mem_testFiles_iff, and_iff_right hfront]
      refine and_congr_right fun hleads ↦ ?_
      have hroutes : names ∈ place.routes := by
        obtain ⟨d, node, name, hentries, hleads, -⟩ := hleads
        exact Place.mem_routes_iff.2 ⟨d, node, hentries, hleads⟩
      have hnil : names ≠ [] := fun h ↦ place.nil_not_mem_routes (h ▸ hroutes)
      rw [Plan.accepts, hfilter]
      simp only [between_pathBelow hrelative hfront hnil (hplace.isName hroutes),
        List.isPrefixOf_iff_prefix]
    · simp [hfront]
  refine ⟨_, counted_of_run htree hfind hliteral hw hrun, fun hnamed names ↦ ?_,
    fun hnamed names ↦ ?_⟩
  · have hfront := hnamed.hasPlainFront hrelative hne
    rw [hmem, (detour_eq_nil_iff hrelative hfront).2 hnamed, List.nil_append, and_iff_right hfront]
  · rw [hmem]
    refine and_congr_right fun hfront ↦ and_congr_right fun _ ↦ ?_
    rw [and_iff_right (mt (detour_eq_nil_iff hrelative hfront).1 hnamed)]

/-- A way around through the directory above the working directory, with a filter that takes the
file further below only. -/
theorem counted_of_filter_way_around :
    let tree := sampleTree "samples"
    let p : Plan := ⟨"./rox", "../work//samples//", some "b/"⟩
    tree.WellFormed ∧ Place.find tree p.directory = .ok (samplePlace "samples") ∧
      (∀ c ∈ p.directory.toList, IsLiteral c) ∧ isAbsolute p.directory = false ∧
      p.filter = some "b/" ∧ (sampleSurroundings tree).read = FileTree.read tree ∧
      ∃ s files, p.run (sampleSurroundings tree) tree = (s, .ok true) ∧
        Counted (sampleSurroundings tree) p (samplePlace "samples") files s.counters ∧
        ∀ names, names ∈ files ↔ LeadsToTestFile (samplePlace "samples") names ∧
          "b/".toList <+: (String.intercalate "/" names).toList := by
  dsimp only
  have htree : (sampleTree "samples").WellFormed := wellFormed_sampleTree (by decide)
  have hfind : Place.find (sampleTree "samples") "../work//samples//" =
      .ok (samplePlace "samples") := rfl
  have hliteral : ∀ c ∈ "../work//samples//".toList, IsLiteral c := isLiteral_of_all (by decide)
  have hrelative : isAbsolute "../work//samples//" = false := by decide
  have hsuccess : (Plan.run ⟨"./rox", "../work//samples//", some "b/"⟩
      (sampleSurroundings (sampleTree "samples")) (sampleTree "samples")).2 = .ok true := by
    decide +kernel
  obtain ⟨s, hrun⟩ := Plan.exists_run_eq hsuccess
  have hnamed : HasNamedFront "../work//samples//" := fun hhead ↦ absurd hhead (by decide)
  obtain ⟨files, hcounted, hfiles, -⟩ :=
    counted_of_filter (p := ⟨"./rox", "../work//samples//", some "b/"⟩) htree hfind hliteral
      hrelative rfl rfl hrun
  exact ⟨htree, hfind, hliteral, hrelative, rfl, rfl, s, files, hrun, hcounted, hfiles hnamed⟩

/-- With a component `.` in front, a file whose path in the directory begins with the filter is
passed over, and the run succeeds without having counted anything. -/
theorem run_dotted_directory :
    let tree := sampleTree "samples"
    let p : Plan := ⟨"./rox", "./samples", some "a"⟩
    tree.WellFormed ∧ Place.find tree p.directory = .ok (samplePlace "samples") ∧
      LeadsToTestFile (samplePlace "samples") ["a.lox"] ∧
      "a".toList <+: (String.intercalate "/" ["a.lox"]).toList ∧
      (p.run (sampleSurroundings tree) tree).2 = .ok true ∧
      (p.run (sampleSurroundings tree) tree).1.counters = Counters.zero := by
  dsimp only
  exact ⟨wellFormed_sampleTree (by decide), rfl, (leadsToTestFile_samplePlace "samples").1,
    by decide, by decide +kernel, by decide +kernel⟩

end LoxScan.Suite
