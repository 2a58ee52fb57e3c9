import LoxScan.Suite.Run

/-!
# Tallies of suite runs

A test file that can be read is passed, failed or skipped, and a run that comes to its end has
counted each of its files once, as what became of it.  A run that ends at a file that cannot be read
has counted the files in front of it and nothing else.  The counters go around at 2^32, and below
that they are the numbers themselves.
-/

namespace LoxScan.Suite

/-- What becomes of a test file. -/
inductive Standing where
  | passed
  | failed
  | skipped
deriving DecidableEq, Repr

/-- What becomes of the test file at a path, if it can be read. -/
def standing? (w : Surroundings) (binary path : String) : Option Standing :=
  match Expectations.ofFile (w.read path) with
  | (_, .error _) => none
  | (_, .ok false) => some .skipped
  | (expectations, .ok true) =>
    some (if (Verdict.ofRun expectations binary (w.launch binary path)).isEmpty then .passed
      else .failed)

/-- The expectations that a file adds to those of a run: all that were collected from it if it has
been passed or failed, and none otherwise. -/
def expectationsOf (w : Surroundings) (binary path : String) : UInt32 :=
  match standing? w binary path with
  | some .passed | some .failed => (Expectations.ofFile (w.read path)).1.count
  | _ => 0

/-- The expectations of all files together. -/
def expectationsIn (w : Surroundings) (binary : String) : List String → Nat
  | [] => 0
  | path :: paths => (expectationsOf w binary path).toNat + expectationsIn w binary paths

/-- The number of files that something became of. -/
def Counters.number (c : Counters) : Standing → UInt32
  | .passed => c.passed
  | .failed => c.failed
  | .skipped => c.skipped

variable {w : Surroundings} {binary : String}

namespace RunState

/-- A file that can be read is counted as what becomes of it, with its expectations. -/
theorem runTest_of_ok {s t : RunState} {path : String}
    (h : s.runTest w binary path = (t, .ok ())) :
    (∃ standing, standing? w binary path = some standing ∧
      ∀ other, t.counters.number other =
        s.counters.number other + if standing = other then 1 else 0) ∧
      t.counters.expectations = s.counters.expectations + expectationsOf w binary path := by
  rw [runTest] at h
  rw [expectationsOf, standing?]
  rcases hparse : Expectations.ofFile (w.read path) with ⟨expectations, error | isTest⟩
  · rw [hparse] at h
    cases h
  rw [hparse] at h
  cases isTest with
  | false =>
    cases h
    refine ⟨⟨.skipped, rfl, fun other ↦ ?_⟩, (UInt32.add_zero _).symm⟩
    cases other <;> simp [showing, Counters.skip, Counters.number]
  | true =>
    dsimp only at h ⊢
    by_cases hempty : (Verdict.ofRun expectations binary (w.launch binary path)).isEmpty
    · rw [if_pos hempty] at h ⊢
      cases h
      refine ⟨⟨.passed, rfl, fun other ↦ ?_⟩, by simp [showing, Counters.count, hempty]⟩
      cases other <;> simp [showing, Counters.count, Counters.number, hempty]
    · rw [if_neg hempty] at h ⊢
      cases h
      refine ⟨⟨.failed, rfl, fun other ↦ ?_⟩, by simp [showing, Counters.count, hempty]⟩
      cases other <;> simp [showing, Counters.count, Counters.number, hempty]

/-- A file that cannot be read leaves the counters as they were. -/
theorem runTest_of_error {s t : RunState} {path : String} {error : IoError}
    (h : s.runTest w binary path = (t, .error error)) :
    (Expectations.ofFile (w.read path)).2 = .error error ∧ t.counters = s.counters := by
  rw [runTest] at h
  rcases hparse : Expectations.ofFile (w.read path) with ⟨expectations, failure | isTest⟩
  · rw [hparse] at h
    cases h
    exact ⟨rfl, rfl⟩
  rw [hparse] at h
  cases isTest with
  | false => cases h
  | true =>
    dsimp only at h
    split at h <;> cases h

/-- A run that comes to its end has counted each file once. -/
theorem runTests_of_ok {s t : RunState} {paths : List String}
    (h : s.runTests w binary paths = (t, .ok ())) :
    (∀ path ∈ paths, (standing? w binary path).isSome) ∧
      (∀ standing, t.counters.number standing =
        s.counters.number standing +
          UInt32.ofNat (paths.countP fun path ↦ standing? w binary path = some standing)) ∧
      t.counters.expectations =
        s.counters.expectations + UInt32.ofNat (expectationsIn w binary paths) := by
  induction paths generalizing s with
  | nil =>
    cases h
    simp [expectationsIn]
  | cons path paths ih =>
    rw [runTests] at h
    split at h
    · cases h
    · next next hnext =>
      obtain ⟨⟨standing, hstanding, hnumber⟩, hexpectations⟩ := runTest_of_ok hnext
      obtain ⟨hread, hcount, hsum⟩ := ih h
      refine ⟨List.forall_mem_cons.2 ⟨by rw [hstanding]; rfl, hread⟩, fun other ↦ ?_, ?_⟩
      · rw [hcount, hnumber, List.countP_cons, hstanding, UInt32.ofNat_add, UInt32.add_assoc,
          UInt32.add_comm (UInt32.ofNat _)]
        simp only [Option.some_inj, decide_eq_true_eq]
        by_cases heq : standing = other
        · rw [if_pos heq, if_pos heq]
          rfl
        · rw [if_neg heq, if_neg heq]
          rfl
      · rw [hsum, hexpectations, expectationsIn, UInt32.ofNat_add, UInt32.ofNat_toNat,
          UInt32.add_assoc]

/-- A run that an error ends has gone as far as the run over the files in front of the one that
cannot be read. -/
theorem runTests_of_error {s t : RunState} {paths : List String} {error : IoError}
    (h : s.runTests w binary paths = (t, .error error)) :
    ∃ before path after u, paths = before ++ path :: after ∧
      (Expectations.ofFile (w.read path)).2 = .error error ∧
      s.runTests w binary before = (u, .ok ()) ∧ t.counters = u.counters := by
  induction paths generalizing s with
  | nil => cases h
  | cons path paths ih =>
    rw [runTests] at h
    split at h
    · next stopped failure hstopped =>
      cases h
      obtain ⟨herror, hcounters⟩ := runTest_of_error hstopped
      exact ⟨[], path, paths, s, rfl, herror, rfl, hcounters⟩
    · next next hnext =>
      obtain ⟨before, failing, after, u, rfl, herror, hrun, hcounters⟩ := ih h
      refine ⟨path :: before, failing, after, u, rfl, herror, ?_, hcounters⟩
      rw [runTests, hnext]
      exact hrun

end RunState

/-- Files that have all become something are counted in full. -/
theorem length_eq_countP_add (paths : List String)
    (h : ∀ path ∈ paths, (standing? w binary path).isSome) :
    paths.countP (fun path ↦ standing? w binary path = some .passed) +
        paths.countP (fun path ↦ standing? w binary path = some .failed) +
        paths.countP (fun path ↦ standing? w binary path = some .skipped) =
      paths.length := by
  induction paths with
  | nil => rfl
  | cons path paths ih =>
    obtain ⟨hpath, hpaths⟩ := List.forall_mem_cons.1 h
    obtain ⟨standing, hstanding⟩ := Option.isSome_iff_exists.1 hpath
    have hlength := ih hpaths
    simp only [List.countP_cons, List.length_cons, hstanding, Option.some_inj, decide_eq_true_eq]
    cases standing <;> simp <;> omega

/-- The counters say what became of some files, each of which could be read.  They go around at
2^32: fewer than 2^32 files and fewer than 2^32 expectations are counted exactly. -/
structure Counters.Tallies (w : Surroundings) (binary : String) (paths : List String)
    (c : Counters) : Prop where
  read : ∀ path ∈ paths, (standing? w binary path).isSome
  number : ∀ standing, c.number standing =
    UInt32.ofNat (paths.countP fun path ↦ standing? w binary path = some standing)
  total : c.passed + c.failed + c.skipped = UInt32.ofNat paths.length
  expectations : c.expectations = UInt32.ofNat (expectationsIn w binary paths)
  toNat_number : paths.length < UInt32.size → ∀ standing, (c.number standing).toNat =
    paths.countP fun path ↦ standing? w binary path = some standing
  toNat_total : paths.length < UInt32.size →
    c.passed.toNat + c.failed.toNat + c.skipped.toNat = paths.length
  toNat_expectations : expectationsIn w binary paths < UInt32.size →
    c.expectations.toNat = expectationsIn w binary paths

/-- A run that starts from nothing has tallied the files that it has been through. -/
theorem tallies_of_runTests {s t : RunState} {paths : List String}
    (hs : s.counters = Counters.zero) (h : s.runTests w binary paths = (t, .ok ())) :
    t.counters.Tallies w binary paths := by
  obtain ⟨hread, hcount, hsum⟩ := RunState.runTests_of_ok h
  rw [hs] at hcount hsum
  have hnumber (standing : Standing) : t.counters.number standing =
      UInt32.ofNat (paths.countP fun path ↦ standing? w binary path = some standing) := by
    rw [hcount]
    cases standing <;> exact UInt32.zero_add _
  have hexpectations : t.counters.expectations = UInt32.ofNat (expectationsIn w binary paths) :=
    hsum.trans (UInt32.zero_add _)
  have htoNat (hfew : paths.length < UInt32.size) (standing : Standing) :
      (t.counters.number standing).toNat =
        paths.countP fun path ↦ standing? w binary path = some standing := by
    rw [hnumber, UInt32.toNat_ofNat_of_lt' (Nat.lt_of_le_of_lt List.countP_le_length hfew)]
  refine ⟨hread, hnumber, ?_, hexpectations, htoNat, fun hfew ↦ ?_, fun hfew ↦ ?_⟩
  · rw [← length_eq_countP_add paths hread, UInt32.ofNat_add, UInt32.ofNat_add, ← hnumber,
      ← hnumber, ← hnumber]
    rfl
  · rw [← length_eq_countP_add paths hread, ← htoNat hfew, ← htoNat hfew, ← htoNat hfew]
    rfl
  · rw [hexpectations, UInt32.toNat_ofNat_of_lt' hfew]

end LoxScan.Suite
