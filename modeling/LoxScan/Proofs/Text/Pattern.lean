import Mathlib.Computability.Language

/-!
# Patterns of text

A pattern is put together from fixed words, single characters and runs of characters, with groups
that say which parts of a match are of interest.  Its language is the set of texts that it stands
for.  How a text is read is said by an order of preference on top of that: at each place a part
that may be left out is rather taken, and a run is rather long.  A search takes the preferred
reading at the first place that has any, and these are the places where a word of the language
begins.
-/

open scoped Computability

namespace LoxScan.Text

inductive Pattern where
  | word (letters : String)
  | one (accepts : Char → Bool)
  | run (accepts : Char → Bool)
  | optional (x : Pattern)
  | seq (x y : Pattern)
  | group (x : Pattern)

namespace Pattern

def singles (accepts : Char → Bool) : Language Char := {text | ∃ c, accepts c ∧ text = [c]}

def language : Pattern → Language Char
  | word letters => {letters.toList}
  | one accepts => singles accepts
  | run accepts => (singles accepts)∗
  | optional x => x.language + 1
  | seq x y => x.language * y.language
  | group x => x.language

/-- At the front of a text there is a word of the language. -/
def StartsIn (x : Pattern) (later : List Char) : Prop := ∃ word ∈ x.language, word <+: later

theorem mem_language_run {accepts : Char → Bool} {text : List Char} :
    text ∈ (run accepts).language ↔ ∀ c ∈ text, accepts c := by
  rw [language, Language.mem_kstar]
  constructor
  · rintro ⟨pieces, rfl, hpieces⟩ c hc
    obtain ⟨piece, hpiece, hmem⟩ := List.mem_flatten.1 hc
    obtain ⟨d, hd, rfl⟩ := hpieces piece hpiece
    rwa [List.mem_singleton.1 hmem]
  · intro htext
    refine ⟨text.map ([·]), (List.flatMap_singleton' text).symm, ?_⟩
    rw [List.forall_mem_map]
    exact fun c hc ↦ ⟨c, htext c hc, rfl⟩

/-- No word of the language has this character. -/
def avoids (c : Char) : Pattern → Bool
  | word letters => !letters.toList.contains c
  | one accepts => !accepts c
  | run accepts => !accepts c
  | optional x => x.avoids c
  | seq x y => x.avoids c && y.avoids c
  | group x => x.avoids c

theorem not_mem_of_avoids {c : Char} {x : Pattern} (hx : x.avoids c) {text : List Char}
    (htext : text ∈ x.language) : c ∉ text := by
  induction x generalizing text with
  | word letters =>
    cases htext
    simpa [avoids] using hx
  | one accepts =>
    obtain ⟨d, hd, rfl⟩ := htext
    intro hc
    simp_all [avoids]
  | run accepts =>
    intro hc
    have hc := mem_language_run.1 htext c hc
    simp [avoids, hc] at hx
  | optional x ih =>
    rcases htext with htext | rfl
    · exact ih hx htext
    · exact List.not_mem_nil
  | seq x y ihx ihy =>
    obtain ⟨hx, hy⟩ := Bool.and_eq_true_iff.1 hx
    obtain ⟨first, hfirst, second, hsecond, rfl⟩ := Language.mem_mul.1 htext
    rw [List.mem_append, not_or]
    exact ⟨ihx hx hfirst, ihy hy hsecond⟩
  | group x ih => exact ih hx htext

/-- What a pattern covers at the front of a text, what its groups hold, and what follows. -/
structure Reading where
  covered : List Char
  groups : List String
  rest : List Char
deriving DecidableEq, Repr

namespace Reading

def append (first second : Reading) : Reading :=
  ⟨first.covered ++ second.covered, first.groups ++ second.groups, second.rest⟩

/-- A group holds what is covered in it, and comes before the groups inside it. -/
def capture (r : Reading) : Reading := ⟨r.covered, String.ofList r.covered :: r.groups, r.rest⟩

/-- What a match shows of itself, the whole of it first. -/
def shown (r : Reading) : List String := String.ofList r.covered :: r.groups

end Reading

/-- The longest run comes first and the empty one last. -/
def runsOf (accepts : Char → Bool) : List Char → List Reading
  | [] => [⟨[], [], []⟩]
  | c :: text =>
    (if accepts c then (runsOf accepts text).map fun r ↦ ⟨c :: r.covered, [], r.rest⟩ else []) ++
      [⟨[], [], c :: text⟩]

/-- All ways to read a text from its front, in order of preference. -/
def readings : Pattern → List Char → List Reading
  | word letters, text =>
    (text.dropPrefix? letters.toList).toList.map fun rest ↦ ⟨letters.toList, [], rest⟩
  | one _, [] => []
  | one accepts, c :: text => if accepts c then [⟨[c], [], text⟩] else []
  | run accepts, text => runsOf accepts text
  | optional x, text => x.readings text ++ [⟨[], [], text⟩]
  | seq x y, text => (x.readings text).flatMap fun first ↦ (y.readings first.rest).map first.append
  | group x, text => (x.readings text).map .capture

def preferred? (x : Pattern) (text : List Char) : Option Reading := (x.readings text).head?

/-- The preferred reading at the first place that has any. -/
def search? (x : Pattern) (text : List Char) : Option Reading := text.tails.findSome? x.preferred?

theorem mem_runsOf {accepts : Char → Bool} {text : List Char} {r : Reading}
    (h : r ∈ runsOf accepts text) :
    (∀ c ∈ r.covered, accepts c) ∧ text = r.covered ++ r.rest := by
  induction text generalizing r with
  | nil =>
    rw [List.mem_singleton.1 h]
    exact ⟨List.forall_mem_nil _, rfl⟩
  | cons c text ih =>
    rcases List.mem_append.1 h with h | h
    · split at h
      next hc =>
        obtain ⟨longer, hlonger, rfl⟩ := List.mem_map.1 h
        obtain ⟨haccepts, htext⟩ := ih hlonger
        exact ⟨List.forall_mem_cons.2 ⟨hc, haccepts⟩, congrArg (c :: ·) htext⟩
      next => cases h
    · rw [List.mem_singleton.1 h]
      exact ⟨List.forall_mem_nil _, rfl⟩

theorem mem_runsOf_append {accepts : Char → Bool} {run : List Char} (hrun : ∀ c ∈ run, accepts c)
    (rest : List Char) : ⟨run, [], rest⟩ ∈ runsOf accepts (run ++ rest) := by
  induction run with
  | nil =>
    cases rest with
    | nil => exact List.mem_singleton_self _
    | cons c rest => exact List.mem_append_right _ (List.mem_singleton_self _)
  | cons c run ih =>
    obtain ⟨hc, hrun⟩ := List.forall_mem_cons.1 hrun
    rw [List.cons_append, runsOf, if_pos hc]
    exact List.mem_append_left _ (List.mem_map_of_mem (ih hrun))

/-- What a reading covers is a word of the language. -/
theorem covered_mem_language {x : Pattern} {text : List Char} {r : Reading}
    (hr : r ∈ x.readings text) : r.covered ∈ x.language ∧ text = r.covered ++ r.rest := by
  -- the second part of a sequence reads what the first one leaves, so the text is general
  induction x generalizing text r with
  | word letters =>
    obtain ⟨rest, hrest, rfl⟩ := List.mem_map.1 hr
    obtain ⟨front, rfl, hfront⟩ := List.dropPrefix?_eq_some_iff.1 (Option.mem_toList.1 hrest)
    rw [eq_of_beq hfront]
    exact ⟨rfl, rfl⟩
  | one accepts =>
    cases text with
    | nil => cases hr
    | cons c text =>
      rw [readings] at hr
      split at hr
      next hc =>
        rw [List.mem_singleton.1 hr]
        exact ⟨⟨c, hc, rfl⟩, rfl⟩
      next => cases hr
  | run accepts =>
    obtain ⟨haccepts, htext⟩ := mem_runsOf hr
    exact ⟨mem_language_run.2 haccepts, htext⟩
  | optional x ih =>
    rcases List.mem_append.1 hr with hr | hr
    · exact ⟨.inl (ih hr).1, (ih hr).2⟩
    · rw [List.mem_singleton.1 hr]
      exact ⟨.inr rfl, rfl⟩
  | seq x y ihx ihy =>
    obtain ⟨first, hfirst, hr⟩ := List.mem_flatMap.1 hr
    obtain ⟨second, hsecond, rfl⟩ := List.mem_map.1 hr
    obtain ⟨hx, htext⟩ := ihx hfirst
    obtain ⟨hy, hrest⟩ := ihy hsecond
    refine ⟨Language.append_mem_mul hx hy, ?_⟩
    calc
      text = first.covered ++ (second.covered ++ second.rest) := by rw [htext, ← hrest]
      _ = first.covered ++ second.covered ++ second.rest := (List.append_assoc ..).symm
  | group x ih =>
    obtain ⟨inner, hinner, rfl⟩ := List.mem_map.1 hr
    obtain ⟨hcovered, htext⟩ := ih hinner
    exact ⟨hcovered, htext⟩

/-- Every word of the language is read in some way whatever follows it. -/
theorem exists_mem_readings {x : Pattern} {text : List Char} (htext : text ∈ x.language)
    (rest : List Char) : ∃ groups, ⟨text, groups, rest⟩ ∈ x.readings (text ++ rest) := by
  induction x generalizing text rest with
  | word letters =>
    cases htext
    refine ⟨[], List.mem_map.2 ⟨rest, ?_, rfl⟩⟩
    rw [Option.mem_toList]
    exact List.dropPrefix?_eq_some_iff.2 ⟨_, rfl, beq_self_eq_true _⟩
  | one accepts =>
    obtain ⟨c, hc, rfl⟩ := htext
    refine ⟨[], ?_⟩
    rw [List.singleton_append, readings, if_pos hc]
    exact List.mem_singleton_self _
  | run accepts => exact ⟨[], mem_runsOf_append (mem_language_run.1 htext) rest⟩
  | optional x ih =>
    rcases htext with htext | rfl
    · obtain ⟨groups, hgroups⟩ := ih htext rest
      exact ⟨groups, List.mem_append_left _ hgroups⟩
    · exact ⟨[], List.mem_append_right _ (List.mem_singleton_self _)⟩
  | seq x y ihx ihy =>
    obtain ⟨first, hfirst, second, hsecond, rfl⟩ := Language.mem_mul.1 htext
    obtain ⟨groups, hgroups⟩ := ihx hfirst (second ++ rest)
    obtain ⟨groups', hgroups'⟩ := ihy hsecond rest
    rw [List.append_assoc]
    exact ⟨groups ++ groups', List.mem_flatMap.2 ⟨_, hgroups, List.mem_map_of_mem hgroups'⟩⟩
  | group x ih =>
    obtain ⟨groups, hgroups⟩ := ih htext rest
    exact ⟨_, List.mem_map_of_mem hgroups⟩

theorem startsIn_iff {x : Pattern} {later : List Char} :
    x.StartsIn later ↔ ∃ r, r ∈ x.readings later := by
  constructor
  · rintro ⟨text, htext, rest, rfl⟩
    obtain ⟨groups, hgroups⟩ := exists_mem_readings htext rest
    exact ⟨_, hgroups⟩
  · rintro ⟨r, hr⟩
    obtain ⟨hcovered, rfl⟩ := covered_mem_language hr
    exact ⟨r.covered, hcovered, List.prefix_append _ _⟩

theorem startsIn_seq_iff {x y : Pattern} {text : List Char} :
    (seq x y).StartsIn text ↔
      ∃ first later, first ∈ x.language ∧ text = first ++ later ∧ y.StartsIn later := by
  constructor
  · rintro ⟨_, hword, rest, rfl⟩
    obtain ⟨first, hfirst, second, hsecond, rfl⟩ := Language.mem_mul.1 hword
    exact ⟨first, second ++ rest, hfirst, List.append_assoc .., second, hsecond,
      List.prefix_append _ _⟩
  · rintro ⟨first, _, hfirst, rfl, second, hsecond, rest, rfl⟩
    exact ⟨first ++ second, Language.append_mem_mul hfirst hsecond, rest, List.append_assoc ..⟩

theorem startsIn_word_seq_iff {letters : String} {y : Pattern} {text : List Char} :
    (seq (word letters) y).StartsIn text ↔
      ∃ later, text = letters.toList ++ later ∧ y.StartsIn later := by
  rw [startsIn_seq_iff]
  constructor
  · rintro ⟨_, later, rfl, htext, hlater⟩
    exact ⟨later, htext, hlater⟩
  · rintro ⟨later, htext, hlater⟩
    exact ⟨_, later, rfl, htext, hlater⟩

/-! ## Preferred readings -/

section Preferred

variable {x y : Pattern} {text : List Char} {first second r : Reading}

theorem preferred?_eq_none_iff : x.preferred? text = none ↔ ¬ x.StartsIn text := by
  rw [preferred?, List.head?_eq_none_iff, startsIn_iff, not_exists, List.eq_nil_iff_forall_not_mem]

theorem startsIn_of_preferred? (h : x.preferred? text = some r) : x.StartsIn text := by
  by_contra hnot
  rw [preferred?_eq_none_iff.2 hnot] at h
  cases h

theorem covered_mem_language_of_preferred? (h : x.preferred? text = some r) :
    r.covered ∈ x.language ∧ text = r.covered ++ r.rest :=
  covered_mem_language (List.mem_of_mem_head? h)

theorem preferred?_word (letters : String) (rest : List Char) :
    (word letters).preferred? (letters.toList ++ rest) = some ⟨letters.toList, [], rest⟩ := by
  have hdrop : (letters.toList ++ rest).dropPrefix? letters.toList = some rest :=
    List.dropPrefix?_eq_some_iff.2 ⟨_, rfl, beq_self_eq_true _⟩
  rw [preferred?, readings, hdrop]
  rfl

theorem preferred?_one {accepts : Char → Bool} {c : Char} (hc : accepts c) :
    (one accepts).preferred? (c :: text) = some ⟨[c], [], text⟩ := by
  rw [preferred?, readings, if_pos hc]
  rfl

/-- A run is read up to the first character that cannot belong to it. -/
theorem preferred?_run {accepts : Char → Bool} {covered rest : List Char}
    (hcovered : ∀ c ∈ covered, accepts c) (hrest : ∀ c ∈ rest.head?, accepts c = false) :
    (run accepts).preferred? (covered ++ rest) = some ⟨covered, [], rest⟩ := by
  induction covered with
  | nil =>
    cases rest with
    | nil => rfl
    | cons c rest =>
      rw [List.nil_append, preferred?, readings, runsOf, hrest c rfl]
      rfl
  | cons c covered ih =>
    obtain ⟨hc, hcovered⟩ := List.forall_mem_cons.1 hcovered
    have hrun : (runsOf accepts (covered ++ rest)).head? = some ⟨covered, [], rest⟩ := ih hcovered
    rw [List.cons_append, preferred?, readings, runsOf, if_pos hc, List.head?_append,
      List.head?_map, hrun]
    rfl

theorem preferred?_optional (h : x.preferred? text = some r) :
    (optional x).preferred? text = some r := by
  have hhead : (x.readings text).head? = some r := h
  rw [preferred?, readings, List.head?_append, hhead, Option.some_or]

theorem preferred?_optional_of_none (h : x.preferred? text = none) :
    (optional x).preferred? text = some ⟨[], [], text⟩ := by
  have hhead : (x.readings text).head? = none := h
  rw [preferred?, readings, List.head?_append, hhead, Option.none_or]
  rfl

theorem preferred?_seq (hx : x.preferred? text = some first)
    (hy : y.preferred? first.rest = some second) :
    (seq x y).preferred? text = some (first.append second) := by
  obtain ⟨others, hothers⟩ := List.head?_eq_some_iff.1 hx
  have hhead : (y.readings first.rest).head? = some second := hy
  rw [preferred?, readings, hothers, List.flatMap_cons, List.head?_append, List.head?_map, hhead]
  rfl

/-- A group that has no groups inside it. -/
theorem preferred?_group {content : String} {rest : List Char}
    (h : x.preferred? text = some ⟨content.toList, [], rest⟩) :
    (group x).preferred? text = some ⟨content.toList, [content], rest⟩ := by
  have hhead : (x.readings text).head? = some ⟨content.toList, [], rest⟩ := h
  rw [preferred?, readings, List.head?_map, hhead, Option.map_some, Reading.capture,
    String.ofList_toList]

end Preferred

/-- The place behind `front` is the first one at which a word of the language begins. -/
structure IsFirstPlace (x : Pattern) (text front later : List Char) : Prop where
  text_eq : text = front ++ later
  startsIn : x.StartsIn later
  length_le : ∀ other after, text = other ++ after → x.StartsIn after → front.length ≤ other.length

section Search

variable {x : Pattern} {text : List Char} {r : Reading}

theorem IsFirstPlace.eq {front later front' later' : List Char}
    (h : x.IsFirstPlace text front later) (h' : x.IsFirstPlace text front' later') :
    front' = front ∧ later' = later := by
  have hlength : front'.length = front.length :=
    Nat.le_antisymm (h'.length_le _ _ h.text_eq h.startsIn) (h.length_le _ _ h'.text_eq h'.startsIn)
  exact List.append_inj (h'.text_eq.symm.trans h.text_eq) hlength

theorem search?_nil (x : Pattern) : x.search? [] = x.preferred? [] := by
  rw [search?, List.tails, List.findSome?_singleton]

theorem search?_cons (x : Pattern) (c : Char) (text : List Char) :
    x.search? (c :: text) = (x.preferred? (c :: text)).or (x.search? text) := by
  rw [search?, List.tails, List.findSome?_cons]
  cases x.preferred? (c :: text) <;> rfl

theorem search?_of_preferred? (h : x.preferred? text = some r) : x.search? text = some r := by
  cases text with
  | nil => rw [search?_nil, h]
  | cons c text => rw [search?_cons, h, Option.some_or]

theorem search?_eq_none_iff :
    x.search? text = none ↔ ∀ front later, text = front ++ later → ¬ x.StartsIn later := by
  simp only [search?, List.findSome?_eq_none_iff, List.mem_tails, preferred?_eq_none_iff]
  exact ⟨fun h front later htext ↦ h later ⟨front, htext.symm⟩,
    fun h later ⟨front, htext⟩ ↦ h front later htext.symm⟩

theorem exists_isFirstPlace (h : x.search? text = some r) :
    ∃ front later, x.IsFirstPlace text front later ∧ x.preferred? later = some r := by
  induction text with
  | nil =>
    rw [search?_nil] at h
    exact ⟨[], [], ⟨rfl, startsIn_of_preferred? h, fun _ _ _ _ ↦ Nat.zero_le _⟩, h⟩
  | cons c text ih =>
    rw [search?_cons, Option.or_eq_some_iff] at h
    rcases h with h | ⟨hnone, h⟩
    · exact ⟨[], _, ⟨rfl, startsIn_of_preferred? h, fun _ _ _ _ ↦ Nat.zero_le _⟩, h⟩
    obtain ⟨front, later, ⟨rfl, hstarts, hfirst⟩, hlater⟩ := ih h
    refine ⟨c :: front, later, ⟨rfl, hstarts, fun other after hsplit hafter ↦ ?_⟩, hlater⟩
    cases other with
    | nil =>
      rw [hsplit] at hnone
      exact absurd hafter (preferred?_eq_none_iff.1 hnone)
    | cons d other => exact Nat.succ_le_succ (hfirst other after (List.cons.inj hsplit).2 hafter)

end Search

end Pattern

end LoxScan.Text
