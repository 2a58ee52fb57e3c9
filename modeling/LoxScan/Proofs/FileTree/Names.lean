import Mathlib.Data.List.Nodup
import LoxScan.FileTree.Basic

/-!
# Names in file trees

The names of a tree are those that paths can spell, and no two entries of a directory have the same.
So whatever stands below a directory is reached by one list of names, and following these names
leads to it.
-/

namespace LoxScan.FileTree

/-- What the name of an entry can be: a component of a path that stands for nothing else. -/
structure IsName (name : String) : Prop where
  ne_empty : name ≠ ""
  ne_dot : name ≠ "."
  ne_dots : name ≠ ".."
  slash : '/' ∉ name.toList

instance (name : String) : Decidable (IsName name) :=
  decidable_of_iff (name ≠ "" ∧ name ≠ "." ∧ name ≠ ".." ∧ '/' ∉ name.toList)
    ⟨fun ⟨hempty, hdot, hdots, hslash⟩ ↦ ⟨hempty, hdot, hdots, hslash⟩,
      fun h ↦ ⟨h.ne_empty, h.ne_dot, h.ne_dots, h.slash⟩⟩

/-- The names of the entries themselves. -/
def Directory.names (d : Directory) : List String := d.toList.map Prod.fst

mutual

def Node.WellFormed : Node → Prop
  | .directory entries => entries.WellFormed
  | .file _ => True
  | .program _ => True

/-- At every depth, entries have names, and no two entries of a directory have the same. -/
def Directory.WellFormed : Directory → Prop
  | .empty => True
  | .entry name node later =>
    IsName name ∧ name ∉ later.names ∧ node.WellFormed ∧ later.WellFormed

end

/-- The names that lead from a directory to a node below it. -/
inductive Leads : Directory → List String → Node → Prop where
  | entry {d : Directory} {name : String} {node : Node} (h : (name, node) ∈ d.toList) :
      Leads d [name] node
  | inside {d inner : Directory} {name : String} {names : List String} {node : Node}
      (h : (name, .directory inner) ∈ d.toList) (hleads : Leads inner names node) :
      Leads d (name :: names) node

mutual

/-- The names that lead to each node below a node, an entry before its contents. -/
def Node.routes : Node → List (List String)
  | .directory entries => entries.routes
  | .file _ => []
  | .program _ => []

def Directory.routes : Directory → List (List String)
  | .empty => []
  | .entry name node later => [name] :: node.routes.map (name :: ·) ++ later.routes

end

namespace Directory

variable {d : Directory} {name : String} {node : Node}

theorem mem_toList_entry {other : String} {present : Node} {later : Directory} :
    (name, node) ∈ (entry other present later).toList ↔
      name = other ∧ node = present ∨ (name, node) ∈ later.toList := by
  rw [toList, List.mem_cons, Prod.mk.injEq]

theorem mem_names_of_mem (h : (name, node) ∈ d.toList) : name ∈ d.names :=
  List.mem_map_of_mem h

namespace WellFormed

theorem of_mem : ∀ {d : Directory}, d.WellFormed → (name, node) ∈ d.toList →
    IsName name ∧ node.WellFormed
  | .empty, _, h => by cases h
  | .entry _ _ _, ⟨hname, _, hnode, hlater⟩, h => by
    rcases mem_toList_entry.1 h with ⟨rfl, rfl⟩ | h
    · exact ⟨hname, hnode⟩
    · exact hlater.of_mem h

theorem find?_eq_some : ∀ {d : Directory}, d.WellFormed → (name, node) ∈ d.toList →
    d.find? name = some node
  | .empty, _, h => by cases h
  | .entry other present later, ⟨_, hdistinct, _, hlater⟩, h => by
    rcases mem_toList_entry.1 h with ⟨rfl, rfl⟩ | h
    · exact if_pos rfl
    · have hne : other ≠ name := by
        rintro rfl
        exact hdistinct (mem_names_of_mem h)
      exact (if_neg hne).trans (hlater.find?_eq_some h)

end WellFormed

end Directory

theorem leads_entry_iff {name : String} {node target : Node} {later : Directory}
    {names : List String} :
    Leads (.entry name node later) names target ↔
      names = [name] ∧ target = node ∨
        (∃ inner rest, node = .directory inner ∧ names = name :: rest ∧
          Leads inner rest target) ∨
        Leads later names target := by
  constructor
  · intro h
    cases h with
    | entry h =>
      rcases Directory.mem_toList_entry.1 h with ⟨rfl, rfl⟩ | h
      · exact .inl ⟨rfl, rfl⟩
      · exact .inr (.inr (.entry h))
    | inside h hleads =>
      rcases Directory.mem_toList_entry.1 h with ⟨rfl, rfl⟩ | h
      · exact .inr (.inl ⟨_, _, rfl, rfl, hleads⟩)
      · exact .inr (.inr (.inside h hleads))
  · rintro (⟨rfl, rfl⟩ | ⟨inner, rest, rfl, rfl, hleads⟩ | h)
    · exact .entry (Directory.mem_toList_entry.2 (.inl ⟨rfl, rfl⟩))
    · exact .inside (Directory.mem_toList_entry.2 (.inl ⟨rfl, rfl⟩)) hleads
    · cases h with
      | entry h => exact .entry (Directory.mem_toList_entry.2 (.inr h))
      | inside h hleads => exact .inside (Directory.mem_toList_entry.2 (.inr h)) hleads

mutual

theorem Node.mem_routes_iff : ∀ {node : Node} {names : List String},
    names ∈ node.routes ↔ ∃ inner target, node = .directory inner ∧ Leads inner names target
  | .directory entries, names => by
    rw [Node.routes, entries.mem_routes_iff]
    simp
  | .file _, names => by simp [Node.routes]
  | .program _, names => by simp [Node.routes]

theorem Directory.mem_routes_iff : ∀ (d : Directory) {names : List String},
    names ∈ d.routes ↔ ∃ target, Leads d names target
  | .empty, names => by
    have hnone : ∀ target, ¬ Leads .empty names target := by
      rintro target (h | h) <;> cases h
    simp [Directory.routes, hnone]
  | .entry name node later, names => by
    simp only [Directory.routes, List.cons_append, List.mem_cons, List.mem_append, List.mem_map,
      Node.mem_routes_iff, later.mem_routes_iff, leads_entry_iff]
    constructor
    · rintro (rfl | ⟨rest, ⟨inner, target, rfl, hleads⟩, rfl⟩ | ⟨target, hleads⟩)
      · exact ⟨node, .inl ⟨rfl, rfl⟩⟩
      · exact ⟨target, .inr (.inl ⟨inner, rest, rfl, rfl, hleads⟩)⟩
      · exact ⟨target, .inr (.inr hleads)⟩
    · rintro ⟨target, ⟨rfl, -⟩ | ⟨inner, rest, rfl, rfl, hleads⟩ | hleads⟩
      · exact .inl rfl
      · exact .inr (.inl ⟨rest, ⟨inner, target, rfl, hleads⟩, rfl⟩)
      · exact .inr (.inr ⟨target, hleads⟩)

end

theorem Leads.exists_cons {d : Directory} {names : List String} {node : Node}
    (h : Leads d names node) : ∃ name rest, names = name :: rest ∧ name ∈ d.names := by
  cases h with
  | entry h => exact ⟨_, [], rfl, Directory.mem_names_of_mem h⟩
  | inside h _ => exact ⟨_, _, rfl, Directory.mem_names_of_mem h⟩

theorem Directory.nil_not_mem_routes (d : Directory) : [] ∉ d.routes := by
  rw [d.mem_routes_iff]
  rintro ⟨_, h⟩
  obtain ⟨_, _, hcons, -⟩ := h.exists_cons
  cases hcons

theorem Node.nil_not_mem_routes : ∀ node : Node, [] ∉ node.routes
  | .directory entries => entries.nil_not_mem_routes
  | .file _ => List.not_mem_nil
  | .program _ => List.not_mem_nil

theorem Directory.cons_not_mem_routes {d : Directory} {name : String} (h : name ∉ d.names)
    (rest : List String) : name :: rest ∉ d.routes := by
  rw [d.mem_routes_iff]
  rintro ⟨_, hleads⟩
  obtain ⟨_, _, hcons, hmem⟩ := hleads.exists_cons
  cases hcons
  exact h hmem

mutual

theorem Node.WellFormed.nodup_routes : ∀ {node : Node}, node.WellFormed → node.routes.Nodup
  | .directory _, h => Directory.WellFormed.nodup_routes h
  | .file _, _ => List.nodup_nil
  | .program _, _ => List.nodup_nil

/-- No list of names leads to two nodes. -/
theorem Directory.WellFormed.nodup_routes : ∀ {d : Directory}, d.WellFormed → d.routes.Nodup
  | .empty, _ => List.nodup_nil
  | .entry name node later, ⟨_, hdistinct, hnode, hlater⟩ => by
    have hcons : Function.Injective (name :: · : List String → List String) :=
      List.cons_injective
    have hinside : (node.routes.map (name :: ·)).Nodup := hnode.nodup_routes.map hcons
    have hdisjoint : (node.routes.map (name :: ·)).Disjoint later.routes := by
      intro names hmem hmem'
      obtain ⟨rest, -, rfl⟩ := List.mem_map.1 hmem
      exact Directory.cons_not_mem_routes hdistinct rest hmem'
    have hself : [name] ∉ node.routes.map (name :: ·) := by
      rw [List.mem_map_of_injective hcons]
      exact node.nil_not_mem_routes
    rw [Directory.routes, List.cons_append, List.nodup_cons, List.mem_append, not_or]
    exact ⟨⟨hself, Directory.cons_not_mem_routes hdistinct []⟩,
      hinside.append hlater.nodup_routes hdisjoint⟩

end

namespace Leads

variable {d : Directory} {names : List String} {node : Node}

theorem isName (hd : d.WellFormed) (h : Leads d names node) : ∀ name ∈ names, IsName name := by
  induction h with
  | entry h => simpa using (hd.of_mem h).1
  | inside h _ ih =>
    obtain ⟨hname, hinner⟩ := hd.of_mem h
    exact List.forall_mem_cons.2 ⟨hname, ih hinner⟩

end Leads

/-- What one component of a path can do. -/
theorem Place.step_cases {place next : Place} {name : String}
    (h : Place.step place name = .ok next) :
    place.isDirectory = true ∧
      ((name = "" ∨ name = ".") ∧ next = place ∨ name = ".." ∧ next = place.parent ∨
        name ≠ "" ∧ name ≠ "." ∧ name ≠ ".." ∧ place.child? name = some next) := by
  rw [Place.step] at h
  split at h
  · cases h
  next hdirectory =>
  refine ⟨by simpa using hdirectory, ?_⟩
  split at h
  · next hstays => exact .inl ⟨hstays, (Except.ok.inj h).symm⟩
  next hstays =>
  obtain ⟨hempty, hdot⟩ := not_or.1 hstays
  split at h
  · next hdots => exact .inr (.inl ⟨hdots, (Except.ok.inj h).symm⟩)
  next hdots =>
  split at h
  · cases h
  split at h
  · next hchild =>
    cases h
    exact .inr (.inr ⟨hempty, hdot, hdots, hchild⟩)
  · cases h

theorem Place.child?_eq_some_iff {place next : Place} {name : String} :
    place.child? name = some next ↔ ∃ d node, place.entries? = some d ∧
      d.find? name = some node ∧ next = ⟨node, d :: place.above⟩ := by
  simp only [child?, Option.bind_eq_bind, Option.bind_eq_some_iff, Option.pure_def,
    Option.some.injEq, @eq_comm _ next, exists_and_left]

theorem Place.step_of_mem {place next : Place} {d : Directory} (hentries : place.entries? = some d)
    (hd : d.WellFormed) {name : String} {node : Node} (h : (name, node) ∈ d.toList)
    (hstep : Place.step place name = .ok next) : next = ⟨node, d :: place.above⟩ := by
  obtain ⟨hname, -⟩ := hd.of_mem h
  rcases Place.step_cases hstep with ⟨-, ⟨hstays, -⟩ | ⟨hdots, -⟩ | ⟨-, -, -, hchild⟩⟩
  · exact absurd hstays (not_or.2 ⟨hname.ne_empty, hname.ne_dot⟩)
  · exact absurd hdots hname.ne_dots
  · obtain ⟨entries, child, hentries', hfind, rfl⟩ := Place.child?_eq_some_iff.1 hchild
    obtain rfl := Option.some.inj (hentries.symm.trans hentries')
    rw [hd.find?_eq_some h] at hfind
    rw [Option.some.inj hfind]

theorem Place.exists_step_of_foldlM_cons {place last : Place} {name : String}
    {names : List String} (h : (name :: names).foldlM Place.step place = .ok last) :
    ∃ next, Place.step place name = .ok next ∧ names.foldlM Place.step next = .ok last := by
  rw [List.foldlM_cons] at h
  cases hstep : Place.step place name with
  | error refusal =>
    rw [hstep] at h
    cases h
  | ok next =>
    rw [hstep] at h
    exact ⟨next, rfl, h⟩

/-- Following names that lead to a node ends there, unless they are too long. -/
theorem Leads.node_eq_of_foldlM {d : Directory} {names : List String} {node : Node}
    (hd : d.WellFormed) (h : Leads d names node) {place last : Place}
    (hentries : place.entries? = some d) (hfind : names.foldlM Place.step place = .ok last) :
    last.node = node := by
  induction h generalizing place with
  | entry h =>
    obtain ⟨next, hstep, hrest⟩ := Place.exists_step_of_foldlM_cons hfind
    cases hrest
    rw [Place.step_of_mem hentries hd h hstep]
  | inside h _ ih =>
    obtain ⟨next, hstep, hrest⟩ := Place.exists_step_of_foldlM_cons hfind
    rw [Place.step_of_mem hentries hd h hstep] at hrest
    exact ih (hd.of_mem h).2 rfl hrest

theorem Directory.mem_of_find?_eq_some {d : Directory} {name : String} {node : Node}
    (h : d.find? name = some node) : (name, node) ∈ d.toList := by
  fun_induction find? name d with
  | case1 => cases h
  | case2 present later =>
    cases h
    exact List.mem_cons_self
  | case3 other present later _ ih => exact List.mem_cons_of_mem _ (ih h)

namespace Place

variable {place next last : Place} {d : Directory} {name : String} {names : List String}

theorem entries?_eq_some_iff : place.entries? = some d ↔ place.node = .directory d := by
  rw [entries?]
  split <;> simp [*]

/-- The names that lead to each node below a place. -/
def routes (place : Place) : List (List String) := place.node.routes

theorem mem_routes_iff :
    names ∈ place.routes ↔
      ∃ d node, place.entries? = some d ∧ Leads d names node := by
  simp only [routes, Node.mem_routes_iff, entries?_eq_some_iff, exists_and_left]

theorem nil_not_mem_routes (place : Place) : [] ∉ place.routes := place.node.nil_not_mem_routes

def WellFormed (place : Place) : Prop := place.node.WellFormed ∧ ∀ d ∈ place.above, d.WellFormed

namespace WellFormed

theorem nodup_routes (h : place.WellFormed) : place.routes.Nodup := h.1.nodup_routes

theorem entries (h : place.WellFormed) (hentries : place.entries? = some d) : d.WellFormed := by
  have hnode := h.1
  rwa [entries?_eq_some_iff.1 hentries] at hnode

theorem child? (h : place.WellFormed) (hchild : place.child? name = some next) :
    next.WellFormed := by
  obtain ⟨d, node, hentries, hnode, rfl⟩ := child?_eq_some_iff.1 hchild
  have hd := h.entries hentries
  exact ⟨(hd.of_mem (Directory.mem_of_find?_eq_some hnode)).2, List.forall_mem_cons.2 ⟨hd, h.2⟩⟩

theorem parent (h : place.WellFormed) : place.parent.WellFormed := by
  rcases place with ⟨node, _ | ⟨d, above⟩⟩
  · exact h
  · exact List.forall_mem_cons.1 h.2

theorem step (h : place.WellFormed) (hstep : Place.step place name = .ok next) :
    next.WellFormed := by
  rcases step_cases hstep with ⟨-, ⟨-, rfl⟩ | ⟨-, rfl⟩ | ⟨-, -, -, hchild⟩⟩
  · exact h
  · exact h.parent
  · exact h.child? hchild

theorem foldlM_step (h : place.WellFormed) (hfind : names.foldlM Place.step place = .ok last) :
    last.WellFormed := by
  induction names generalizing place with
  | nil =>
    cases hfind
    exact h
  | cons name names ih =>
    obtain ⟨next, hstep, hrest⟩ := exists_step_of_foldlM_cons hfind
    exact ih (h.step hstep) hrest

theorem isName (h : place.WellFormed) (hnames : names ∈ place.routes) :
    ∀ name ∈ names, IsName name := by
  obtain ⟨d, node, hentries, hleads⟩ := mem_routes_iff.1 hnames
  exact hleads.isName (h.entries hentries)

end WellFormed

end Place

/-- What holds of the root of a tree holds of every directory in it. -/
def WellFormed (tree : FileTree) : Prop := tree.root.WellFormed

theorem Nested.wellFormed {d : Directory} {above : List Directory} (h : Nested d above)
    (hroot : (above.getLast?.getD d).WellFormed) : d.WellFormed ∧ ∀ up ∈ above, up.WellFormed := by
  induction above generalizing d with
  | nil => exact ⟨hroot, List.forall_mem_nil _⟩
  | cons up above ih =>
    obtain ⟨⟨name, hname⟩, hnested⟩ := h
    rw [List.getLast?_cons, Option.getD_some] at hroot
    obtain ⟨hup, habove⟩ := ih hnested hroot
    exact ⟨(hup.of_mem (Directory.mem_of_find?_eq_some hname)).2,
      List.forall_mem_cons.2 ⟨hup, habove⟩⟩

theorem Place.wellFormed_root {tree : FileTree} (h : tree.WellFormed) : (root tree).WellFormed :=
  ⟨h, List.forall_mem_nil _⟩

theorem Place.wellFormed_working {tree : FileTree} (h : tree.WellFormed) :
    (working tree).WellFormed :=
  tree.nested.wellFormed h

end LoxScan.FileTree
