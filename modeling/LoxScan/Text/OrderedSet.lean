/-!
# Ordered sets of texts

A set of texts is kept as a list in strictly ascending order, so it has one form only and is read
from its least element on.
-/

namespace LoxScan.Text

structure OrderedSet where
  toList : List String
  ascending : toList.Pairwise (· < ·)
deriving DecidableEq, Repr

namespace OrderedSet

def empty : OrderedSet := ⟨[], .nil⟩

instance : Membership String OrderedSet := ⟨fun s text ↦ text ∈ s.toList⟩

instance (text : String) (s : OrderedSet) : Decidable (text ∈ s) :=
  inferInstanceAs (Decidable (text ∈ s.toList))

@[simp] theorem mem_toList {text : String} {s : OrderedSet} : text ∈ s.toList ↔ text ∈ s := Iff.rfl

@[simp] theorem not_mem_empty (text : String) : text ∉ empty := List.not_mem_nil

/-- Puts a text at its place in an ascending list, unless it is there already. -/
def place (text : String) : List String → List String
  | [] => [text]
  | other :: rest =>
    if text < other then text :: other :: rest
    else if text = other then other :: rest
    else other :: place text rest

theorem mem_place {text other : String} {texts : List String} :
    other ∈ place text texts ↔ other = text ∨ other ∈ texts := by
  fun_induction place text texts with
  | case1 => simp
  | case2 => simp
  | case3 => simp
  | case4 _ _ _ _ ih =>
    rw [List.mem_cons, ih, List.mem_cons]
    exact or_left_comm

theorem pairwise_place {text : String} {texts : List String} (h : texts.Pairwise (· < ·)) :
    (place text texts).Pairwise (· < ·) := by
  fun_induction place text texts with
  | case1 => exact List.pairwise_singleton _ _
  | case2 other rest hlt =>
    refine .cons (fun later hlater ↦ ?_) h
    rcases List.mem_cons.1 hlater with rfl | hlater
    · exact hlt
    · exact String.lt_trans hlt (List.rel_of_pairwise_cons h hlater)
  | case3 => exact h
  | case4 other rest hlt hne ih =>
    refine .cons (fun later hlater ↦ ?_) (ih h.of_cons)
    rcases mem_place.1 hlater with rfl | hlater
    · grind
    · exact List.rel_of_pairwise_cons h hlater

def insert (text : String) (s : OrderedSet) : OrderedSet :=
  ⟨place text s.toList, pairwise_place s.ascending⟩

@[simp] theorem mem_insert {text other : String} {s : OrderedSet} :
    other ∈ s.insert text ↔ other = text ∨ other ∈ s := mem_place

theorem length_place_le (text : String) (texts : List String) :
    (place text texts).length ≤ texts.length + 1 := by
  fun_induction place text texts with
  | case1 => exact Nat.le_refl _
  | case2 => exact Nat.le_refl _
  | case3 => exact Nat.le_succ _
  | case4 _ _ _ _ ih => exact Nat.succ_le_succ ih

/-- The elements of one set that are not in another, from the least on. -/
def difference (s t : OrderedSet) : OrderedSet :=
  ⟨s.toList.filter (· ∉ t), s.ascending.filter _⟩

@[simp] theorem mem_difference {text : String} {s t : OrderedSet} :
    text ∈ s.difference t ↔ text ∈ s ∧ text ∉ t := by
  rw [← mem_toList, difference, List.mem_filter, mem_toList, decide_eq_true_iff]

end OrderedSet

end LoxScan.Text
