/-!
# Similarity of texts

Two texts are similar if many of their characters can be paired.  A pair consists of equal
characters that stand close to each other, and each character has one partner at most.  The degree
of similarity is the mean of three shares: of the paired characters in either text, and of the
pairs that keep their order among all pairs.  It is a fraction between zero and one.
-/

namespace LoxScan.Text.Similarity

/-- A character and its position in a text. -/
abbrev Placed := Char × Nat

/-- Characters further apart than this are not paired. -/
def reach (a b : List Char) : Nat := max a.length b.length / 2 - 1

def canPair (reach : Nat) (x y : Placed) : Bool :=
  x.1 == y.1 && x.2 ≤ y.2 + reach && y.2 ≤ x.2 + reach

/-- Pairs the characters of a text, from left to right, each with the first one that is free. -/
def pairs (reach : Nat) : List Placed → List Placed → List (Placed × Placed)
  | [], _ => []
  | x :: rest, free =>
    match free.find? (canPair reach x) with
    | some y => (x, y) :: pairs reach rest (free.erase y)
    | none => pairs reach rest free

/-- The number of pairs that are out of order.  Two pairs that only change places count once. -/
def displaced (b : List Placed) (found : List (Placed × Placed)) : Nat :=
  let partners := b.filter fun y ↦ found.any fun pair ↦ pair.2 == y
  (((found.map Prod.fst).zip partners).countP fun (x, y) ↦ x.1 != y.1) / 2

structure Degree where
  numerator : Nat
  denominator : Nat
deriving DecidableEq, Repr

namespace Degree

def none : Degree := ⟨0, 1⟩

/-- Texts are close from seven tenths on. -/
def isClose (d : Degree) : Bool := 7 * d.denominator ≤ 10 * d.numerator

def le (d e : Degree) : Bool := d.numerator * e.denominator ≤ e.numerator * d.denominator

/-- The degree of texts of two lengths with some pairs, all but `displaced` of them in order. -/
def ofPairs (lengthA lengthB pairs displaced : Nat) : Degree :=
  if pairs = 0 then none
  else ⟨pairs * pairs * lengthB + pairs * pairs * lengthA + (pairs - displaced) * lengthA * lengthB,
    3 * lengthA * lengthB * pairs⟩

end Degree

def degree (a b : List Char) : Degree :=
  let found := pairs (reach a b) a.zipIdx b.zipIdx
  Degree.ofPairs a.length b.length found.length (displaced b.zipIdx found)

/-- The closest of the names that are close to a text, the last one of several. -/
def closest? (text : String) (names : List String) : Option String :=
  let better (best : Option (String × Degree)) (name : String) :=
    let d := degree text.toList name.toList
    match best with
    | none => if d.isClose then some (name, d) else none
    | some (_, e) => if e.le d then some (name, d) else best
  (names.foldl better none).map Prod.fst

end LoxScan.Text.Similarity
