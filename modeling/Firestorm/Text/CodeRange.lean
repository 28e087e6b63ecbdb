/-!
# Sets of code points as boundaries

A property of code points that holds on many stretches is kept as the increasing list of the
points where it begins or ceases to hold. A code point has the property exactly when an odd number
of boundaries lie at or below it. Tables write boundaries by the distances between them.

## Main definitions

* `Text.boundsAt`, `Text.inRanges`.
-/

namespace Firestorm.Text

/-- The boundaries at the given distances, the first one from the base and each other from the one
before. -/
def boundsAt (base : Nat) : List Nat → List Nat
  | [] => []
  | distance :: rest => (base + distance) :: boundsAt (base + distance) rest

/-- Membership in the set that begins to hold at every boundary of even index and ceases to hold at
every boundary of odd index. -/
def inRanges : List Nat → Nat → Bool
  | [], _ => false
  | [first], n => first ≤ n
  | first :: past :: rest, n =>
    if n < first then false else if n < past then true else inRanges rest n

end Firestorm.Text
