/-!
# Sets of code points as runs

A character class of the Unicode standard is a few hundred runs of consecutive
code points. **`Runs` stores only the edges**: the code points at which
membership switches on and off, in increasing order. A code point belongs to
the set when an odd number of edges lie at or below it.
-/

set_option autoImplicit false

namespace GoLift.Text

/-- A set of code points, given by the increasing list of code points at which
membership switches. -/
structure Runs where
  /-- On, off, on, off, ...: the start of each run and the first code point
  after it. -/
  edges : List Nat

namespace Runs

/-- Is the code point of `c` inside one of the runs? -/
def contains (r : Runs) (c : Char) : Bool :=
  (r.edges.takeWhile (· ≤ c.toNat)).length % 2 == 1

end Runs

end GoLift.Text
