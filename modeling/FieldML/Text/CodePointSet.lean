/-!
# Sets of code points

A set is an ascending list of inclusive runs, the form in which the character properties of the
Unicode standard are published.
-/

namespace FieldML.Text

/-- A set of code points: ascending, disjoint, inclusive runs. -/
abbrev CodePointSet := List (Nat × Nat)

namespace CodePointSet

/-- Membership by scanning the runs, which stops at the first run above the code point. -/
def mem : CodePointSet → Nat → Bool
  | [], _ => false
  | (first, last) :: rest, n => if n < first then false else n ≤ last || mem rest n

end CodePointSet

end FieldML.Text
