/-!
Sets of characters, given by the sorted list of code points where membership changes.
-/
namespace ScalarScript.Text

-- Membership starts at "outside" and flips at every bound, so a character belongs to the set
-- exactly when an odd number of bounds lie at or below its code point.
structure CodeSet where
  bounds : List Nat

def CodeSet.contains (s : CodeSet) (c : Char) : Bool :=
  s.bounds.countP (· ≤ c.toNat) % 2 == 1

end ScalarScript.Text
