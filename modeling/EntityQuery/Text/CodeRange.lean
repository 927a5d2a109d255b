/-! Ranges of code points, of which the tables of character classes are made. -/

namespace EntityQuery.Text

/-- The code points from `first` to `last`, both included. -/
structure CodeRange where
  first : Nat
  last : Nat

def CodeRange.covers (r : CodeRange) (c : Char) : Bool := r.first ≤ c.toNat && c.toNat ≤ r.last

end EntityQuery.Text
