namespace Treewalk.Text

structure CodeRanges where
  ranges : List (Nat × Nat)

namespace CodeRanges

def contains (r : CodeRanges) (c : Char) : Bool :=
  r.ranges.any fun (first, last) => decide (first ≤ c.toNat) && decide (c.toNat ≤ last)

end CodeRanges

end Treewalk.Text
