/-!
# `Formula.Text.Ranges`: classes of characters given by ranges

A class of characters is a table of ranges in increasing order, searched
by halving.
-/

set_option autoImplicit false

namespace Formula

/-- The position of the first range that does not end before `n`, between
two positions; `fuel` bounds the number of halvings. -/
def searchRanges (table : Array (Nat × Nat)) (n : Nat) : Nat → Nat → Nat → Nat
  | 0, low, _ => low
  | fuel + 1, low, high =>
    if low < high then
      let middle := (low + high) / 2
      if (table.getD middle (0, 0)).2 < n then searchRanges table n fuel (middle + 1) high
      else searchRanges table n fuel low middle
    else
      low

/-- Whether a character lies in one of the ranges of a table. -/
def inRanges (table : Array (Nat × Nat)) (c : Char) : Bool :=
  let n := c.toNat
  match table[searchRanges table n table.size 0 table.size]? with
  | some (first, last) => first ≤ n && n ≤ last
  | none => false

end Formula
