/-
# Ranges of characters

A character property beyond ASCII is a list of ranges of code points. Below 0x80
each property is stated by a rule of its own, so that facts on ASCII text need no table.

Key definition: `inRanges`.
-/

namespace BottomUp.Text

/-- Whether a code point lies in one of the ranges, ends included. -/
def inRanges (ranges : List (Nat × Nat)) (code : Nat) : Bool :=
  ranges.any fun (first, last) => first ≤ code && code ≤ last

end BottomUp.Text
