/-
# The shortest decimal that reads back

A binary floating-point number `m · 2 ^ q` stands for all the reals that round to
it: those within half a gap to its neighbours, the ends included when `m` is even.
Its shortest decimal is taken from the coarsest grid of multiples of a power of
ten that has a point among them. Only the two grid points next to the number can
be the nearest ones there; of two the nearer counts, and of two equally near the
upper one.

Key definitions: `Decimal`, `Binary`, `Binary.shortest`.
-/

namespace BottomUp

/-- The number `digits · 10 ^ exponent`. -/
structure Decimal where
  digits : Nat
  exponent : Int
  deriving DecidableEq, Inhabited

/-- The positive binary number `m · 2 ^ q`. The gap to the next number below it is half
the gap above it if the number is the first of its binade. -/
structure Binary where
  m : Nat
  q : Int
  firstOfBinade : Bool
  deriving DecidableEq, Inhabited

namespace Binary

/-- So many quarters of the unit `2 ^ q`, on the scale on which the grid of `10 ^ e` has
`gridStep`. -/
def scaled (b : Binary) (e : Int) (x : Nat) : Nat :=
  x * Nat.pow 2 (b.q - 2).toNat * Nat.pow 10 (-e).toNat

/-- The step of the grid of `10 ^ e`, on a scale on which all of `scaled` are whole numbers. -/
def gridStep (b : Binary) (e : Int) : Nat :=
  Nat.pow 10 e.toNat * Nat.pow 2 (2 - b.q).toNat

/-- Whether the grid point `n` is among the reals that round to the number. -/
def roundsFrom (b : Binary) (e : Int) (n : Nat) : Bool :=
  let point := n * b.gridStep e
  let low := b.scaled e (4 * b.m - if b.firstOfBinade then 1 else 2)
  let high := b.scaled e (4 * b.m + 2)
  if b.m % 2 = 0 then low ≤ point && point ≤ high else low < point && point < high

/-- The point of the grid of `10 ^ e` that is nearest to the number and rounds to it. -/
def nearest? (b : Binary) (e : Int) : Option Nat :=
  let step := b.gridStep e
  let value := b.scaled e (4 * b.m)
  let below := value / step
  let above := below + 1
  if b.roundsFrom e below then
    if b.roundsFrom e above && above * step - value ≤ value - below * step then some above
    else some below
  else if b.roundsFrom e above then some above
  else none

/-- The shortest decimal on the grids from `10 ^ e` down, of which there are `grids`. -/
def shortestFrom (b : Binary) : (grids : Nat) → (e : Int) → Decimal
  | 0, e => ⟨0, e⟩
  | grids + 1, e =>
    match b.nearest? e with
    | some n => ⟨n, e⟩
    | none => shortestFrom b grids (e - 1)

/-- The shortest decimal that rounds to the number. -/
def shortest (b : Binary) : Decimal := b.shortestFrom 700 310

end Binary

namespace Decimal

/-- The text of a decimal in positional notation, without exponent. -/
def plain (d : Decimal) : String :=
  let digits := Nat.repr d.digits
  if 0 ≤ d.exponent then digits ++ "".pushn '0' d.exponent.toNat
  else
    let places := (-d.exponent).toNat
    let padded := ("".pushn '0' (places + 1 - digits.length) ++ digits).toList
    let whole := padded.take (padded.length - places)
    String.ofList (whole ++ '.' :: padded.drop (padded.length - places))

end Decimal

end BottomUp
