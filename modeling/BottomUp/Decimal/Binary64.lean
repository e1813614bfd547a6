/-
# Double-precision numbers

A double-precision number is its 64 bits: the sign, eleven bits of exponent and
fifty-two of fraction. Its text has the fewest digits that read back, always in
positional notation; a whole number has no point, and a negative zero keeps its sign.

Key definitions: `Binary64`, `Binary64.text`, `Binary64.equals`.
-/
import BottomUp.Decimal.Shortest

namespace BottomUp

/-- A double-precision number. -/
structure Binary64 where
  bits : UInt64
  deriving DecidableEq, Inhabited

namespace Binary64

/-- Whether the sign bit is set. -/
def isNegative (x : Binary64) : Bool := x.bits >>> 63 = 1

/-- The biased exponent. -/
def exponentField (x : Binary64) : Nat := ((x.bits >>> 52) &&& 0x7FF).toNat

/-- The fraction, without the leading one of a number that is not subnormal. -/
def fraction (x : Binary64) : Nat := (x.bits &&& 0xFFFFFFFFFFFFF).toNat

def isNaN (x : Binary64) : Bool := x.exponentField = 2047 && x.fraction ≠ 0

def isInfinite (x : Binary64) : Bool := x.exponentField = 2047 && x.fraction = 0

def isZero (x : Binary64) : Bool := x.exponentField = 0 && x.fraction = 0

/-- The absolute value of a finite number other than zero. -/
def magnitude (x : Binary64) : Binary :=
  if x.exponentField = 0 then ⟨x.fraction, -1074, false⟩
  else ⟨x.fraction + 0x10000000000000, x.exponentField - 1075, x.fraction = 0 && x.exponentField > 1⟩

/-- Equality of values: the zeros are equal, and what is no number equals nothing. -/
def equals (x y : Binary64) : Bool := !x.isNaN && !y.isNaN && (x = y || (x.isZero && y.isZero))

/-- The text of a number. -/
def text (x : Binary64) : String :=
  let sign := if x.isNegative then "-" else ""
  if x.isNaN then "NaN"
  else if x.isInfinite then sign ++ "inf"
  else if x.isZero then sign ++ "0"
  else sign ++ x.magnitude.shortest.plain

end Binary64

end BottomUp
