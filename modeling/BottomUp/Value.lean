/-
# Property values

A property of a tree node holds a truth value, a whole number, a double-precision
number or a text.

Key definitions: `Value`, `Value.text`, `Value.equals`.
-/
import BottomUp.Decimal.Binary64

namespace BottomUp

/-- The value of a property. -/
inductive Value where
  | bool (b : Bool)
  | int (n : Int)
  | float (x : Binary64)
  | str (s : String)
  deriving DecidableEq, Inhabited

namespace Value

/-- The text of a value. -/
def text : Value → String
  | .bool b => if b then "true" else "false"
  | .int n => s!"{n}"
  | .float x => x.text
  | .str s => s

/-- Equality of values; values of different types differ. -/
def equals : Value → Value → Bool
  | .bool a, .bool b => a == b
  | .int a, .int b => a == b
  | .float a, .float b => a.equals b
  | .str a, .str b => a == b
  | _, _ => false

end Value

end BottomUp
