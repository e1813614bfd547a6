/-
# Faults

A fault is a request that asks for what is not there: a rule or a node that was
never made, a marker moved past the end of its rule. It is no error of the input:
callers that keep to what they were given never meet one, unless the positions, the numbers
for states or the places for nodes are used up.

Key definition: `Fault`.
-/

namespace BottomUp

/-- A broken precondition. -/
inductive Fault where
  | missingSymbol
  | missingRule
  | missingState
  | missingNode
  /-- An item is of no rule of the grammar, or its marker stands behind the rule's end. -/
  | unfitItem
  /-- The marker of an item stands behind the end of its rule. -/
  | markerOverrun
  /-- The marker of a complete item was to be moved. -/
  | markerAtEnd
  /-- An item whose marker has not moved was put into a kernel. -/
  | notKernelItem
  /-- A tree was asked of a node that the forest does not have. -/
  | foreignRoot
  /-- A tree was asked of a node whose first derivation leads back to the node. -/
  | endlessDescent
  /-- A position lies beyond the largest one. -/
  | positionOverflow
  /-- There are more states than numbers for them. -/
  | stateOverflow
  /-- There are more nodes than places for them. -/
  | nodeOverflow
  /-- A word was classified as a symbol that the grammar does not have. -/
  | unknownTerminal (name : String)
  /-- A table without conflicts was promised, and there are some. -/
  | unusableTable (conflicts : Nat)
  deriving DecidableEq

/-- How many conflicts keep a table from being deterministic. -/
def conflictCountText (conflicts : Nat) : String :=
  s!"detected {conflicts} conflict(s) in a deterministic table"

/-- The text of a fault, for those that say more than that something is missing. -/
def Fault.message : Fault → Option String
  | .markerOverrun => some "the marker has overrun the rule"
  | .markerAtEnd => some "the marker cannot be moved past the end of the rule"
  | .notKernelItem => some "not a kernel item"
  | .foreignRoot => some "the extraction root does not belong to this forest"
  | .unknownTerminal name => some s!"no terminal named `{name}'"
  | .unusableTable conflicts => some s!"cannot project the fixture table: {conflictCountText conflicts}"
  | .missingSymbol | .missingRule | .missingState | .missingNode | .unfitItem | .endlessDescent
  | .positionOverflow | .stateOverflow | .nodeOverflow => none

/-- The value, or the fault that there is none. -/
def Fault.orElse {α : Type} (fault : Fault) : Option α → Except Fault α
  | some a => .ok a
  | none => .error fault

end BottomUp
