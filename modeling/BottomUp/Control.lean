/-
# The control of a parser

A parser is driven by a finite control: in a state and on a lookahead it offers
moves, after a reduction it tells the state to go on in, and it knows the rules
and the symbols. The control is all that a parser sees, whether a table was
projected from an automaton or written by hand.

Key definitions: `Move`, `Control`.
-/
import BottomUp.Grammar.Basic

namespace BottomUp

/-- A move of a parser. -/
inductive Move where
  /-- Read the lookahead and go on in that state. -/
  | shift (next : StateId)
  /-- Reduce by that rule. -/
  | reduce (rule : RuleId)
  /-- The input is recognized. -/
  | accept
  deriving DecidableEq, Inhabited

/-- The text of a move. -/
def Move.text : Move → String
  | .shift next => s!"shift({next.text})"
  | .reduce rule => s!"reduce({rule.text})"
  | .accept => "accept"

/-- What drives a parser. -/
structure Control where
  initial : StateId
  /-- The moves in a state on a lookahead: none is an error in the input, several are a conflict. -/
  moves : StateId → SymbolId → List Move
  /-- The state to go on in after a reduction to a nonterminal. -/
  goto? : StateId → SymbolId → Option StateId
  rule? : RuleId → Option Rule
  symbol? : SymbolId → Option Symbol
  /-- The lookaheads with moves in a state. -/
  expected : StateId → List SymbolId

end BottomUp
