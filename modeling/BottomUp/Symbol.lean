/-
# Symbols and node actions

Terminals, nonterminals and virtual symbols share one numbering. The numbers 0
and 1 are reserved: the end of the input, and the goal, which derives the start
symbol and nothing else. A virtual symbol is put into a tree by a rule that
mentions it and is never matched against the input.

Key definitions: `SymbolId`, `Kind`, `Symbol`, `NodeAction`.
-/

namespace BottomUp

/-- The number of a symbol. -/
abbrev SymbolId := Nat

/-- The number of a rule. -/
abbrev RuleId := Nat

/-- The number of a state of an automaton. -/
abbrev StateId := Nat

/-- The terminal that stands for the end of the input. -/
def SymbolId.endOfInput : SymbolId := 0

/-- The nonterminal that derives the start symbol. -/
def SymbolId.goal : SymbolId := 1

/-- The rule that derives the start symbol from the goal. -/
def RuleId.goal : RuleId := 0

/-- What a symbol stands for. -/
inductive Kind where
  | terminal
  | nonterminal
  | virtual
  deriving DecidableEq, Inhabited

/-- A symbol of a grammar; its name serves messages and output only. -/
structure Symbol where
  id : SymbolId
  name : String
  kind : Kind
  deriving DecidableEq, Inhabited

namespace Symbol

/-- Symbols are told apart by their numbers. -/
def sameAs (a b : Symbol) : Bool := a.id == b.id

def isTerminal (s : Symbol) : Bool := s.kind = .terminal

/-- Whether the symbol is matched against the input or derived from it. -/
def isParsed (s : Symbol) : Bool := s.kind ≠ .virtual

/-- The symbol that stands for the end of the input. -/
def endOfInput : Symbol := ⟨.endOfInput, "$", .terminal⟩

/-- The symbol that derives the start symbol. -/
def goal : Symbol := ⟨.goal, "$start", .nonterminal⟩

end Symbol

/-- What becomes of a node when a parse tree is reduced to its final form. -/
inductive NodeAction where
  /-- The node stays. -/
  | keep
  /-- The node takes the place of its parent. -/
  | promote
  /-- The node goes, with all below it. -/
  | drop
  /-- The node's children take its place. -/
  | replace
  deriving DecidableEq, Inhabited

/-- The mark of an action in the text of a rule. -/
def NodeAction.mark : NodeAction → String
  | .keep => ""
  | .promote => "^"
  | .drop => "!"
  | .replace => "~"

/-- The text of a symbol's number. -/
def SymbolId.text (id : SymbolId) : String := s!"#{id}"

/-- The text of a rule's number. -/
def RuleId.text (id : RuleId) : String := s!"R#{id}"

/-- The text of a state's number, of two digits at least. -/
def StateId.text (id : StateId) : String := if id < 10 then s!"0{id}" else s!"{id}"

end BottomUp
