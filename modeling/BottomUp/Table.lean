/-
# Parse tables

A table holds the moves of each state by lookahead and the states after a
reduction by nonterminal. It is projected from an automaton: the transition on a
terminal is a shift, a rule to reduce is a reduction, and the rule of the goal is
acceptance. A deterministic table has at most one move in a cell, so an automaton
with conflicts has none; a generalized table keeps all moves side by side.

Key definitions: `Mode`, `Row`, `Table`, `Table.generate`, `Table.control`.
-/
import BottomUp.Automaton.Basic
import BottomUp.Control

namespace BottomUp

/-- Whether a table may hold several moves in one cell. -/
inductive Mode where
  | deterministic
  | generalized
  deriving DecidableEq

/-- The moves of one state. -/
structure Row where
  moves : List (SymbolId × List Move)
  gotos : List (SymbolId × StateId)
  deriving DecidableEq, Inhabited

/-- A parse table, with the symbols and rules that a parser needs. -/
structure Table where
  symbols : Array Symbol
  rules : Array Rule
  rows : Array Row
  mode : Mode

namespace Table

/-- The move for a rule to reduce. -/
def reduceMove (rule : RuleId) : Move := if rule = RuleId.goal then .accept else .reduce rule

/-- The moves of a state on a lookahead: the shift, then the reductions. -/
def cell (s : State) (lookahead : SymbolId) : List Move :=
  (s.transition lookahead).toList.map .shift ++ (s.reductionsOn lookahead).map reduceMove

/-- The row of a state: first the terminals that it shifts, then the other lookaheads. -/
def rowOf (g : Grammar) (s : State) : Row :=
  let (shifts, gotos) := s.transitions.partition fun (x, _) => g.isTerminal x
  let lookaheads := (shifts.map (·.1) ++ s.reductions.map (·.1)).eraseDups
  ⟨lookaheads.map fun x => (x, cell s x), gotos⟩

/-- The table of an automaton, or the conflicts that a deterministic one cannot hold. -/
def generate (g : Grammar) (a : Automaton) (mode : Mode) : Except (List Conflict) Table :=
  let conflicts := a.conflicts
  if mode = .deterministic ∧ conflicts ≠ [] then .error conflicts
  else .ok ⟨g.symbols, g.rules, a.states.map (rowOf g), mode⟩

/-- Whether no cell holds several moves. -/
def isDeterministic (t : Table) : Bool :=
  t.rows.all fun row => row.moves.all fun (_, cell) => cell.length ≤ 1

/-- The control that the table gives; it starts in state 0. -/
def control (t : Table) : Control where
  initial := 0
  moves state lookahead := ((t.rows[state]?.bind (·.moves.lookup lookahead))).getD []
  goto? state x := t.rows[state]?.bind (·.gotos.lookup x)
  rule? id := t.rules[id]?
  symbol? id := t.symbols[id]?
  expected state := (t.rows[state]?.map fun row => row.moves.map (·.1)).getD []

/-- The name of a symbol of the table. -/
def nameOf (t : Table) (x : SymbolId) : String := (t.symbols[x]?.map (·.name)).getD ""

/-- The text of a rule of the table. -/
def ruleText (t : Table) (id : RuleId) : String := (t.rules[id]?.map (·.text)).getD ""

/-- The text of a move in a cell, a rule written out. -/
def moveText (t : Table) : Move → String
  | .reduce rule => s!"reduce({t.ruleText rule})"
  | move => move.text

/-- The lines of a cell: one per move, set in under a line of their own if there are several. -/
def cellLines (t : Table) (lookahead : SymbolId) (cell : List Move) : List String :=
  let name := t.nameOf lookahead
  if cell.length > 1 then
    s!"- {name} => inconsistent" :: cell.map fun move => s!"  - {name} => {t.moveText move}"
  else cell.map fun move => s!"- {name} => {t.moveText move}"

/-- The text of one row. -/
def rowText (t : Table) (id : StateId) (row : Row) : String :=
  Grammar.lines
    ([s!"#### State {id.text}", "## actions"] ++
      row.moves.flatMap (fun (x, cell) => t.cellLines x cell) ++
      (if row.gotos.isEmpty then []
        else "## gotos" :: row.gotos.map fun (x, next) => s!"- {t.nameOf x} => goto({next.text})"))

/-- The text of a table: its rows, with an empty line between them. -/
def text (t : Table) : String :=
  "\n".intercalate (t.rows.toList.zipIdx.map fun (row, id) => t.rowText id row)

end Table

end BottomUp
