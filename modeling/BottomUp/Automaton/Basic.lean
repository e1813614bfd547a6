/-
# LR automata

A state is known by its kernel; its items are the closure of the kernel. It leads
to other states by symbol, and it reduces complete items by lookahead. Two moves
that compete on one lookahead are a conflict. State 0 is where a parse starts.

Key definitions: `State`, `Automaton`, `Conflict`, `Automaton.conflicts`.
-/
import BottomUp.Closure

namespace BottomUp

/-- A state of an automaton. -/
structure State where
  /-- The place of the state. -/
  id : StateId
  kernel : ItemSet
  items : ItemSet
  /-- Where the state leads, by symbol. -/
  transitions : List (SymbolId × StateId)
  /-- The rules that can be reduced, by lookahead. -/
  reductions : List (SymbolId × List RuleId)
  deriving DecidableEq, Inhabited

namespace State

/-- The state that `x` leads to. -/
def transition (s : State) (x : SymbolId) : Option StateId := s.transitions.lookup x

/-- The rules that can be reduced on a lookahead. -/
def reductionsOn (s : State) (lookahead : SymbolId) : List RuleId :=
  (s.reductions.lookup lookahead).getD []

end State

/-- The rules of the complete items, by lookahead in the order of first appearance. -/
def Grammar.reductions (g : Grammar) (items : ItemSet) : List (SymbolId × List RuleId) :=
  let complete := items.toList.filter (·.complete g)
  (complete.map (·.lookahead)).eraseDups.map fun x =>
    (x, (complete.filter (·.lookahead = x)).map (·.rule))

/-- Moves of a state that compete on one lookahead. -/
structure Conflict where
  state : StateId
  lookahead : SymbolId
  shift : Option StateId
  reduces : List RuleId
  deriving DecidableEq, Inhabited

/-- The two ways in which moves compete. -/
inductive ConflictKind where
  | shiftReduce
  | reduceReduce
  deriving DecidableEq

/-- The text of a kind of conflict. -/
def ConflictKind.text : ConflictKind → String
  | .shiftReduce => "shift/reduce"
  | .reduceReduce => "reduce/reduce"

namespace Conflict

def kind (c : Conflict) : ConflictKind := if c.shift.isSome then .shiftReduce else .reduceReduce

/-- The text of a conflict: where it is, then the moves that compete. -/
def text (g : Grammar) (c : Conflict) : String :=
  s!"{c.kind.text} conflict in state {c.state.text} on {g.nameOf c.lookahead}" ++
    String.join (c.shift.toList.map fun n => s!"\n  - shift({n.text})") ++
    String.join (c.reduces.map fun r => s!"\n  - reduce({g.ruleText r})")

end Conflict

/-- An LR automaton. -/
structure Automaton where
  states : Array State
  deriving Inhabited

namespace Automaton

def state? (a : Automaton) (id : StateId) : Option State := a.states[id]?

/-- The conflicts of one state. -/
def conflictsOf (s : State) : List Conflict :=
  s.reductions.filterMap fun (lookahead, reduces) =>
    let shift := s.transition lookahead
    if reduces.length > 1 || (shift.isSome && !reduces.isEmpty) then
      some ⟨s.id, lookahead, shift, reduces⟩
    else none

/-- All conflicts, by state, then by lookahead in the order of the reductions. -/
def conflicts (a : Automaton) : List Conflict :=
  a.states.toList.flatMap conflictsOf

/-- The text of one state: its items, with a star for those of the kernel, and its moves. -/
def stateText (g : Grammar) (s : State) : String :=
  let items := s.items.toList.map fun i => (if i.isKernel then "* " else "- ") ++ i.textIn g
  let transitions := s.transitions.map fun (x, target) => s!"- {g.nameOf x} => {target.text}"
  let reductions := s.reductions.flatMap fun (x, rules) =>
    rules.map fun r => s!"- {g.nameOf x} => reduce({g.ruleText r})"
  Grammar.lines
    ([s!"#### State {s.id.text}", "## items"] ++ items ++
      (if transitions.isEmpty then [] else "## transitions" :: transitions) ++
      (if s.reductions.isEmpty then [] else "## reductions" :: reductions))

/-- The text of an automaton: its states, with an empty line between them. -/
def text (g : Grammar) (a : Automaton) : String :=
  "\n".intercalate (a.states.toList.map (stateText g))

end Automaton

end BottomUp
