/-
# Graph-structured stacks

The stacks of all parses that are followed at once share their common parts in one
graph. A node is a state reached after so many tokens; an edge leads from a node to
one below it on some stack and bears the forest node for the symbol between them.
There is at most one edge from a node to another: all ways into a state are on
the same symbol, so a second edge would bear the same label.

Key definitions: `StackGraph`, `StackGraph.addEdge`, `StackGraph.paths`.
-/
import BottomUp.Forest.Basic

namespace BottomUp

/-- An edge of the graph, to a node further down. -/
structure StackEdge where
  target : Nat
  label : ForestId
  deriving DecidableEq, Inhabited

/-- A node of the graph: a state, and the number of tokens read when it was reached. -/
structure StackNode where
  state : StateId
  generation : Nat
  edges : List StackEdge
  deriving DecidableEq, Inhabited

/-- A graph of stacks. -/
structure StackGraph where
  nodes : Array StackNode
  deriving DecidableEq, Inhabited

namespace StackGraph

/-- The graph without nodes. -/
def empty : StackGraph := ⟨#[]⟩

/-- The node at a place. -/
def node (g : StackGraph) (id : Nat) : StackNode := g.nodes.getD id default

/-- Adds a node without edges, and tells its place. -/
def addNode (g : StackGraph) (state : StateId) (generation : Nat) : Nat × StackGraph :=
  (g.nodes.size, ⟨g.nodes.push ⟨state, generation, []⟩⟩)

/-- Whether an edge leads from a node to another. -/
def linked (g : StackGraph) (source target : Nat) : Bool :=
  (g.node source).edges.any (·.target = target)

/-- Adds an edge unless there is one between the two nodes, and tells whether it was added. -/
def addEdge (g : StackGraph) (source target : Nat) (label : ForestId) : Bool × StackGraph :=
  if g.linked source target then (false, g)
  else (true, ⟨g.nodes.modify source fun n => { n with edges := n.edges ++ [⟨target, label⟩] }⟩)

/-- The walks of `length` edges from a node, those along later edges first: the labels
from the far end to the near one, and the node at the far end. -/
def paths (g : StackGraph) : (length : Nat) → (source : Nat) → List (List ForestId × Nat)
  | 0, source => [([], source)]
  | length + 1, source =>
    (g.node source).edges.reverse.flatMap fun e =>
      (g.paths length e.target).map fun (labels, far) => (labels ++ [e.label], far)

end StackGraph

end BottomUp
