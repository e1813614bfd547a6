/-
# Walking a tree

A walk enters a node, walks its children in order, and leaves the node. What is
still to be done stands on a stack, so deep trees take no deep recursion. Below a
node that is its own descendant a walk would not end; the number of steps is
bounded by twice the number of nodes, and a walk that takes more gives nothing.

Key definitions: `Visit`, `Tree.walkWithin`, `Tree.walk?`, `Tree.shape?`.
-/
import BottomUp.Tree.Basic

namespace BottomUp

/-- A step of a walk. -/
inductive Visit where
  | enter (id : NodeId)
  | leave (id : NodeId)
  deriving DecidableEq

namespace Tree

/-- Makes the visits on the stack and those they lead to, within so many steps; `done`
holds the visits made, the last one first. -/
def walkWithin (t : Tree) : (steps : Nat) → (stack done : List Visit) → Option (List Visit)
  | _, [], done => some done.reverse
  | 0, _ :: _, _ => none
  | steps + 1, .enter id :: stack, done =>
    t.walkWithin steps ((t.children id).map .enter ++ .leave id :: stack) (.enter id :: done)
  | steps + 1, .leave id :: stack, done => t.walkWithin steps stack (.leave id :: done)

/-- The walk from the root, if it ends. -/
def walk? (t : Tree) : Option (List Visit) := t.walkWithin (2 * t.size) [.enter t.root] []

/-- The name of a node's symbol. -/
def nameOf (t : Tree) (id : NodeId) : String := ((t.node? id).map (·.symbol.name)).getD ""

/-- What a visit writes behind what was written: a node with children opens a bracket and
closes it, and a node that follows a sibling, which was left just before, is set off by a comma. -/
def shapeStep (t : Tree) : String × Bool → Visit → String × Bool
  | (out, afterSibling), .enter id =>
    let comma := if afterSibling then ", " else ""
    let bracket := if (t.children id).isEmpty then "" else "("
    (out ++ comma ++ t.nameOf id ++ bracket, false)
  | (out, _), .leave id => (out ++ if (t.children id).isEmpty then "" else ")", true)

/-- The shape that a walk writes. -/
def shapeOf (t : Tree) (visits : List Visit) : String := (visits.foldl t.shapeStep ("", false)).1

/-- The shape of a tree, names and brackets only: `Root(A(b, c), d)`. -/
def shape? (t : Tree) : Option String := t.walk?.map t.shapeOf

end Tree

end BottomUp
