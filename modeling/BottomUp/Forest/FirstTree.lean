/-
# The first tree of a forest

One derivation is read off a forest by following the first family of each node. A
node is copied once for each use. The children of a family are copied from left to
right; then the last of them is descended into, with all below it, then the one
before it. The descent ends unless first families lead from a node back to it: a
way down that meets more nodes than the forest has meets one of them twice.

Key definitions: `Forest.descend`, `Forest.firstTree`.
-/
import BottomUp.Forest.Basic

namespace BottomUp
namespace Forest

/-- Copies a node into a tree, and tells its place there. -/
def copyNode (f : Forest) (id : ForestId) (action : NodeAction) (t : Tree) :
    Except Fault (NodeId × Tree) := do
  let node ← f.node id
  pure (match node.token with
    | some token => t.addToken node.symbol token action
    | none => t.addNode node.symbol action)

/-- Copies the children of a family under a node of the tree, and tells their places. -/
def copyChildren (f : Forest) (parent : NodeId) :
    List Child → Tree → Except Fault (List (ForestId × NodeId) × Tree)
  | [], t => pure ([], t)
  | child :: rest, t => do
    let (place, t) ← f.copyNode child.node child.action t
    let (places, t) ← f.copyChildren parent rest (t.appendChild parent place)
    pure ((child.node, place) :: places, t)

/-- Fills in what is below the copy of a node, on ways of at most `depth` nodes. -/
def descend (f : Forest) : (depth : Nat) → (ForestId × NodeId) → Tree → Except Fault Tree
  | 0, _, _ => throw .endlessDescent
  | depth + 1, (id, place), t => do
    match (← f.node id).families with
    | [] => pure t
    | family :: _ =>
      let (places, t) ← f.copyChildren place family t
      places.reverse.foldlM (fun t child => f.descend depth child t) t

/-- The tree of first families below a node. -/
def firstTree (f : Forest) (root : ForestId) : Except Fault Tree := do
  let node ← Fault.foreignRoot.orElse (f.node? root)
  let (place, t) ← f.copyNode root node.action .empty
  f.descend f.size (root, place) { t with root := place }

end Forest
end BottomUp
