/-
# Applying node actions

The reduction turns a raw parse tree into its final form. A node that is dropped
goes with all below it; one that is replaced leaves its children in its place; one
that is promoted takes the slot of its parent, and what the slot held on the left
comes first among its children. A node that carries a tree gives way to that tree.
The root has to stay.

The work is done on a stack of frames, one for each node that is met. A frame is
opened on the way down: the children of its node are taken off, and those that
stay get frames of their own. It is closed on the way up: the node is put under the
node that then holds the slot of its parent frame. At the end the nodes that hang on the
root are copied in the order of a walk, and nothing else is kept.

The nodes of a carried tree are put behind all others, and the reduction stops if one of the places
that they name would lie beyond the last one. The copies at the end need no such check: in a linked
tree a node that has a place is copied once at most.

Key definitions: `ReduceError`, `ReduceStop`, `Tree.graft`, `Frame`, `Reduction`, `Reduction.step`,
`Tree.compact`, `Tree.reduce`.
-/
import BottomUp.Tree.Basic

namespace BottomUp

/-- Why a tree cannot be reduced. -/
inductive ReduceError where
  | promoteAtRoot
  | rootRemoved (action : NodeAction)
  deriving DecidableEq

/-- The name of an action in a message. -/
def NodeAction.label : NodeAction → String
  | .keep => "Nothing"
  | .promote => "Promote"
  | .drop => "Drop"
  | .replace => "Replace"

/-- The text of an error. -/
def ReduceError.message : ReduceError → String
  | .promoteAtRoot => "the root node cannot be promoted"
  | .rootRemoved action => s!"the root node cannot be removed (action = {action.label})"

/-- What stops a reduction. -/
inductive ReduceStop where
  | rejected (error : ReduceError)
  | fault (fault : Fault)
  deriving DecidableEq

/-- Passes a fault on. -/
def ReduceStop.ofFault {α : Type} : Except Fault α → Except ReduceStop α
  | .ok a => .ok a
  | .error f => .error (.fault f)

namespace Tree

mutual

/-- The number of nodes of a tree and of all the trees that they carry. -/
def weight : Tree → Nat
  | ⟨⟨nodes⟩, _⟩ => weightOfNodes nodes

/-- The number of nodes in a list and in all the trees that they carry. -/
def weightOfNodes : List (NodeOf Tree) → Nat
  | [] => 0
  | n :: ns => weightOfNode n + weightOfNodes ns

/-- A node counts one, besides the tree that it carries. -/
def weightOfNode : NodeOf Tree → Nat
  | ⟨_, _, _, _, _, _, _, none⟩ => 1
  | ⟨_, _, _, _, _, _, _, some sub⟩ => 1 + sub.weight

end

/-- The places that the tree names: its root, and the parents and children of its nodes. -/
def named (t : Tree) : List NodeId :=
  t.root :: t.nodes.toList.flatMap fun n => n.parent.toList ++ n.children.toList

/-- The nodes of both trees, where the root of the other one is linked to none. -/
def join (t other : Tree) : Tree :=
  let offset := t.size
  let moved := other.nodes.map fun n =>
    { n with parent := n.parent.map (· + offset), children := n.children.map (· + offset) }
  ({ t with nodes := t.nodes ++ moved } : Tree).modify (other.root + offset) fun n =>
    { n with parent := none }

/-- Adds the nodes of another tree and tells the place of its root. No place that it names
may come to lie beyond the last one. -/
def graft (t other : Tree) : Except Fault (NodeId × Tree) :=
  if other.named.all fun id => id + t.size < NodeId.limit then
    .ok (other.root + t.size, t.join other)
  else .error .nodeOverflow

/-- The node that is left where a node was copied from. -/
def blank : Node := Node.fresh ⟨.endOfInput, "", .terminal⟩ .keep

/-- Copies the nodes on the stack, each with the place of its parent's copy, and those below
them, within so many steps. -/
def copyWithin : (steps : Nat) → (old : Array Node) → (stack : List (NodeId × Option NodeId)) →
    (copies : Array Node) → Array Node
  | 0, _, _, copies => copies
  | _, _, [], copies => copies
  | steps + 1, old, (id, parent) :: stack, copies =>
    let place := copies.size
    let node := old.getD id blank
    let copy := { node with action := .keep, parent, children := #[], sub := none }
    let copies := copies.push copy
    let copies := match parent with
      | none => copies
      | some p => copies.modify p fun n => { n with children := n.children.push place }
    copyWithin steps (old.setIfInBounds id blank)
      (node.children.toList.map (fun child => (child, some place)) ++ stack) copies

/-- The tree of the nodes that hang on the root, in the order of a walk, each with nothing
left to be done to it. -/
def compact (t : Tree) : Tree :=
  let steps := t.nodes.foldl (fun n node => n + node.children.size) 1
  ⟨copyWithin steps t.nodes [(t.root, none)] #[], 0⟩

/-- Puts `node` into the slot of `old`. The children that `old` has by then come first
below `node`; but if `node` is no child of `old`, then `old` was promoted itself, and it is
`old` that comes first. -/
def promote (t : Tree) (node old : NodeId) : Tree :=
  let isChild := t.parent? node == some old
  let action := t.action old
  let parent := t.parent? old
  let t := t.modify node fun n => { n with action, parent }
  if isChild then
    let siblings := t.children old
    let t := t.modify old fun n => { n with children := #[] }
    let t := siblings.foldl (fun t s => t.modify s fun n => { n with parent := some node }) t
    t.modify node fun n => { n with children := siblings.toArray ++ n.children }
  else
    let t := t.modify node fun n => { n with children := #[old] ++ n.children }
    t.modify old fun n => { n with parent := some node }

end Tree

/-- A node that is being reduced. -/
structure Frame where
  /-- The node; a child that is promoted takes its place. -/
  node : NodeId
  opened : Bool
  /-- The frame whose node the node is put under. -/
  parent : Option Nat
  deriving Inhabited

/-- The state of a reduction. -/
structure Reduction where
  tree : Tree
  frames : Array Frame
  /-- The frames that are not closed yet. -/
  stack : List Nat

namespace Reduction

/-- Puts a frame for a node on the stack. -/
def push (r : Reduction) (node : NodeId) (parent : Option Nat) : Reduction :=
  let place := r.frames.size
  ⟨r.tree, r.frames.push ⟨node, false, parent⟩, place :: r.stack⟩

/-- The node that stands for a child: the root of the tree that it carries, if it carries one. -/
def substitute (t : Tree) (parent child : NodeId) : Except Fault (Option NodeId × Tree) :=
  match (t.node? child).bind (·.sub) with
  | none => pure (some child, t)
  | some sub => do
    let (root, t) ← (t.modify child fun n => { n with sub := none }).graft sub
    if t.action root = .drop then pure (none, t)
    else pure (some root, t.modify root fun n => { n with parent := some parent })

/-- The node to make a frame for when the children of `parent` are taken off, none if the child is
dropped. A child of a node that is replaced is linked to the grandparent before. -/
def release (t : Tree) (parent : NodeId) (action : NodeAction) (grandparent : Option NodeId)
    (child : NodeId) : Except Fault (Option NodeId × Tree) :=
  let t := if action = .replace then t.modify child fun n => { n with parent := grandparent } else t
  if t.action child = .drop then pure (none, t) else substitute t parent child

/-- Makes a frame for a child of the node of an open frame. The children of a node that is
replaced belong to the parent of its frame. -/
def schedule (r : Reduction) (current : Nat) (frame : Frame) (action : NodeAction)
    (grandparent : Option NodeId) (child : NodeId) : Except Fault Reduction := do
  match r with
  | ⟨tree, frames, stack⟩ =>
    match ← release tree frame.node action grandparent child with
    | (none, tree) => pure ⟨tree, frames, stack⟩
    | (some node, tree) =>
      let parent := if action = .replace then frame.parent else some current
      pure (push ⟨tree, frames, stack⟩ node parent)

/-- Opens a frame: takes the children off its node and makes frames for them, the first
child on top of the stack. -/
def openFrame (r : Reduction) (current : Nat) (frame : Frame) : Except Fault Reduction :=
  let action := r.tree.action frame.node
  let grandparent := r.tree.parent? frame.node
  let children := r.tree.children frame.node
  let r := { r with
    tree := r.tree.modify frame.node fun n => { n with children := #[] }
    frames := r.frames.modify current fun f => { f with opened := true } }
  children.reverse.foldlM (fun r child => r.schedule current frame action grandparent child) r

/-- Closes a frame: its node is promoted into the slot of the parent frame or put under the
node there. A node that is replaced has left its place to its children. -/
def closeFrame (r : Reduction) (frame : Frame) : Except ReduceStop Reduction :=
  match r.tree.action frame.node, frame.parent with
  | .replace, _ => .ok r
  | .promote, none => .error (.rejected .promoteAtRoot)
  | .promote, some p =>
    let slot := (r.frames.getD p default).node
    .ok { r with
      tree := r.tree.promote frame.node slot
      frames := r.frames.modify p fun f => { f with node := frame.node } }
  | _, none => .ok r
  | _, some p =>
    let slot := (r.frames.getD p default).node
    let tree := r.tree.modify frame.node fun n => { n with parent := some slot }
    .ok { r with tree := tree.modify slot fun n => { n with children := n.children.push frame.node } }

/-- Opens the frame on top of the stack, or closes it if it is open. -/
def step (r : Reduction) : Except ReduceStop Reduction :=
  match r.stack with
  | [] => .ok r
  | current :: stack =>
    let frame := r.frames.getD current default
    if frame.opened then ({ r with stack } : Reduction).closeFrame frame
    else ReduceStop.ofFault (r.openFrame current frame)

/-- Takes steps until no frame is left, for at most so many steps. -/
def run : (steps : Nat) → Reduction → Except ReduceStop Reduction
  | 0, r => .ok r
  | steps + 1, r => if r.stack.isEmpty then .ok r else do run steps (← r.step)

/-- The reduction of a tree with all still to be done. -/
def start (t : Tree) : Reduction := ⟨t, #[⟨t.root, false, none⟩], [0]⟩

end Reduction

namespace Tree

/-- More steps than a reduction takes: two for each frame. -/
def reductionBound (t : Tree) : Nat := 8 * (t.weight + 1)

/-- The final form of a tree. -/
def reduce (t : Tree) : Except ReduceStop Tree := do
  match t.action t.root with
  | .promote => throw (.rejected .promoteAtRoot)
  | .drop => throw (.rejected (.rootRemoved .drop))
  | .replace => throw (.rejected (.rootRemoved .replace))
  | .keep =>
    let r ← (Reduction.start t).run t.reductionBound
    let root := (r.frames.getD 0 default).node
    let tree : Tree := { r.tree with root }
    pure (tree.modify root fun n => { n with parent := none }).compact

end Tree

end BottomUp
