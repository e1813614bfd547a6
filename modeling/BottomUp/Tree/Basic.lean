/-
# Syntax trees

The nodes of a tree stand in one array and refer to each other by their places:
each node lists its children and names its parent. Nodes that were made and not
linked yet, or not any more, stand beside the tree below the root. A node made from a token has the
token's text and span, and it may carry a tree of its own: the result of parsing
that text by another grammar.

There are `NodeId.limit` places for nodes. It is left out here that they may be used up where
nodes are added one by one, as `Tree.addNode` and `Tree.addToken` do: such a tree has as many nodes as
it is given. Only where all nodes of a carried tree are added at once are the places counted.

Key definitions: `Node`, `NodeId.limit`, `Tree`, `Token`, `Tree.appendChild`, `Edit`, `Tree.edit`.
-/
import BottomUp.Span
import BottomUp.Symbol
import BottomUp.Value

namespace BottomUp

/-- The place of a node in its tree. -/
abbrev NodeId := Nat

/-- How many places there are for nodes. -/
def NodeId.limit : Nat := UInt32.size

/-- A node of a tree, where `σ` is the type of the trees that nodes may carry. -/
structure NodeOf (σ : Type) where
  symbol : Symbol
  action : NodeAction
  parent : Option NodeId
  children : Array NodeId
  /-- The properties in the order in which they were first set, each name once. -/
  properties : List (String × Value)
  text : Option String
  span : Option Span
  /-- The tree that the node carries. -/
  sub : Option σ
  deriving Inhabited

/-- A tree: its nodes, and the place of its root. -/
structure Tree where
  nodes : Array (NodeOf Tree)
  root : NodeId
  deriving Inhabited

/-- A node of a tree. -/
abbrev Node := NodeOf Tree

/-- A terminal read from the input: its text, where it stands, and the tree that
was made of the text by another grammar, if there is one. -/
structure Token where
  symbol : SymbolId
  text : String
  span : Span
  sub : Option Tree
  deriving Inhabited

/-- The token of a text that stands at the front of the input. -/
def Token.ofText (symbol : SymbolId) (text : String) : Token :=
  ⟨symbol, text, ⟨0, text.utf8ByteSize⟩, none⟩

namespace Node

/-- A node that is not linked to any other. -/
def fresh (symbol : Symbol) (action : NodeAction) : Node :=
  ⟨symbol, action, none, #[], [], none, none, none⟩

/-- The value of a property. -/
def property? (n : Node) (name : String) : Option Value := n.properties.lookup name

end Node

/-- Sets the value under a name, in its place if the name is there. -/
def setProperty (properties : List (String × Value)) (name : String) (value : Value) :
    List (String × Value) :=
  if properties.any (·.1 = name) then
    properties.map fun (n, v) => if n = name then (n, value) else (n, v)
  else properties ++ [(name, value)]

namespace Tree

/-- The tree without nodes. -/
def empty : Tree := ⟨#[], 0⟩

/-- The tree of a single node. -/
def single (symbol : Symbol) (action : NodeAction) : Tree := ⟨#[Node.fresh symbol action], 0⟩

/-- The number of nodes, linked or not. -/
def size (t : Tree) : Nat := t.nodes.size

def node? (t : Tree) (id : NodeId) : Option Node := t.nodes[id]?

/-- The node at a place, or the fault that there is none. -/
def node (t : Tree) (id : NodeId) : Except Fault Node := Fault.missingNode.orElse (t.node? id)

/-- The children of a node; a place without a node has none. -/
def children (t : Tree) (id : NodeId) : List NodeId := ((t.node? id).map (·.children.toList)).getD []

def parent? (t : Tree) (id : NodeId) : Option NodeId := (t.node? id).bind (·.parent)

/-- The action of a node; a place without a node keeps what it has. -/
def action (t : Tree) (id : NodeId) : NodeAction := ((t.node? id).map (·.action)).getD .keep

/-- Changes the node at a place. -/
def modify (t : Tree) (id : NodeId) (f : Node → Node) : Tree :=
  { t with nodes := t.nodes.modify id f }

/-- Adds a node that is not linked to any other, and tells its place. -/
def addNode (t : Tree) (symbol : Symbol) (action : NodeAction) : NodeId × Tree :=
  (t.size, { t with nodes := t.nodes.push (Node.fresh symbol action) })

/-- Adds a node that holds a token, and tells its place. -/
def addToken (t : Tree) (symbol : Symbol) (token : Token) (action : NodeAction) : NodeId × Tree :=
  let node := { Node.fresh symbol action with
    text := some token.text, span := some token.span, sub := token.sub }
  (t.size, { t with nodes := t.nodes.push node })

/-- Takes a node out of the children of its parent. -/
def detach (t : Tree) (child : NodeId) : Tree :=
  match t.parent? child with
  | none => t
  | some old =>
    (t.modify child fun n => { n with parent := none }).modify old fun n =>
      { n with children := n.children.filter (· ≠ child) }

/-- Makes a node the last child of another, and of no other node. -/
def appendChild (t : Tree) (parent child : NodeId) : Tree :=
  ((t.detach child).modify child fun n => { n with parent := some parent }).modify parent fun n =>
    { n with children := n.children.push child }

def setAction (t : Tree) (id : NodeId) (action : NodeAction) : Tree :=
  t.modify id fun n => { n with action }

def setProperty (t : Tree) (id : NodeId) (name : String) (value : Value) : Tree :=
  t.modify id fun n => { n with properties := BottomUp.setProperty n.properties name value }

/-- Lets a node carry a tree. -/
def setSub (t : Tree) (id : NodeId) (sub : Tree) : Tree :=
  t.modify id fun n => { n with sub := some sub }

end Tree

/-- A change to a tree. -/
inductive Edit where
  | addNode (symbol : Symbol) (action : NodeAction)
  | addToken (symbol : Symbol) (token : Token) (action : NodeAction)
  | appendChild (parent child : NodeId)
  | setAction (id : NodeId) (action : NodeAction)
  | setProperty (id : NodeId) (name : String) (value : Value)
  | setSub (id : NodeId) (sub : Tree)

/-- The places of nodes that a change names. -/
def Edit.places : Edit → List NodeId
  | .addNode _ _ | .addToken _ _ _ => []
  | .appendChild parent child => [parent, child]
  | .setAction id _ | .setProperty id _ _ | .setSub id _ => [id]

/-- The tree after a change. -/
def Tree.apply (t : Tree) : Edit → Tree
  | .addNode symbol action => (t.addNode symbol action).2
  | .addToken symbol token action => (t.addToken symbol token action).2
  | .appendChild parent child => t.appendChild parent child
  | .setAction id action => t.setAction id action
  | .setProperty id name value => t.setProperty id name value
  | .setSub id sub => t.setSub id sub

/-- The tree after a change that names nodes of the tree only. -/
def Tree.edit (t : Tree) (e : Edit) : Except Fault Tree :=
  if e.places.all (· < t.size) then .ok (t.apply e) else .error .missingNode

end BottomUp
