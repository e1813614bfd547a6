/-
# Packed parse forests

A forest holds all derivations of one input. A node stands for a symbol over a
span of the input, and there is one node for each symbol and span. Each derivation
of a node is a family of children, kept in the order in which they were found; the
children are nodes again, which any number of families may share. No two families
of a node have children for the same symbols and spans. A leaf holds its token.

The nodes are found through an index on symbol and span. It is part of the type
that the index finds the same node as a search through all nodes from the first.

There is a largest number for a node, as there is for a place in a tree. It is left out here that
the numbers may be used up: `Forest.nodeFor` makes as many nodes as it is asked for.

Key definitions: `Forest`, `Forest.nodeFor`, `Forest.leafFor`, `Forest.addFamily`.
Key theorem: `Forest.find?_eq`.
-/
import BottomUp.Tree.Basic
import Std.Data.TreeMap

namespace BottomUp

/-- The place of a node in its forest. -/
abbrev ForestId := Nat

/-- A child in a family, with the action of the rule's element that it was matched with. -/
structure Child where
  node : ForestId
  action : NodeAction
  deriving DecidableEq, Inhabited

/-- A node of a forest. -/
structure ForestNode where
  symbol : Symbol
  /-- Where the span starts. -/
  start : Nat
  /-- Where the span stops. -/
  stop : Nat
  /-- The action of the root of a tree that starts here. -/
  action : NodeAction
  families : List (List Child)
  token : Option Token
  deriving Inhabited

/-- What tells the nodes of a forest apart: the symbol and the span. -/
structure PackingKey where
  symbol : SymbolId
  start : Nat
  stop : Nat
  deriving DecidableEq, Inhabited

namespace PackingKey

instance : Ord PackingKey where
  compare := compareLex (compareOn stop) (compareLex (compareOn start) (compareOn symbol))

instance : Std.TransOrd PackingKey :=
  inferInstanceAs (Std.TransCmp
    (compareLex (compareOn stop) (compareLex (compareOn start) (compareOn symbol))))

instance : Std.LawfulEqOrd PackingKey where
  eq_of_compare {a b} h := by
    change compareLex (compareOn stop) (compareLex (compareOn start) (compareOn symbol)) a b = .eq
      at h
    simp only [compareLex_eq_eq, compareOn, Std.LawfulEqOrd.compare_eq_iff_eq] at h
    cases a
    cases b
    simp_all

end PackingKey

namespace ForestNode

def key (n : ForestNode) : PackingKey := ⟨n.symbol.id, n.start, n.stop⟩

/-- Whether there are several derivations. -/
def isAmbiguous (n : ForestNode) : Bool := n.families.length > 1

end ForestNode

/-- A forest: its nodes by place, and the place of the node for each symbol and span. -/
structure Forest where
  nodes : Array ForestNode
  index : Std.TreeMap PackingKey ForestId
  index_eq : ∀ key, index[key]? = nodes.findIdx? (·.key = key)

namespace Forest

/-- The forest without nodes. -/
def empty : Forest := ⟨#[], ∅, fun _ => by simp⟩

instance : Inhabited Forest := ⟨.empty⟩

def size (f : Forest) : Nat := f.nodes.size

def node? (f : Forest) (id : ForestId) : Option ForestNode := f.nodes[id]?

/-- The node at a place, or the fault that there is none. -/
def node (f : Forest) (id : ForestId) : Except Fault ForestNode :=
  Fault.missingNode.orElse (f.node? id)

/-- Whether some node has several derivations. -/
def isAmbiguous (f : Forest) : Bool := f.nodes.any (·.isAmbiguous)

/-- The search for a key does not see changes that keep the symbols and spans. -/
theorem findIdx?_modify (nodes : Array ForestNode) (id : ForestId)
    (change : ForestNode → ForestNode) (keeps : ∀ n, (change n).key = n.key) (key : PackingKey) :
    (nodes.modify id change).findIdx? (·.key = key) = nodes.findIdx? (·.key = key) := by
  have map_key : (nodes.modify id change).map (·.key) = nodes.map (·.key) := by
    apply Array.ext
    · simp
    · intro i h h'
      simp only [Array.getElem_map, Array.getElem_modify]
      split <;> simp [keeps]
  have search (ns : Array ForestNode) :
      ns.findIdx? (·.key = key) = (ns.map (·.key)).findIdx? (· = key) := by
    rw [Array.findIdx?_map]
    rfl
  rw [search, search, map_key]

/-- Changes the node at a place, but not its symbol and span. -/
def modify (f : Forest) (id : ForestId) (change : ForestNode → ForestNode)
    (keeps : ∀ n, (change n).key = n.key) : Forest :=
  ⟨f.nodes.modify id change, f.index, fun key => by
    rw [f.index_eq, findIdx?_modify _ _ _ keeps]⟩

/-- The place of the node for a symbol and span, if there is one. -/
def find? (f : Forest) (key : PackingKey) : Option ForestId := f.index[key]?

/-- The node found is the first one for the symbol and span. -/
theorem find?_eq (f : Forest) (key : PackingKey) :
    f.find? key = f.nodes.findIdx? (·.key = key) := f.index_eq key

/-- Adds a node for a symbol and span that there is no node for. -/
def add (f : Forest) (n : ForestNode) (h : f.find? n.key = none) : Forest :=
  match f with
  | ⟨nodes, index, index_eq⟩ =>
    let place := nodes.size
    ⟨nodes.push n, index.insert n.key place, fun key => by
      have missing : nodes.findIdx? (·.key = n.key) = none := by rw [← index_eq]; exact h
      rw [Std.TreeMap.getElem?_insert, Array.findIdx?_push, index_eq]
      by_cases eq : n.key = key
      · subst eq
        simp [missing, place]
      · have ne : compare n.key key ≠ .eq := fun c => eq (Std.LawfulEqOrd.eq_of_compare c)
        simp [eq, ne]⟩

/-- The node for a symbol and span, made if there is none. -/
def nodeFor (f : Forest) (symbol : Symbol) (start stop : Nat) : ForestId × Forest :=
  match h : f.find? ⟨symbol.id, start, stop⟩ with
  | some id => (id, f)
  | none =>
    let place := f.size
    (place, f.add ⟨symbol, start, stop, .keep, [], none⟩ h)

/-- The leaf for a token read at a position; the first token given for a symbol and
position is the one that stays. -/
def leafFor (f : Forest) (symbol : Symbol) (token : Token) (start : Nat) : ForestId × Forest :=
  let (id, f) := f.nodeFor symbol start (start + 1)
  (id, f.modify id (fun n => { n with token := n.token <|> some token }) fun _ => rfl)

/-- The leaf for a token at any position but the largest one, behind which there is none. -/
def leafAt (f : Forest) (symbol : Symbol) (token : Token) (start : Nat) :
    Except Fault (ForestId × Forest) := do
  let _ ← Position.check (start + 1)
  pure (f.leafFor symbol token start)

/-- Sets the action of a node. -/
def setAction (f : Forest) (id : ForestId) (action : NodeAction) : Except Fault Forest := do
  let _ ← f.node id
  pure (f.modify id (fun n => { n with action }) fun _ => rfl)

/-- Whether two nodes stand for the same symbol over the same span. -/
def equivalent (f : Forest) (a b : ForestId) : Except Fault Bool := do
  pure ((← f.node a).key = (← f.node b).key)

/-- Whether children stand pairwise for the same symbols over the same spans. -/
def sameChildren (f : Forest) : List Child → List Child → Except Fault Bool
  | a :: as, b :: bs => do
    if (← f.node a.node).key = (← f.node b.node).key then f.sameChildren as bs else pure false
  | [], [] => pure true
  | _, _ => pure false

/-- Whether one of the families has as many children, pairwise for the same symbols and spans. -/
def anySame (f : Forest) (children : List Child) : List (List Child) → Except Fault Bool
  | [] => pure false
  | family :: rest => do
    if family.length = children.length then
      if ← f.sameChildren family children then return true
    f.anySame children rest

/-- Whether a node has a derivation by children for the same symbols and spans. -/
def hasFamily (f : Forest) (id : ForestId) (children : List Child) : Except Fault Bool := do
  f.anySame children (← f.node id).families

/-- Adds a derivation to a node unless it has one like it, and tells whether it was added. -/
def addFamily (f : Forest) (id : ForestId) (children : List Child) : Except Fault (Bool × Forest) := do
  if ← f.hasFamily id children then pure (false, f)
  else
    pure (true, f.modify id (fun n => { n with families := n.families ++ [children] }) fun _ => rfl)

end Forest

end BottomUp
