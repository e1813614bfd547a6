/-
# The generalized parser

The parser follows all moves that the control offers. After each token the tops of
the stacks form the frontier, one for each state. All reductions on the frontier
are made, along every path, until none adds an edge to a node that was there
before: such an edge opens new paths for nodes already visited. Then the token is
shifted from each top that can. The derivations are packed into a forest.

Key definitions: `Session`, `Session.reduceAlong`, `Session.reduceAll`, `Session.shift`,
`ParseForest`, `parseForest`, `parseGeneralized`.
-/
import BottomUp.Forest.FirstTree
import BottomUp.Parse.StackGraph
import BottomUp.Parse.Stop

namespace BottomUp

/-- The state of a generalized parse. -/
structure Session where
  graph : StackGraph
  forest : Forest
  /-- The tops of the stacks by state, in the order in which they were reached. -/
  frontier : List (StateId × Nat)

/-- What the reductions on a lookahead leave to do. -/
structure Outcome where
  /-- The tops that shift the lookahead, each with the state that it goes to. -/
  shifts : List (Nat × StateId)
  /-- The root of the forest, if the input is accepted. -/
  accepted : Option ForestId
  deriving DecidableEq, Inhabited

namespace Session

/-- The start of a parse. -/
def start (c : Control) : Session :=
  let (top, graph) := StackGraph.empty.addNode c.initial 0
  ⟨graph, .empty, [(c.initial, top)]⟩

/-- The children for the elements of a body: the labels for those that are parsed, and for a
virtual symbol the node of the empty span behind the child before it. -/
def children : List Element → (labels : List ForestId) → (position : Nat) → Forest →
    Except Stop (List Child × Forest)
  | [], _, _, f => pure ([], f)
  | e :: body, labels, position, f =>
    if e.symbol.isParsed then
      match labels with
      | [] => throw (.rejected .emptyStack)
      | label :: labels => do
        let node ← Stop.ofFault (f.node label)
        let (rest, f) ← children body labels node.stop f
        pure (⟨label, e.action⟩ :: rest, f)
    else do
      let (node, f) := f.nodeFor e.symbol position position
      let (rest, f) ← children body labels position f
      pure (⟨node, e.action⟩ :: rest, f)

/-- Makes the top that a reduction leads to, or adds an edge to it, and tells whether an edge
was added to a top that was there before. -/
def link (s : Session) (next : StateId) (generation : Nat) (far : Nat) (label : ForestId) :
    Bool × Session :=
  match s.frontier.lookup next with
  | some top =>
    let (added, graph) := s.graph.addEdge top far label
    (added, { s with graph })
  | none =>
    let (top, graph) := s.graph.addNode next generation
    let (_, graph) := graph.addEdge top far label
    (false, { s with graph, frontier := s.frontier ++ [(next, top)] })

/-- Reduces by a rule along one path, and tells whether an edge was added to a top that was
there before. -/
def reduceAlong (c : Control) (rule : Rule) (generation : Nat) (s : Session)
    (path : List ForestId × Nat) : Except Stop (Bool × Session) := do
  let (labels, far) := path
  let bottom := s.graph.node far
  let (children, forest) ← children rule.body labels bottom.generation s.forest
  let (label, forest) := forest.nodeFor rule.head bottom.generation generation
  let (_, forest) ← Stop.ofFault (forest.addFamily label children)
  let next ← Stop.orElse (.missingGoto bottom.state rule.head.id)
    (c.goto? bottom.state rule.head.id)
  pure (({ s with forest } : Session).link next generation far label)

/-- Reduces by a rule along each of the paths. -/
def reducePaths (c : Control) (rule : Rule) (generation : Nat) :
    List (List ForestId × Nat) → Session → Except Stop (Bool × Session)
  | [], s => pure (false, s)
  | path :: paths, s => do
    let (changed, s) ← s.reduceAlong c rule generation path
    let (changed', s) ← reducePaths c rule generation paths s
    pure (changed || changed', s)

/-- Reduces by a rule along every path from a top that is as long as the rule. -/
def reduce (c : Control) (s : Session) (top : Nat) (id : RuleId) (generation : Nat) :
    Except Stop (Bool × Session) := do
  let rule ← Stop.ofFault (Fault.missingRule.orElse (c.rule? id))
  reducePaths c rule generation (s.graph.paths rule.arity top) s

/-- The label of the first edge from a top down to the start of the input. -/
def acceptedRoot (s : Session) (top : Nat) : Option ForestId :=
  ((s.graph.node top).edges.find? fun e => (s.graph.node e.target).generation = 0).map (·.label)

/-- Makes the moves of one top: reductions are made, shifts are noted, and acceptance counts
at the end of the input only. -/
def visit (c : Control) (generation : Nat) (lookahead : SymbolId) (top : Nat) :
    List Move → Session → Outcome → Except Stop (Bool × Session × Outcome)
  | [], s, outcome => pure (false, s, outcome)
  | .shift next :: moves, s, outcome =>
    let shifts := if (top, next) ∈ outcome.shifts then outcome.shifts
      else outcome.shifts ++ [(top, next)]
    visit c generation lookahead top moves s { outcome with shifts }
  | .reduce rule :: moves, s, outcome => do
    let (changed, s) ← s.reduce c top rule generation
    let (changed', s, outcome) ← visit c generation lookahead top moves s outcome
    pure (changed || changed', s, outcome)
  | .accept :: moves, s, outcome =>
    let outcome := if lookahead = SymbolId.endOfInput then
        { outcome with accepted := s.acceptedRoot top }
      else outcome
    visit c generation lookahead top moves s outcome

/-- Visits the tops of the frontier from a place on, those made meanwhile included, for at
most so many tops. -/
def pass (c : Control) (generation : Nat) (lookahead : SymbolId) :
    (steps place : Nat) → Session → Outcome → Except Stop (Bool × Session × Outcome)
  | 0, _, _, _ => throw .unfinished
  | steps + 1, place, s, outcome =>
    match s.frontier[place]? with
    | none => pure (false, s, outcome)
    | some (_, top) => do
      let moves := c.moves (s.graph.node top).state lookahead
      let (changed, s, outcome) ← visit c generation lookahead top moves s outcome
      let (changed', s, outcome) ← pass c generation lookahead steps (place + 1) s outcome
      pure (changed || changed', s, outcome)

/-- Visits the frontier until that changes nothing, for at most so many rounds of so many
tops each. -/
def reduceAll (c : Control) (generation : Nat) (lookahead : SymbolId) (steps : Nat) :
    (rounds : Nat) → Session → Outcome → Except Stop (Session × Outcome)
  | 0, _, _ => throw .unfinished
  | rounds + 1, s, outcome => do
    let (changed, s, outcome) ← pass c generation lookahead steps 0 s outcome
    if changed then reduceAll c generation lookahead steps rounds s outcome
    else pure (s, outcome)

/-- Shifts a leaf from one top. -/
def shiftFrom (generation : Nat) (leaf : ForestId) (s : Session) (shift : Nat × StateId) : Session :=
  let (source, next) := shift
  match s.frontier.lookup next with
  | some top => { s with graph := (s.graph.addEdge top source leaf).2 }
  | none =>
    let (top, graph) := s.graph.addNode next generation
    { s with graph := (graph.addEdge top source leaf).2, frontier := s.frontier ++ [(next, top)] }

/-- Reads a token: the tops that it leads to are the new frontier. -/
def shift (c : Control) (s : Session) (generation : Nat) (token : Token)
    (shifts : List (Nat × StateId)) : Except Stop Session := do
  let symbol ← Stop.orElse (.unknownSymbol token.symbol) (c.symbol? token.symbol)
  let (leaf, forest) := s.forest.leafFor symbol token generation
  pure (shifts.foldl (shiftFrom (generation + 1) leaf) ⟨s.graph, forest, []⟩)

/-- The error that no top of the frontier has a move on the next token. -/
def unexpected (c : Control) (s : Session) (next : Option Token) : Stop :=
  .rejected (c.unexpected (s.frontier.map (·.1)) next)

end Session

/-- All derivations of an input, and the node of the whole of it. -/
structure ParseForest where
  forest : Forest
  root : ForestId
  deriving Inhabited

namespace ParseForest

/-- Whether some part of the input has several derivations. -/
def isAmbiguous (p : ParseForest) : Bool := p.forest.isAmbiguous

/-- The tree of first derivations. -/
def firstTree (p : ParseForest) : Except Fault Tree := p.forest.firstTree p.root

end ParseForest

namespace Session

/-- Parses what is left of the input after so many tokens. -/
def run (c : Control) (steps : Nat) :
    (input : List Token) → (generation : Nat) → Session → Except Stop ParseForest
  | [], generation, s => do
    let (s, outcome) ← s.reduceAll c generation .endOfInput steps steps ⟨[], none⟩
    match outcome.accepted with
    | some root => pure ⟨s.forest, root⟩
    | none => throw (s.unexpected c none)
  | token :: input, generation, s => do
    let (s, outcome) ← s.reduceAll c generation token.symbol steps steps ⟨[], none⟩
    if outcome.shifts.isEmpty then throw (s.unexpected c (some token))
    let s ← s.shift c generation token outcome.shifts
    run c steps input (generation + 1) s

end Session

/-- All derivations of an input; `steps` bounds the rounds over a frontier and the tops in it. -/
def parseForest (c : Control) (steps : Nat) (input : List Token) : Except Stop ParseForest :=
  (Session.start c).run c steps input 0

/-- The raw tree of the first derivation of an input. -/
def firstParseTree (c : Control) (steps : Nat) (input : List Token) : Except Stop Tree := do
  Stop.ofFault (← parseForest c steps input).firstTree

/-- The first derivation of an input, in its final form. -/
def parseGeneralized (c : Control) (steps : Nat) (input : List Token) : Except Stop Tree := do
  Stop.reduced (← firstParseTree c steps input)

end BottomUp
