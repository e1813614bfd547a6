/-
# The deterministic parser

The parser keeps a stack of states and a stack of nodes. A shift puts the node of
the next token on the stack; a reduction takes the nodes for the symbols of a rule
off the stack, in their order, and puts the node of the rule's head in their place,
with a fresh node for each virtual symbol; acceptance gives the tree below the
topmost node. Each step takes the one move that the control offers. The nodes of a parse are
added one by one, and for these it is left out that the places may be used up.

Key definitions: `Parser`, `Parser.step`, `Parser.run`, `parseTree`, `parse`.
-/
import BottomUp.Parse.Stop

namespace BottomUp

/-- The state of a deterministic parse; the tops of the stacks come first. -/
structure Parser where
  states : List StateId
  nodes : List NodeId
  tree : Tree
  input : List Token

/-- What a step leads to. -/
inductive Progress where
  | running (p : Parser)
  | accepted (t : Tree)

namespace Parser

/-- The start of a parse. -/
def start (c : Control) (input : List Token) : Parser := ⟨[c.initial], [], .empty, input⟩

/-- Reads the next token and goes on in another state. -/
def shift (c : Control) (p : Parser) (next : StateId) : Except Stop Parser :=
  match p.input with
  | [] => throw (.rejected (.unexpectedEnd []))
  | token :: input => do
    let symbol ← Stop.orElse (.unknownSymbol token.symbol) (c.symbol? token.symbol)
    let (node, tree) := p.tree.addToken symbol token .keep
    pure ⟨next :: p.states, node :: p.nodes, tree, input⟩

/-- Puts the elements of a body under the node of the head: the nodes given for those that
are parsed, and fresh ones for virtual symbols. -/
def attach (head : NodeId) : List Element → List NodeId → Tree → Except Stop Tree
  | [], _, t => pure t
  | e :: body, nodes, t =>
    if e.symbol.isParsed then
      match nodes with
      | [] => throw (.rejected .emptyStack)
      | node :: nodes => attach head body nodes ((t.setAction node e.action).appendChild head node)
    else
      let (node, t) := t.addNode e.symbol .keep
      attach head body nodes ((t.setAction node e.action).appendChild head node)

/-- Reduces by a rule. -/
def reduce (c : Control) (p : Parser) (id : RuleId) : Except Stop Parser := do
  let rule ← Stop.ofFault (Fault.missingRule.orElse (c.rule? id))
  let n := rule.arity
  let nodes := p.nodes.take n
  let states := p.states.drop n
  if nodes.length < n || states.isEmpty then throw (.rejected .emptyStack)
  let (head, tree) := p.tree.addNode rule.head .keep
  let tree ← attach head rule.body nodes.reverse tree
  let top ← Stop.orElse .emptyStack states.head?
  let next ← Stop.orElse (.missingGoto top rule.head.id) (c.goto? top rule.head.id)
  pure ⟨next :: states, head :: p.nodes.drop n, tree, p.input⟩

/-- Takes the one move that the control offers. -/
def step (c : Control) (p : Parser) : Except Stop Progress := do
  let state ← Stop.orElse .emptyStack p.states.head?
  let lookahead := Control.lookahead p.input
  match c.moves state lookahead with
  | [] => throw (.rejected (c.unexpected [state] p.input.head?))
  | [.shift next] => pure (.running (← p.shift c next))
  | [.reduce rule] => pure (.running (← p.reduce c rule))
  | [.accept] =>
    let root ← Stop.orElse .emptyStack p.nodes.head?
    pure (.accepted { p.tree with root })
  | _ => throw (.rejected (.conflict state lookahead))

/-- Takes steps until the input is accepted, for at most so many steps. -/
def run (c : Control) : (steps : Nat) → Parser → Except Stop Tree
  | 0, _ => throw .unfinished
  | steps + 1, p => do
    match ← p.step c with
    | .accepted t => pure t
    | .running p => run c steps p

end Parser

/-- The raw parse tree of an input. -/
def parseTree (c : Control) (steps : Nat) (input : List Token) : Except Stop Tree :=
  (Parser.start c input).run c steps

/-- The tree of an input, in its final form. -/
def parse (c : Control) (steps : Nat) (input : List Token) : Except Stop Tree := do
  Stop.reduced (← parseTree c steps input)

end BottomUp
