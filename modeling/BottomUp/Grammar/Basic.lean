/-
# Grammars

A rule derives its body from its head. The body lists symbols with the action
that their nodes take, virtual symbols among them; what is matched against the
input is the body without the virtual symbols. The number of a symbol or of a
rule is its place in the grammar, and rule 0 derives the start symbol from the goal.

Key definitions: `Element`, `Rule`, `Grammar`, `Rule.right`, `Grammar.text`.
-/
import BottomUp.Symbol

namespace BottomUp

/-- A symbol in the body of a rule, with the action that its node takes. -/
structure Element where
  symbol : Symbol
  action : NodeAction
  deriving DecidableEq, Inhabited

/-- A production rule. -/
structure Rule where
  head : Symbol
  body : List Element
  deriving DecidableEq, Inhabited

namespace Rule

/-- The elements of the body that are matched or derived: all but the virtual symbols. -/
def parsed (r : Rule) : List Element := r.body.filter (·.symbol.isParsed)

/-- The symbols that are matched or derived, in order. -/
def right (r : Rule) : List SymbolId := r.parsed.map (·.symbol.id)

/-- The number of symbols that are matched or derived. -/
def arity (r : Rule) : Nat := r.parsed.length

theorem length_right (r : Rule) : r.right.length = r.arity := by simp [right, arity]

/-- The text of a rule: the head, then the body with the marks of its actions. -/
def text (r : Rule) : String :=
  r.head.name ++ " :=" ++
    if r.body.isEmpty then " ε"
    else String.join (r.body.map fun e => " " ++ e.symbol.name ++ e.action.mark)

end Rule

/-- A grammar: its symbols and rules by number, and the start symbol. -/
structure Grammar where
  symbols : Array Symbol
  rules : Array Rule
  start : SymbolId
  deriving Inhabited

namespace Grammar

def symbol? (g : Grammar) (id : SymbolId) : Option Symbol := g.symbols[id]?

def rule? (g : Grammar) (id : RuleId) : Option Rule := g.rules[id]?

/-- The symbols of one kind, in the order of their numbers. -/
def ofKind (g : Grammar) (kind : Kind) : List Symbol := g.symbols.toList.filter (·.kind = kind)

/-- Whether `id` is the number of a terminal. -/
def isTerminal (g : Grammar) (id : SymbolId) : Bool := (g.symbol? id).any (·.isTerminal)

/-- The name of a symbol; empty for a number that is none of a symbol. -/
def nameOf (g : Grammar) (id : SymbolId) : String := ((g.symbol? id).map (·.name)).getD ""

/-- The text of a rule; empty for a number that is none of a rule. -/
def ruleText (g : Grammar) (id : RuleId) : String := ((g.rule? id).map (·.text)).getD ""

/-- The symbols on the right of a rule; none for a number that is none of a rule. -/
def right (g : Grammar) (id : RuleId) : List SymbolId := ((g.rule? id).map (·.right)).getD []

/-- The rules with their numbers. -/
def numberedRules (g : Grammar) : List (RuleId × Rule) :=
  g.rules.toList.zipIdx.map fun (rule, id) => (id, rule)

/-- The numbers of the rules that derive from `left`. -/
def rulesOf (g : Grammar) (left : SymbolId) : List RuleId :=
  (g.numberedRules.filter fun (_, rule) => rule.head.id = left).map (·.1)

/-- The first symbol of that name. -/
def find? (g : Grammar) (name : String) : Option SymbolId :=
  (g.symbols.toList.find? (·.name = name)).map (·.id)

/-- Each text on a line of its own. -/
def lines (texts : List String) : String := String.join (texts.map (· ++ "\n"))

/-- The text of a grammar: its symbols by kind, then its rules. -/
def text (g : Grammar) : String :=
  let terminals := (g.ofKind .terminal).map (·.name)
  let nonterminals := (g.ofKind .nonterminal).map fun s =>
    s.name ++ if s.id = g.start then " (start)" else ""
  let virtuals := (g.ofKind .virtual).map (·.name)
  "## terminals:\n" ++ lines terminals ++
    "\n## nonterminals:\n" ++ lines nonterminals ++
    (if virtuals.isEmpty then "" else "\n## virtuals:\n" ++ lines virtuals) ++
    "\n## rules:\n" ++ lines (g.rules.toList.map (·.text))

end Grammar

end BottomUp
