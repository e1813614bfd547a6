/-
# Defining a grammar

A grammar is defined by declaring symbols, giving rules and naming the start
symbol, in any order that declares before it uses. Each step checks what it is
given, and a step that fails leaves the draft as it was: a caller may catch the
error and go on. At the end the draft becomes a grammar if it has a nonterminal to
start from and each nonterminal has a rule.

Key definitions: `Draft`, `DefinitionError`, `Define`, `Grammar.define`.
-/
import BottomUp.Grammar.Basic
import BottomUp.Text.Identifier

namespace BottomUp

/-- Why a step of a definition, or its end, fails. -/
inductive DefinitionError where
  | invalidName (name : String)
  | alreadyDeclared (name : String)
  | leftNotNonterminal (id : SymbolId)
  | reservedSymbol (name : String)
  | unknownSymbol (id : SymbolId)
  | duplicateRule
  | startNotNonterminal (id : SymbolId)
  | noNonterminal
  | missingRules (name : String)
  /-- An error of the caller's own. -/
  | custom (message : String)
  deriving DecidableEq

/-- The text of an error. -/
def DefinitionError.message : DefinitionError → String
  | .invalidName name => s!"incorrect symbol name: `{name}'"
  | .unknownSymbol id => s!"unknown symbol: {id.text}"
  | .missingRules name => s!"the nonterminal `{name}' has no production rule"
  | .alreadyDeclared name => s!"Other error: The symbol `{name}' has already been declared"
  | .leftNotNonterminal id => s!"Other error: The left-hand side {id.text} is not a nonterminal"
  | .reservedSymbol name => s!"Other error: The reserved symbol `{name}' cannot be used in a rule"
  | .duplicateRule => "Other error: Duplicate production rule detected"
  | .startNotNonterminal id => s!"Other error: The start symbol {id.text} is not a nonterminal"
  | .noNonterminal => "Other error: empty nonterminal symbols"
  | .custom message => s!"Other error: {message}"

/-- A grammar under definition: the symbols so far, the rules that were given, and
the start symbol if it was named. -/
structure Draft where
  symbols : Array Symbol
  rules : Array Rule
  start : Option Symbol
  deriving Inhabited

namespace Draft

/-- The draft with the two reserved symbols and nothing else. -/
def initial : Draft := ⟨#[.endOfInput, .goal], #[], none⟩

/-- The nonterminal of that number, unless it is the goal. -/
def nonterminal? (d : Draft) (id : SymbolId) : Option Symbol :=
  d.symbols[id]?.filter fun s => s.kind = .nonterminal && id ≠ SymbolId.goal

/-- Declares a symbol under the next number. -/
def declare (d : Draft) (name : String) (kind : Kind) :
    Except DefinitionError (SymbolId × Draft) :=
  let id := d.symbols.size
  if !Text.isIdentifier name then .error (.invalidName name)
  else if d.symbols.any (·.name = name) then .error (.alreadyDeclared name)
  else .ok (id, { d with symbols := d.symbols.push ⟨id, name, kind⟩ })

/-- The element of a body for a declared symbol. -/
def element (d : Draft) (id : SymbolId) (action : NodeAction) : Except DefinitionError Element :=
  match d.symbols[id]? with
  | none => .error (.unknownSymbol id)
  | some s =>
    if id = SymbolId.endOfInput ∨ id = SymbolId.goal then .error (.reservedSymbol s.name)
    else .ok ⟨s, action⟩

/-- Whether a rule with that head and those symbols was given, whatever its actions. -/
def hasRule (d : Draft) (left : SymbolId) (symbols : List SymbolId) : Bool :=
  d.rules.any fun r => r.head.id = left && r.body.map (·.symbol.id) = symbols

/-- Adds a rule under the next number; number 0 is kept for the goal. -/
def addRule (d : Draft) (left : SymbolId) (elements : List (SymbolId × NodeAction)) :
    Except DefinitionError (RuleId × Draft) :=
  match d.nonterminal? left with
  | none => .error (.leftNotNonterminal left)
  | some head => do
    let body ← elements.mapM fun (id, action) => d.element id action
    if d.hasRule left (elements.map (·.1)) then .error .duplicateRule
    else .ok (d.rules.size + 1, { d with rules := d.rules.push ⟨head, body⟩ })

/-- Names the start symbol; the last name given counts. -/
def setStart (d : Draft) (id : SymbolId) : Except DefinitionError Draft :=
  match d.nonterminal? id with
  | none => .error (.startNotNonterminal id)
  | some s => .ok { d with start := some s }

/-- The start symbol: the one named, else the first nonterminal. -/
def startSymbol (d : Draft) : Option Symbol :=
  d.start <|> d.symbols.toList.find? fun s => s.kind = .nonterminal && s.id ≠ SymbolId.goal

/-- The first nonterminal without a rule. -/
def unruled (d : Draft) : Option Symbol :=
  d.symbols.toList.find? fun s =>
    s.kind = .nonterminal && s.id ≠ SymbolId.goal && !d.rules.any (·.head.id = s.id)

/-- The grammar that was defined. -/
def finish (d : Draft) : Except DefinitionError Grammar :=
  match d.startSymbol with
  | none => .error .noNonterminal
  | some start =>
    match d.unruled with
    | some s => .error (.missingRules s.name)
    | none => .ok ⟨d.symbols, #[⟨.goal, [⟨start, .keep⟩]⟩] ++ d.rules, start.id⟩

end Draft

/-- A definition of a grammar, step after step. What was done before a step that fails
stays done, so a definition may catch the error and go on. -/
abbrev Define := ExceptT DefinitionError (StateM Draft)

namespace Define

/-- Takes one step on the draft; a step that fails leaves the draft as it was. -/
def step {α : Type} (change : Draft → Except DefinitionError (α × Draft)) : Define α :=
  ExceptT.mk fun d =>
    match change d with
    | .ok (a, d) => (.ok a, d)
    | .error e => (.error e, d)

/-- Declares a symbol. -/
def declare (name : String) (kind : Kind) : Define SymbolId := step (·.declare name kind)

/-- Declares a terminal. -/
def terminal (name : String) : Define SymbolId := declare name .terminal

/-- Declares a nonterminal. -/
def nonterminal (name : String) : Define SymbolId := declare name .nonterminal

/-- Declares a virtual symbol. -/
def virtual (name : String) : Define SymbolId := declare name .virtual

/-- Gives a rule. -/
def rule (left : SymbolId) (elements : List (SymbolId × NodeAction)) : Define RuleId :=
  step (·.addRule left elements)

/-- Names the start symbol. -/
def startSymbol (id : SymbolId) : Define Unit := step fun d => (d.setStart id).map fun d => ((), d)

/-- Fails with an error of the caller's own. -/
def fail {α : Type} (message : String) : Define α := throw (.custom message)

end Define

/-- The grammar that the steps define. -/
def Grammar.define (steps : Define Unit) : Except DefinitionError Grammar :=
  match StateT.run (ExceptT.run steps) Draft.initial with
  | (.ok (), d) => d.finish
  | (.error e, _) => .error e

end BottomUp
