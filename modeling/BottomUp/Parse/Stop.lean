/-
# How a parse stops short

A parse that gives no tree was stopped: by an error, by a fault of the control it was
driven by, or because the steps that it was allowed did not suffice.

Key definitions: `ParseError`, `Stop`, `Control.unexpected`.
-/
import BottomUp.Control
import BottomUp.Text.Quoted
import BottomUp.Tree.Reduction

namespace BottomUp

/-- Why an input is not parsed. -/
inductive ParseError where
  | unexpectedToken (text : String) (symbol : Option Symbol) (span : Span) (expected : List Symbol)
  | unexpectedEnd (expected : List Symbol)
  /-- There are several moves, and the parser can follow only one. -/
  | conflict (state : StateId) (lookahead : SymbolId)
  | unknownSymbol (id : SymbolId)
  | missingGoto (state : StateId) (symbol : SymbolId)
  | emptyStack
  | reduction (error : ReduceError)
  deriving DecidableEq

/-- The names of the symbols that were expected. -/
def expectedText (expected : List Symbol) : String :=
  ", ".intercalate (expected.map (·.name))

/-- The text of an error. -/
def ParseError.message : ParseError → String
  | .unexpectedToken text _ span expected =>
    s!"unexpected token {Text.quoted text} at {span.text}, expected one of [{expectedText expected}]"
  | .unexpectedEnd expected =>
    s!"unexpected end of input, expected one of [{expectedText expected}]"
  | .conflict state lookahead => s!"conflicting actions in state {state.text} on {lookahead.text}"
  | .unknownSymbol id => s!"unknown terminal symbol {id.text}"
  | .missingGoto state symbol => s!"no transition from state {state.text} on {symbol.text}"
  | .emptyStack => "empty parse stack"
  | .reduction error => s!"while applying tree actions: {error.message}"

/-- What stops a parse. -/
inductive Stop where
  | rejected (error : ParseError)
  | fault (fault : Fault)
  /-- The steps that were allowed did not suffice. -/
  | unfinished
  deriving DecidableEq

namespace Stop

/-- Passes a fault on. -/
def ofFault {α : Type} : Except Fault α → Except Stop α
  | .ok a => .ok a
  | .error f => .error (.fault f)

/-- The value, or the error that there is none. -/
def orElse {α : Type} (error : ParseError) : Option α → Except Stop α
  | some a => .ok a
  | none => .error (.rejected error)

/-- The final form of a tree. -/
def reduced (t : Tree) : Except Stop Tree :=
  match t.reduce with
  | .ok t => .ok t
  | .error (.rejected error) => .error (.rejected (.reduction error))
  | .error (.fault f) => .error (.fault f)

end Stop

namespace Control

/-- Puts a symbol behind the others unless its number is there. -/
def addExpected (expected : List Symbol) (symbol : Symbol) : List Symbol :=
  if expected.any (·.sameAs symbol) then expected else expected ++ [symbol]

/-- The symbols expected in any of the states, each once, in the order in which the states
name them. -/
def expectedIn (c : Control) (states : List StateId) : List Symbol :=
  (states.flatMap fun state => (c.expected state).filterMap c.symbol?).foldl addExpected []

/-- The error that none of the states has a move on the next token. -/
def unexpected (c : Control) (states : List StateId) (next : Option Token) : ParseError :=
  let expected := c.expectedIn states
  match next with
  | some token => .unexpectedToken token.text (c.symbol? token.symbol) token.span expected
  | none => .unexpectedEnd expected

/-- The lookahead that the input offers. -/
def lookahead (input : List Token) : SymbolId := (input.head?.map (·.symbol)).getD .endOfInput

end Control

end BottomUp
