/-
# Nullable symbols and first terminals

A symbol is nullable if it derives the empty string, virtual symbols left out. The
first terminals of a symbol are those that some string derived from it begins
with; the strings are sentential forms, so a nonterminal that derives no terminal
string may still have first terminals. Both are least solutions, found by
repeating a step over the rules until it adds nothing.

Key definitions: `Grammar.nullable`, `Grammar.firstSets`, `FirstSets.before`.
-/
import BottomUp.Grammar.Basic
import BottomUp.OrdSet
import BottomUp.Saturate

namespace BottomUp

/-- A set of terminals, by their numbers. -/
abbrev TerminalSet := OrdSet SymbolId

namespace Grammar

/-- Adds the heads of the rules whose right-hand sides are nullable throughout. -/
def addNullable (g : Grammar) (known : OrdSet SymbolId) : OrdSet SymbolId :=
  g.rules.foldl (fun s r => if r.right.all fun x => decide (x ∈ s) then s.insert r.head.id else s) known

/-- The nullable symbols. -/
def nullable (g : Grammar) : OrdSet SymbolId := saturate g.addNullable (g.rules.size + 1) ∅

/-- The symbols of a string up to the first that is not nullable, which is the last one. -/
def visible (nullable : OrdSet SymbolId) : List SymbolId → List SymbolId
  | [] => []
  | x :: xs => if x ∈ nullable then x :: visible nullable xs else [x]

/-- The pairs of a nonterminal and a symbol that a string derived from it in one step
may begin with, once nullable symbols are left out. -/
def firstEdges (g : Grammar) : List (SymbolId × SymbolId) :=
  let nullable := g.nullable
  g.rules.toList.flatMap fun r => (visible nullable r.right).map fun x => (r.head.id, x)

/-- Passes the first terminals along each pair once. -/
def passFirst (edges : List (SymbolId × SymbolId)) (sets : Array TerminalSet) : Array TerminalSet :=
  edges.foldl (fun s (head, x) =>
    let passed := s.getD x ∅
    s.modify head fun t => t.union passed) sets

end Grammar

/-- The nullable symbols of a grammar, and the first terminals of each symbol. -/
structure FirstSets where
  nullable : OrdSet SymbolId
  first : Array TerminalSet

namespace FirstSets

/-- Whether a symbol derives the empty string. -/
def isNullable (f : FirstSets) (x : SymbolId) : Bool := decide (x ∈ f.nullable)

/-- The first terminals of a symbol. -/
def ofSymbol (f : FirstSets) (x : SymbolId) : TerminalSet := f.first.getD x ∅

/-- The first terminals of `front` followed by what has the first terminals `rest`. -/
def before (f : FirstSets) : (front : List SymbolId) → (rest : TerminalSet) → TerminalSet
  | [], rest => rest
  | x :: xs, rest =>
    if f.isNullable x then (f.ofSymbol x).union (f.before xs rest) else f.ofSymbol x

/-- The first terminals of `front` followed by `x`. -/
def ofWord (f : FirstSets) (front : List SymbolId) (x : SymbolId) : TerminalSet :=
  f.before front (f.ofSymbol x)

end FirstSets

/-- The nullable symbols and first terminals of a grammar. -/
def Grammar.firstSets (g : Grammar) : FirstSets where
  nullable := g.nullable
  first :=
    saturate (passFirst g.firstEdges) (g.symbols.size * g.symbols.size + 1)
      (g.symbols.map fun s => if s.isTerminal then OrdSet.singleton s.id else ∅)

end BottomUp
