/-
# Closures and successors of item sets

If an item has the nonterminal `B` behind its marker, then any rule of `B` may
start there: the closure adds that rule with its marker in front, once for each
terminal that can follow `B`. All the items added have their marker in front, so
what there is to find is one set of terminals per nonterminal: the terminals that
can follow it here. The sets start with what the given items let follow, and the
rules of a nonterminal that has some pass them on to the symbol they begin with.

Grouping the items by the symbol behind the marker, and moving it, gives the
kernels of the successor states.

Key definitions: `Grammar.follows`, `Grammar.close`, `Grammar.closure`, `Grammar.successors`.
-/
import BottomUp.Item

namespace BottomUp
namespace Grammar

/-- The nonterminal at the front of a string, with what is behind it. -/
def opening (g : Grammar) : List SymbolId → Option (SymbolId × List SymbolId)
  | [] => none
  | x :: rest => if g.isTerminal x then none else some (x, rest)

/-- The nonterminal behind the marker of an item, with what is behind it. -/
def openingOf (g : Grammar) (i : Item) : Option (SymbolId × List SymbolId) :=
  g.opening ((g.right i.rule).drop i.marker)

/-- For each nonterminal, the terminals that the given items let follow it. -/
def seedFollows (g : Grammar) (f : FirstSets) (items : ItemSet) : Array TerminalSet :=
  items.toList.foldl (fun s i =>
    match g.openingOf i with
    | none => s
    | some (x, rest) => s.modify x fun t => t.union (f.ofWord rest i.lookahead))
    (Array.replicate g.symbols.size ∅)

/-- Each rule of a nonterminal that something follows passes on what follows to the
nonterminal it begins with. -/
def passFollows (g : Grammar) (f : FirstSets) (sets : Array TerminalSet) : Array TerminalSet :=
  g.rules.foldl (fun s r =>
    let after := s.getD r.head.id ∅
    if after.isEmpty then s
    else
      match g.opening r.right with
      | none => s
      | some (x, rest) => s.modify x fun t => t.union (f.before rest after)) sets

/-- For each nonterminal, the terminals that follow it in the closure of the items. -/
def follows (g : Grammar) (f : FirstSets) (items : ItemSet) : Array TerminalSet :=
  saturate (g.passFollows f) (g.symbols.size * g.symbols.size + 1) (g.seedFollows f items)

/-- The rules with their markers in front, for each terminal that follows their heads. -/
def openedItems (g : Grammar) (follows : Array TerminalSet) : List Item :=
  g.numberedRules.flatMap fun (id, r) =>
    (follows.getD r.head.id ∅).toList.map fun lookahead => ⟨id, 0, lookahead⟩

/-- The closure of a set of items. -/
def close (g : Grammar) (f : FirstSets) (items : ItemSet) : ItemSet :=
  items.union (OrdSet.ofList (g.openedItems (g.follows f items)))

/-- The symbols behind the markers in the order in which they first appear, each with
the items in front of it moved over it. -/
def successors (g : Grammar) (items : ItemSet) : List (SymbolId × ItemSet) :=
  let ahead := items.toList.filterMap fun i => (i.next g).map fun x => (x, i.shifted)
  (ahead.map (·.1)).eraseDups.map fun x =>
    (x, OrdSet.ofList ((ahead.filter (·.1 = x)).map (·.2)))

/-- The closure of a set of items, each of which has to fit the grammar. -/
def closure (g : Grammar) (f : FirstSets) (items : ItemSet) : Except Fault ItemSet :=
  if items.toList.all (·.fits g) then .ok (g.close f items) else .error .unfitItem

/-- The successors of a set of items, each of which has to be of a rule of the grammar. -/
def transitions (g : Grammar) (items : ItemSet) : Except Fault (List (SymbolId × ItemSet)) :=
  if items.toList.all fun i => (g.rule? i.rule).isSome then .ok (g.successors items)
  else .error .missingRule

end Grammar
end BottomUp
