/-
# Items

An item is a rule with a marker among its right-hand symbols and one terminal of
lookahead: what is before the marker has been read, what is behind it may follow,
and the lookahead may come after the whole rule. Item sets are read back by rule,
marker and lookahead. A kernel holds the items that identify a state: those whose
marker has moved, and the item the automaton starts from.

Key definitions: `Item`, `ItemSet`, `Item.next`, `Item.advance`, `ItemSet.core`.
-/
import BottomUp.FirstSets
import BottomUp.Fault

namespace BottomUp

/-- A rule, the place of the marker among its right-hand symbols, and a lookahead. -/
structure Item where
  rule : RuleId
  marker : Nat
  lookahead : SymbolId
  deriving DecidableEq, Inhabited

namespace Item

instance : Ord Item where
  compare := compareLex (compareOn rule) (compareLex (compareOn marker) (compareOn lookahead))

instance : Std.TransOrd Item :=
  inferInstanceAs (Std.TransCmp
    (compareLex (compareOn rule) (compareLex (compareOn marker) (compareOn lookahead))))

instance : Std.LawfulEqOrd Item where
  eq_of_compare {a b} h := by
    change compareLex (compareOn rule) (compareLex (compareOn marker) (compareOn lookahead)) a b = .eq
      at h
    simp only [compareLex_eq_eq, compareOn, Std.LawfulEqOrd.compare_eq_iff_eq] at h
    cases a
    cases b
    simp_all

/-- The item that the automaton starts from. -/
def start : Item := ⟨.goal, 0, .endOfInput⟩

/-- Whether the item belongs into a kernel. -/
def isKernel (i : Item) : Bool := i.marker > 0 || i.rule = RuleId.goal

/-- The item with its marker one place further. -/
def shifted (i : Item) : Item := { i with marker := i.marker + 1 }

/-- The symbol behind the marker. -/
def next (g : Grammar) (i : Item) : Option SymbolId := (g.right i.rule)[i.marker]?

/-- Whether the rule of the item is one of the grammar, with the marker in it or at its end. -/
def fits (g : Grammar) (i : Item) : Bool := (g.rule? i.rule).any fun r => i.marker ≤ r.arity

/-- Whether the marker stands at the end of the rule. -/
def complete (g : Grammar) (i : Item) : Bool := (g.rule? i.rule).any fun r => i.marker = r.arity

/-- The text of an item, with a point for the marker. -/
def textIn (g : Grammar) (i : Item) : String :=
  let head := ((g.rule? i.rule).map (·.head.name)).getD ""
  let right := (g.right i.rule).map g.nameOf
  let marked := if i.marker ≤ right.length then
      right.take i.marker ++ ["."] ++ right.drop i.marker
    else right
  "[" ++ head ++ " :=" ++ String.join (marked.map (" " ++ ·)) ++ ", " ++ g.nameOf i.lookahead ++ "]"

/-! ### Questions on items that may not fit the grammar -/

/-- The rule of an item. -/
def ruleOf (g : Grammar) (i : Item) : Except Fault Rule := Fault.missingRule.orElse (g.rule? i.rule)

/-- The symbol behind the marker, for an item of the grammar's rules. -/
def next? (g : Grammar) (i : Item) : Except Fault (Option SymbolId) := do
  let _ ← i.ruleOf g
  pure (i.next g)

/-- Whether an item of the grammar's rules is complete; its marker may not be past the end. -/
def isComplete (g : Grammar) (i : Item) : Except Fault Bool := do
  let r ← i.ruleOf g
  if i.marker ≤ r.arity then pure (i.marker = r.arity) else throw .markerOverrun

/-- Moves the marker over the next symbol. -/
def advance (g : Grammar) (i : Item) : Except Fault Item := do
  if ← i.isComplete g then throw .markerAtEnd else pure i.shifted

/-- The text of an item of the grammar's rules and symbols. -/
def text (g : Grammar) (i : Item) : Except Fault String := do
  let _ ← i.ruleOf g
  let _ ← Fault.missingSymbol.orElse (g.symbol? i.lookahead)
  pure (i.textIn g)

end Item

/-- A set of items, read back by rule, marker and lookahead. -/
abbrev ItemSet := OrdSet Item

namespace ItemSet

/-- The items with their lookaheads forgotten. -/
def core (s : ItemSet) : ItemSet :=
  OrdSet.ofList (s.toList.map fun i => { i with lookahead := SymbolId.endOfInput })

/-- Puts an item into a kernel, and tells whether it is new. -/
def insertKernel (s : ItemSet) (i : Item) : Except Fault (Bool × ItemSet) :=
  if i.isKernel then .ok (decide (i ∉ s), s.insert i) else .error .notKernelItem

end ItemSet

end BottomUp
