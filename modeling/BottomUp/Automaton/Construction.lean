/-
# Building an automaton

States are made as they are reached. In the canonical method two states are one
if their kernels are equal; in the merging method if their kernels are equal with
the lookaheads forgotten, and then the kernel takes the lookaheads of both. A state
is expanded when it is made and again whenever its kernel grows: its items are the
closure of its kernel, and each successor kernel leads to a state. The states that
wait for this stand in a queue, and the construction ends when it is empty.

Each entry into the queue makes a state or enlarges a kernel, and both are made of
the items of the grammar, of which there are finitely many: `Grammar.expansionBound`. But
there are fewer numbers for states than there can be states, and a construction that runs
out of them stops.

Key definitions: `Method`, `Construction`, `Construction.stateFor`, `Construction.expand`,
`Automaton.build`.
-/
import BottomUp.Automaton.Basic
import BottomUp.Pending

namespace BottomUp

/-- When two kernels make the same state. -/
inductive Method where
  /-- When they are equal. -/
  | canonical
  /-- When they are equal but for the lookaheads, which are then united. -/
  | lalr
  deriving DecidableEq

/-- What two kernels of the same state have in common. -/
def Method.key : Method → ItemSet → ItemSet
  | .canonical, kernel => kernel
  | .lalr, kernel => kernel.core

/-- How many numbers there are for states. -/
def StateId.limit : Nat := UInt32.size

/-- A number of a state, or the fault that it is beyond the largest one. -/
def StateId.check (id : Nat) : Except Fault StateId :=
  if id < StateId.limit then .ok id else .error .stateOverflow

/-- The states made so far, and those that wait to be expanded. -/
structure Construction where
  states : Array State
  pending : Pending StateId

namespace Construction

/-- Adds a state of that kernel, which waits. -/
def add (c : Construction) (kernel : ItemSet) : Construction :=
  let id := c.states.size
  ⟨c.states.push ⟨id, kernel, ∅, [], []⟩, c.pending.push id⟩

/-- A state for that kernel, made or enlarged if need be. There may be no number left for a
state that would have to be made. -/
def stateFor (m : Method) (c : Construction) (kernel : ItemSet) :
    Except Fault (StateId × Construction) :=
  match c.states.findIdx? fun s => m.key s.kernel = m.key kernel with
  | none => do
    let id ← StateId.check c.states.size
    pure (id, c.add kernel)
  | some id =>
    if kernel.subset (c.states.getD id default).kernel then .ok (id, c)
    else
      .ok (id, ⟨c.states.modify id fun s => { s with kernel := s.kernel.union kernel },
        c.pending.push id⟩)

/-- The states that the successor kernels lead to. -/
def link (m : Method) (c : Construction) :
    List (SymbolId × ItemSet) → Except Fault (List (SymbolId × StateId) × Construction)
  | [] => pure ([], c)
  | (x, kernel) :: rest => do
    let (target, c) ← c.stateFor m kernel
    let (targets, c) ← link m c rest
    pure ((x, target) :: targets, c)

/-- Closes the kernel of a state and finds what the state leads to. -/
def expand (g : Grammar) (f : FirstSets) (m : Method) (c : Construction) (id : StateId) :
    Except Fault Construction := do
  let s ← Fault.missingState.orElse c.states[id]?
  let items ← g.closure f s.kernel
  let successors ← g.transitions items
  let (transitions, c) ← c.link m successors
  pure { c with
    states := c.states.modify id fun s =>
      { s with items, transitions, reductions := g.reductions items } }

/-- Expands waiting states until none waits, for at most `steps` steps. -/
def run (g : Grammar) (f : FirstSets) (m : Method) :
    (steps : Nat) → Construction → Except Fault Construction
  | 0, c => pure c
  | steps + 1, c =>
    match c.pending.pop with
    | none => pure c
    | some (id, pending) => do run g f m steps (← expand g f m { c with pending } id)

/-- The construction with the state of the starting item, which waits. -/
def initial : Construction := add ⟨#[], .empty⟩ (OrdSet.singleton Item.start)

end Construction

/-- The number of items that a grammar has. -/
def Grammar.itemCount (g : Grammar) : Nat :=
  g.rules.foldl (fun n r => n + (r.arity + 1)) 0 * g.symbols.size

/-- More than the number of times that states of a grammar can be expanded. -/
def Grammar.expansionBound (g : Grammar) : Nat := (Nat.pow 2 g.itemCount + 1) * (g.itemCount + 2)

/-- The automaton of a grammar. -/
def Automaton.build (g : Grammar) (m : Method) : Except Fault Automaton := do
  let c ← Construction.run g g.firstSets m g.expansionBound .initial
  pure ⟨c.states⟩

end BottomUp
