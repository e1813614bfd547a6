/-
# What reductions do to the states of a parser

On one lookahead a parser reduces until it has another move or none. What it does then it does to
its states alone: a reduction takes as many states off the stack as its rule has symbols,
and puts one on top, along an edge of the automaton. If the symbols behind the marker of an item
all vanish and the lookahead may come after them, reductions lead over them one by
one. Reductions may go on forever, and a stack where they do not is said to halt.

Key definitions: `Automaton.Path`, `Control.Reduces`, `Control.Halts`.
Key theorems: `Automaton.Path.pop`, `Control.Projected.reaches_over`,
`Control.Projected.reaches_complete`, `Control.Halts.of_reaches`.
-/
import BottomUp.Proofs.Fronts
import BottomUp.Proofs.Moves

namespace BottomUp

open Relation

/-! ### Stacks of states -/

/-- States along edges of the automaton, from the first one; the top comes first. -/
inductive Automaton.Path (a : Automaton) : List StateId → Prop
  | bottom : Path a [0]
  | push {s t : StateId} {below : List StateId} {x : SymbolId} :
      Path a (s :: below) → a.Edge s x t → Path a (t :: s :: below)

/-- All rules of a symbol are opened in a state for a lookahead. -/
def Automaton.OpenedFor (a : Automaton) (g : Grammar) (s : StateId) (x y : SymbolId) : Prop :=
  ∀ {id : RuleId} {r : Rule}, g.rule? id = some r → r.head.id = y → a.Has s ⟨id, 0, x⟩

/-- The rules of the symbol behind a marker are opened for what may come after it. -/
theorem Automaton.Has.openedFor {g : Grammar} {m : Method} {a : Automaton} (h : g.Lawful)
    (ha : a.Complete g m) {s : StateId} {id : RuleId} {k : Nat} {l x y : SymbolId}
    {rest : List SymbolId} (hi : a.Has s ⟨id, k, l⟩) (hright : (g.right id).drop k = y :: rest)
    (hx : x ∈ g.firstSets.ofWord rest l) : a.OpenedFor g s x y := by
  rintro id' r hr rfl
  exact hi.opened h ha hr (Grammar.openingOf_eq_some.2 ⟨hright, h.not_isTerminal_head hr⟩) hx

namespace Automaton.Path

variable {g : Grammar} {m : Method} {a : Automaton}

/-- With an item whose marker has moved over `k` symbols on top, the item with its marker in front
is `k` states below. -/
theorem pop (h : g.Lawful) (ha : a.Complete g m) {id : RuleId} : ∀ {k : Nat} {s : StateId}
    {below : List StateId} {l : SymbolId}, a.Path (s :: below) → a.Has s ⟨id, k, l⟩ →
    ∃ top rest l', (s :: below).drop k = top :: rest ∧ a.Path (top :: rest) ∧
      a.Has top ⟨id, 0, l'⟩
  | 0, s, below, l, hp, hi => ⟨s, below, l, rfl, hp, hi⟩
  | k + 1, s, below, l, hp, hi => by
    cases hp with
    | bottom => exact absurd hi (Automaton.Has.marker_ne_succ h ha)
    | push hp he =>
      obtain ⟨-, l', hi'⟩ := he.retreat h ha hi
      obtain ⟨top, rest, l'', hdrop, hpath, htop⟩ := pop h ha hp hi'
      exact ⟨top, rest, l'', hdrop, hpath, htop⟩

end Automaton.Path

namespace Control

/-! ### Reductions on one lookahead -/

/-- A reduction on a lookahead, as it changes the states. -/
inductive Reduces (c : Control) (x : SymbolId) : List StateId → List StateId → Prop
  | rule {id : RuleId} {r : Rule} {s top next : StateId} {below rest : List StateId} :
      .reduce id ∈ c.moves s x → c.rule? id = some r →
      (s :: below).drop r.arity = top :: rest → c.goto? top r.head.id = some next →
      Reduces c x (s :: below) (next :: top :: rest)

/-- The reductions on a lookahead come to an end. -/
def Halts (c : Control) (x : SymbolId) (states : List StateId) : Prop :=
  Acc (fun states' states => c.Reduces x states states') states

section

variable {c : Control} (hone : ∀ s x, (c.moves s x).length ≤ 1) {x : SymbolId} {s : StateId}
  {below states states' states'' : List StateId}
include hone

/-- A stack halts if its top has another move. -/
theorem halts_of_ne {move : Move} (hmove : move ∈ c.moves s x) (hne : ∀ id, move ≠ .reduce id) :
    c.Halts x (s :: below) := by
  refine ⟨_, fun _ hred => ?_⟩
  cases hred with
  | rule hreduce _ _ _ =>
    rw [eq_singleton_of_mem (hone s x) hmove] at hreduce
    exact absurd (List.mem_singleton.1 hreduce).symm (hne _)

theorem Reduces.unique (h : c.Reduces x states states') (h' : c.Reduces x states states'') :
    states' = states'' := by
  obtain @⟨id, r, s, top, next, below, rest, hmove, hr, hdrop, hgoto⟩ := h
  obtain @⟨id', r', _, top', next', _, rest', hmove', hr', hdrop', hgoto'⟩ := h'
  rw [eq_singleton_of_mem (hone s x) hmove'] at hmove
  obtain rfl : id = id' := Move.reduce.inj (List.mem_singleton.1 hmove)
  obtain rfl : r = r' := Option.some.inj (hr.symm.trans hr')
  obtain ⟨rfl, rfl⟩ := List.cons.inj (hdrop.symm.trans hdrop')
  rw [Option.some.inj (hgoto.symm.trans hgoto')]

/-- A stack halts if the stack after some reductions does. -/
theorem Halts.of_reaches (h : ReflTransGen (c.Reduces x) states states')
    (hhalts : c.Halts x states') : c.Halts x states := by
  induction h using ReflTransGen.head_induction_on with
  | refl => exact hhalts
  | head hstep _ ih => exact ⟨_, fun _ hstep' => hstep.unique hone hstep' ▸ ih⟩

end

/-- A stack that comes back to itself does not halt. -/
theorem Halts.not_cycle {c : Control} {x : SymbolId} {states : List StateId}
    (h : c.Halts x states) : ¬ TransGen (c.Reduces x) states states := by
  induction h with
  | intro states _ ih =>
    intro hcycle
    obtain ⟨next, hstep, hback⟩ := TransGen.head'_iff.1 hcycle
    exact ih next hstep (TransGen.tail' hback hstep)

/-! ### Reductions along items -/

/-- Wherever the rules of a symbol are opened for the lookahead, reductions put the symbol on the
stack. -/
def Skips (c : Control) (g : Grammar) (a : Automaton) (x y : SymbolId) : Prop :=
  ∀ {s t : StateId} {below : List StateId}, a.Edge s y t → a.OpenedFor g s x y →
    ReflTransGen (c.Reduces x) (s :: below) (t :: s :: below)

namespace Projected

variable {c : Control} {g : Grammar} {m : Method} {a : Automaton} (hc : c.Projected g m a)
  {x : SymbolId}
include hc

/-- A complete item on top of the stack is reduced. -/
theorem reduces {id : RuleId} {r : Rule} {s top next : StateId} {below rest : List StateId}
    (hr : g.rule? id = some r) (hid : id ≠ .goal) (hi : a.Has s ⟨id, r.arity, x⟩)
    (hdrop : (s :: below).drop r.arity = top :: rest) (he : a.Edge top r.head.id next) :
    c.Reduces x (s :: below) (next :: top :: rest) :=
  .rule (hc.mem_reduce.2 ⟨hid, r, hr, hi⟩) ((hc.rule? id).trans hr) hdrop
    (hc.goto?_eq_some.2 ⟨hc.lawful.not_isTerminal_head hr, he⟩)

/-- A reduction is that of a complete item. -/
theorem exists_of_reduces {s : StateId} {below states : List StateId}
    (h : c.Reduces x (s :: below) states) : ∃ id r top next rest, g.rule? id = some r ∧
      id ≠ .goal ∧ a.Has s ⟨id, r.arity, x⟩ ∧ (s :: below).drop r.arity = top :: rest ∧
      a.Edge top r.head.id next ∧ states = next :: top :: rest := by
  obtain @⟨id, r, _, top, next, _, rest, hmove, hr, hdrop, hgoto⟩ := h
  obtain ⟨hid, r', hr', hi⟩ := hc.mem_reduce.1 hmove
  obtain rfl : r = r' := Option.some.inj (hr.symm.trans ((hc.rule? id).trans hr'))
  exact ⟨id, r, top, next, rest, hr', hid, hi, hdrop, (hc.goto?_eq_some.1 hgoto).2, rfl⟩

/-- Reductions lead over symbols that they can put on the stack one by one. -/
theorem reaches_of_skips {id : RuleId} {l : SymbolId} {rest : List SymbolId}
    (hx : x ∈ g.firstSets.ofWord rest l) : ∀ {front : List SymbolId} {k : Nat} {s : StateId}
    (below : List StateId), (∀ y ∈ front, g.Vanishes y ∧ c.Skips g a x y) →
    a.Has s ⟨id, k, l⟩ → (g.right id).drop k = front ++ rest →
    ∃ s' below', ReflTransGen (c.Reduces x) (s :: below) (s' :: below') ∧
      (s' :: below').drop front.length = s :: below ∧ a.Has s' ⟨id, k + front.length, l⟩
  | [], _, s, below, _, hi, _ => ⟨s, below, .refl, rfl, hi⟩
  | y :: front, k, s, below, hfront, hi, hright => by
    obtain ⟨⟨hy, hskip⟩, hfront⟩ := List.forall_mem_cons.1 hfront
    obtain ⟨t, he, hi'⟩ := hi.advance hc.lawful hc.complete (Grammar.next_of_drop hright)
    -- the lookahead may come after `y`, as what is in between vanishes
    have hafter : x ∈ g.firstSets.ofWord (front ++ rest) l := by
      unfold FirstSets.ofWord
      rw [FirstSets.before_append, FirstSets.mem_before]
      exact .inr ⟨fun z hz => Grammar.mem_nullable_iff_vanishes.2 (hfront z hz).1, hx⟩
    have hopen : a.OpenedFor g s x y := hi.openedFor hc.lawful hc.complete hright hafter
    obtain ⟨s', below', hreaches, hdrop, hi''⟩ :=
      reaches_of_skips hx (s :: below) hfront hi' (Grammar.drop_succ_of_drop hright)
    refine ⟨s', below', (hskip he hopen).trans hreaches, ?_, ?_⟩
    · rw [List.length_cons, ← List.drop_drop, hdrop]
      rfl
    · rw [List.length_cons, Nat.add_comm _ 1, ← Nat.add_assoc]
      exact hi''

/-- Reductions put each symbol on the stack that vanishes. -/
theorem skips_of_vanishes {y : SymbolId} (hy : g.Vanishes y) : c.Skips g a x y := by
  induction hy with
  | @rule id r hr hright ih =>
    intro s t below he hopen
    obtain ⟨j, -, hnext⟩ := he.exists_next hc.complete
    have hid : id ≠ .goal := by
      rintro rfl
      exact Automaton.next_ne_goal hc.lawful hnext (Automaton.head_goal hc.lawful hr)
    have hi := hopen hr rfl
    have hx : x ∈ g.firstSets.ofWord [] x :=
      (hc.lawful.mem_ofSymbol_terminal (hi.fitting hc.lawful hc.complete).isTerminal).2 rfl
    have hdrop : (g.right id).drop 0 = r.right ++ [] := by
      rw [List.append_nil, Grammar.right_of_rule? hr, List.drop_zero]
    obtain ⟨s', below', hreaches, hback, hi'⟩ :=
      hc.reaches_of_skips hx below (fun z hz => ⟨hright z hz, ih z hz⟩) hi hdrop
    rw [Nat.zero_add, r.length_right] at hi'
    exact hreaches.tail (hc.reduces hr hid hi' (r.length_right ▸ hback) he)

/-- Reductions lead over symbols that vanish, if the lookahead may come after them. -/
theorem reaches_over {id : RuleId} {k : Nat} {l : SymbolId} {front rest : List SymbolId}
    (hfront : ∀ y ∈ front, g.Vanishes y) (hx : x ∈ g.firstSets.ofWord rest l) {s : StateId}
    (below : List StateId) (hi : a.Has s ⟨id, k, l⟩)
    (hright : (g.right id).drop k = front ++ rest) :
    ∃ s' below', ReflTransGen (c.Reduces x) (s :: below) (s' :: below') ∧
      (s' :: below').drop front.length = s :: below ∧ a.Has s' ⟨id, k + front.length, l⟩ :=
  hc.reaches_of_skips hx below (fun y hy => ⟨hfront y hy, hc.skips_of_vanishes (hfront y hy)⟩) hi
    hright

/-- With the symbol behind a marker on the stack, reductions complete the item if it vanishes behind
the symbol. -/
theorem reaches_complete {id : RuleId} {r : Rule} (hr : g.rule? id = some r) {k : Nat}
    {s t : StateId} (below : List StateId) {y : SymbolId} {rest : List SymbolId}
    (hi : a.Has s ⟨id, k, x⟩) (hright : (g.right id).drop k = y :: rest)
    (hrest : ∀ z ∈ rest, g.Vanishes z) (he : a.Edge s y t) :
    ∃ s' below', ReflTransGen (c.Reduces x) (t :: s :: below) (s' :: below') ∧
      a.Has s' ⟨id, r.arity, x⟩ ∧ (s' :: below').drop r.arity = (s :: below).drop k := by
  have hnext : (⟨id, k, x⟩ : Item).next g = some y := Grammar.next_of_drop hright
  obtain ⟨t', he', hshift⟩ := hi.advance hc.lawful hc.complete hnext
  obtain rfl := he.unique he'
  have hx : x ∈ g.firstSets.ofWord [] x :=
    (hc.lawful.mem_ofSymbol_terminal (hi.fitting hc.lawful hc.complete).isTerminal).2 rfl
  have hright' : (g.right id).drop (k + 1) = rest ++ [] := by
    rw [List.append_nil, Grammar.drop_succ_of_drop hright]
  obtain ⟨s', below', hreaches, hdrop, hi'⟩ := hc.reaches_over hrest hx (s :: below) hshift hright'
  have hlen : k + 1 + rest.length = r.arity := by
    have hlt : k < (g.right id).length := (List.getElem?_eq_some_iff.1 hnext).1
    have hsum := congrArg List.length hright'
    rw [List.append_nil, List.length_drop] at hsum
    rw [← r.length_right, ← Grammar.right_of_rule? hr]
    omega
  refine ⟨s', below', hreaches, hlen ▸ hi', ?_⟩
  rw [← hlen, Nat.add_comm, ← List.drop_drop, hdrop]
  rfl

end Projected

end Control
end BottomUp
