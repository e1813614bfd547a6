/-
# Reductions come to an end

With one move in a cell at most, and if each symbol that occurs can be followed up to a terminal
or to nothing, the reductions on one lookahead come to an end on every stack. An item with
the lookahead among the first terminals behind its marker leads to a shift. A rule that
is opened for the lookahead itself ends, once its head is on the stack, in a shift or in the
reduction of an item that was in the state before; so what may not end has to go below the stack
it started on, or to climb from a symbol to the heads of rules that begin with it and vanish
behind it. No symbol climbs to itself: the rules of the cycle would be opened for one lookahead, on
which the reductions have just been seen to end.

Key definitions: `Grammar.Occurs`, `Control.Lands`, `Automaton.Climbs`.
Key theorems: `Control.Halting.halts_of_begins`, `Control.Halting.halts_of_opened`,
`Control.Halting.not_climbs_cycle`, `Control.Halting.halts`.
-/
import BottomUp.Proofs.Consistency
import BottomUp.Proofs.StateStacks
import Mathlib.Order.WellFoundedSet

namespace BottomUp

open Relation

/-! ### The symbols that occur -/

/-- The symbols that occur in the strings that the start symbol is rewritten to. -/
inductive Grammar.Occurs (g : Grammar) : SymbolId → Prop
  | start : Occurs g g.start
  | rule {id : RuleId} {r : Rule} {x : SymbolId} :
      g.rule? id = some r → Occurs g r.head.id → x ∈ r.right → Occurs g x

/-- In the rules of the symbols that occur, a nonterminal that is rewritten to a string that begins
with a terminal is followed by a string that opens. So where such a nonterminal is to come next, its
rules are opened for some lookahead. -/
def Grammar.Followed (g : Grammar) : Prop :=
  ∀ {id : RuleId} {r : Rule} {front rest : List SymbolId} {y : SymbolId},
    g.rule? id = some r → g.Occurs r.head.id → r.right = front ++ y :: rest →
    g.isTerminal y = false →
    (∃ x ys, g.isTerminal x = true ∧ ReflTransGen g.Rewrites [y] (x :: ys)) → g.Opens rest

namespace Automaton

variable {g : Grammar} {m : Method} {a : Automaton}

/-- The heads of the rules that a kernel leads to occur, but for the goal. -/
theorem occurs_of_reached (h : g.Lawful) {kernel : ItemSet} (hk : g.Reached kernel) :
    ∀ i ∈ g.close g.firstSets kernel, ∀ {r : Rule}, i.rule ≠ .goal → g.rule? i.rule = some r →
      g.Occurs r.head.id := by
  have hclose : ∀ {kernel : ItemSet}, (∀ i ∈ kernel, ∀ {r : Rule}, i.rule ≠ .goal →
      g.rule? i.rule = some r → g.Occurs r.head.id) →
      ∀ i ∈ g.close g.firstSets kernel, ∀ {r : Rule}, i.rule ≠ .goal → g.rule? i.rule = some r →
        g.Occurs r.head.id := by
    intro kernel hkernel i hi
    replace hi := h.mem_close.1 hi
    induction hi with
    | base hi => exact hkernel _ hi
    | @opened j rest id r _ _ hr ho _ ih =>
      have hmem : r.head.id ∈ g.right j.rule := List.mem_of_getElem? (Grammar.next_of_drop
        (Grammar.openingOf_eq_some.1 ho).1)
      intro r' _ hr'
      obtain rfl : r = r' := Option.some.inj (hr.symm.trans hr')
      by_cases hj : j.rule = .goal
      · rw [hj, right_goal h] at hmem
        exact List.mem_singleton.1 hmem ▸ .start
      · obtain ⟨rj, hrj, hmem⟩ := Grammar.mem_right_of_rule hmem
        exact .rule hrj (ih hj hrj) hmem
  induction hk with
  | start =>
    refine hclose fun i hi r hid => absurd ?_ hid
    rw [OrdSet.mem_singleton.1 hi]
    rfl
  | successor _ _ _ ih =>
    refine hclose fun j hj => ?_
    obtain ⟨i, hi, -, rfl⟩ := Grammar.mem_successor.1 hj
    exact ih i hi

/-- What an item has behind a nonterminal that begins with a terminal opens. -/
theorem Has.opens (h : g.Lawful) (ha : a.Complete g m) (hg : g.Followed) {s : StateId}
    {id : RuleId} {k : Nat} {l x y : SymbolId} {rest : List SymbolId} (hi : a.Has s ⟨id, k, l⟩)
    (hright : (g.right id).drop k = y :: rest) (hterm : g.isTerminal y = false)
    (hy : g.Begins x y) : g.Opens rest := by
  have hmem : y ∈ g.right id :=
    List.mem_of_mem_drop (i := k) (hright ▸ List.mem_cons_self)
  by_cases hid : id = .goal
  · subst hid
    rw [right_goal h] at hright
    have hlen := congrArg List.length hright
    simp only [List.length_drop, List.length_cons, List.length_nil] at hlen
    obtain rfl : rest = [] := List.eq_nil_of_length_eq_zero (by omega)
    exact Grammar.opens_nil
  · obtain ⟨r, hr, -⟩ := Grammar.mem_right_of_rule hmem
    obtain ⟨st, hs, hi⟩ := hi
    obtain ⟨kernel, hk, -, hik⟩ := (ha.mem_items h hs).1 hi
    have hsplit : r.right = r.right.take k ++ y :: rest := by
      rw [← hright, Grammar.right_of_rule? hr, List.take_append_drop]
    obtain ⟨hx, ys, hrewrites⟩ := hy.rewrites
    exact hg hr (occurs_of_reached h hk _ hik hid hr) hsplit hterm ⟨x, ys, hx, hrewrites⟩

theorem Edge.symbol_lt (h : g.Lawful) (ha : a.Complete g m) {s t : StateId} {x : SymbolId}
    (he : a.Edge s x t) : x < g.symbols.size := by
  obtain ⟨i, -, hnext⟩ := he.exists_next ha
  obtain ⟨r, hr, hmem⟩ := Grammar.mem_right_of_rule (List.mem_of_getElem? hnext)
  obtain ⟨e, -, -, rfl, hdecl⟩ := h.mem_right hr hmem
  exact (Array.getElem?_eq_some_iff.1 hdecl.found).1

/-- In a state a symbol climbs to the head of a rule that is opened there, begins with the symbol
and vanishes behind it. -/
def Climbs (a : Automaton) (g : Grammar) (s : StateId) (x y : SymbolId) : Prop :=
  ∃ id r l rest, g.rule? id = some r ∧ id ≠ .goal ∧ r.head.id = y ∧ r.right = x :: rest ∧
    (∀ z ∈ rest, g.Vanishes z) ∧ a.Has s ⟨id, 0, l⟩

end Automaton

namespace Control

/-- Where the reduction of an item takes states off a stack, the stack that it leads to halts. Only
the items with certain symbols behind the marker count. -/
def Lands (c : Control) (g : Grammar) (a : Automaton) (P : SymbolId → Prop) (x : SymbolId)
    (s : StateId) (below : List StateId) : Prop :=
  ∀ {id : RuleId} {r : Rule} {k : Nat} {top next : StateId} {rest : List StateId},
    g.rule? id = some r → id ≠ .goal → a.Has s ⟨id, k + 1, x⟩ →
    (∀ y ∈ r.right.drop (k + 1), P y) → (s :: below).drop (k + 1) = top :: rest →
    a.Edge top r.head.id next → c.Halts x (next :: top :: rest)

/-- A control with one move in a cell at most, for a grammar where the symbols behind a nonterminal
can be followed. -/
structure Halting (c : Control) (g : Grammar) (m : Method) (a : Automaton) : Prop where
  projected : c.Projected g m a
  one : ∀ s x, (c.moves s x).length ≤ 1
  followed : g.Followed

namespace Halting

variable {c : Control} {g : Grammar} {m : Method} {a : Automaton} (hc : c.Halting g m a)
  {x : SymbolId} {s : StateId} {below : List StateId}
include hc

/-- Reductions lead over vanishing symbols to one that begins with the lookahead. -/
theorem reaches_begin {y : SymbolId} (hy : g.Begins x y) (below : List StateId) {id : RuleId}
    {k : Nat} {l : SymbolId} {front rest : List SymbolId} (hi : a.Has s ⟨id, k, l⟩)
    (hright : (g.right id).drop k = front ++ y :: rest) (hfront : ∀ z ∈ front, g.Vanishes z) :
    ∃ s' below', ReflTransGen (c.Reduces x) (s :: below) (s' :: below') ∧
      a.Has s' ⟨id, k + front.length, l⟩ ∧ (g.right id).drop (k + front.length) = y :: rest := by
  have hp := hc.projected
  have hx : x ∈ g.firstSets.ofWord (y :: rest) l :=
    FirstSets.mem_before_cons.2 (.inl (hp.lawful.mem_ofSymbol_iff_rewrites.2 hy.rewrites))
  obtain ⟨s', below', hreaches, -, hi'⟩ := hp.reaches_over hfront hx below hi hright
  exact ⟨s', below', hreaches, hi', by rw [← List.drop_drop, hright, List.drop_left]⟩

/-- An item with a symbol behind its marker that begins with the lookahead leads to a shift. -/
theorem halts_of_begins {y : SymbolId} (hy : g.Begins x y) : ∀ {s : StateId}
    {below : List StateId} {id : RuleId} {k : Nat} {l : SymbolId} {front rest : List SymbolId},
    a.Has s ⟨id, k, l⟩ → (g.right id).drop k = front ++ y :: rest →
    (∀ z ∈ front, g.Vanishes z) → c.Halts x (s :: below) := by
  have hp := hc.projected
  induction hy with
  | terminal hterm =>
    intro s below id k l front rest hi hright hfront
    obtain ⟨s', below', hreaches, hi', hright'⟩ :=
      hc.reaches_begin (.terminal hterm) below hi hright hfront
    obtain ⟨t, he, -⟩ := hi'.advance hp.lawful hp.complete (Grammar.next_of_drop hright')
    exact .of_reaches hc.one hreaches
      (halts_of_ne hc.one (hp.mem_shift.2 ⟨hterm, he⟩) fun id => by simp)
  | @rule id' r front' rest' y hr hbody hfront' hy ih =>
    intro s below id k l front rest hi hright hfront
    obtain ⟨s', below', hreaches, hi', hright'⟩ :=
      hc.reaches_begin (.rule hr hbody hfront' hy) below hi hright hfront
    -- the rule is opened for what may come after its head, whatever that is
    obtain ⟨l', hl'⟩ := hp.lawful.exists_mem_ofWord (hi'.fitting hp.lawful hp.complete).isTerminal
      (hi'.opens hp.lawful hp.complete hc.followed hright' (hp.lawful.not_isTerminal_head hr)
        (.rule hr hbody hfront' hy))
    have hopen := hi'.openedFor hp.lawful hp.complete hright' hl' hr rfl
    have hstart : (g.right id').drop 0 = front' ++ y :: rest' := by
      rw [List.drop_zero, Grammar.right_of_rule? hr, hbody]
    exact .of_reaches hc.one hreaches (ih hopen hstart hfront')

/-- With a symbol on the stack behind which an item vanishes, reductions complete the item. -/
theorem halts_of_vanishing (hpath : a.Path (s :: below)) {id : RuleId} {r : Rule}
    (hr : g.rule? id = some r) {k : Nat} (hi : a.Has s ⟨id, k, x⟩) {y : SymbolId}
    {rest : List SymbolId} (hright : (g.right id).drop k = y :: rest)
    (hrest : ∀ z ∈ rest, g.Vanishes z) {t : StateId} (he : a.Edge s y t)
    (hland : ∀ {top next : StateId} {rest : List StateId}, id ≠ .goal →
      (s :: below).drop k = top :: rest → a.Edge top r.head.id next →
      c.Halts x (next :: top :: rest)) : c.Halts x (t :: s :: below) := by
  have hp := hc.projected
  obtain ⟨s', below', hreaches, hi', hdrop⟩ := hp.reaches_complete hr below hi hright hrest he
  by_cases hid : id = .goal
  · subst hid
    rw [Automaton.arity_goal hp.lawful hr] at hi'
    exact .of_reaches hc.one hreaches
      (halts_of_ne hc.one (hp.mem_accept.2 hi') fun id => by simp)
  · obtain ⟨top, below₀, l, hbelow, -, htop⟩ := hpath.pop hp.lawful hp.complete hi
    obtain ⟨next, -, hnext⟩ := hp.exists_goto htop hr hid
    exact .of_reaches hc.one
      (hreaches.tail (hp.reduces hr hid hi' (hdrop.trans hbelow) hnext))
      (hland hid hbelow hnext)

/-- The reductions after a rule that is opened for the lookahead come to an end, if those do that
take states off the stack. -/
theorem halts_of_opened {P : SymbolId → Prop} (hP : ∀ {id : RuleId} {r : Rule},
      g.rule? id = some r → (∀ y ∈ r.right, P y) → P r.head.id)
    (hpath : a.Path (s :: below)) (hlands : c.Lands g a P x s below) {id : RuleId} {r : Rule}
    (hr : g.rule? id = some r) (hid : id ≠ .goal) (hhead : P r.head.id)
    (hi : a.Has s ⟨id, 0, x⟩) {t : StateId} (he : a.Edge s r.head.id t) :
    c.Halts x (t :: s :: below) := by
  have hp := hc.projected
  have hvanish : ∀ {y : SymbolId}, g.Vanishes y → P y := by
    intro y hy
    induction hy with
    | rule hr _ ih => exact hP hr ih
  obtain ⟨st, hs, hmem⟩ := hi
  rw [(hp.complete.expanded hs).items] at hmem
  replace hmem := hp.lawful.mem_close.1 hmem
  generalize hitem : (⟨id, 0, x⟩ : Item) = i at hmem
  induction hmem generalizing id r t with
  | base hbase =>
    subst hitem
    rcases hp.complete.eq_start_or_marker_pos hs hbase with hstart | hpos
    · exact absurd (congrArg Item.rule hstart) hid
    · exact absurd hpos (Nat.lt_irrefl 0)
  | @opened j rest id' r' _ hj hr' ho hx ih =>
    cases hitem
    obtain rfl : r = r' := Option.some.inj (hr.symm.trans hr')
    obtain ⟨hright, -⟩ := Grammar.openingOf_eq_some.1 ho
    have hi : a.Has s j := ⟨st, hs, (hp.complete.expanded hs).items ▸ hp.lawful.mem_close.2 hj⟩
    obtain ⟨id₁, k, l⟩ := j
    rcases (hp.lawful.mem_ofWord (hi.fitting hp.lawful hp.complete).isTerminal).1 hx with
      hx | ⟨hrest, rfl⟩
    · -- the lookahead is shifted behind the head
      obtain ⟨t', he', hshift⟩ := hi.advance hp.lawful hp.complete (Grammar.next_of_drop hright)
      obtain rfl := he.unique he'
      obtain ⟨front, y, rest', hfront, hnull, hy⟩ := FirstSets.exists_front hx
      exact hc.halts_of_begins (hp.lawful.begins_of_mem_ofSymbol hy) hshift
        ((Grammar.drop_succ_of_drop hright).trans hfront)
        fun z hz => Grammar.mem_nullable_iff_vanishes.1 (hnull z hz)
    · obtain ⟨r₁, hr₁, -⟩ := Grammar.mem_right_of_rule
        (List.mem_of_getElem? (Grammar.next_of_drop hright))
      replace hrest : ∀ z ∈ rest, g.Vanishes z := fun z hz =>
        Grammar.mem_nullable_iff_vanishes.1 (hrest z hz)
      have hbehind : ∀ y ∈ r₁.right.drop k, P y := by
        rw [← Grammar.right_of_rule? hr₁, hright]
        exact List.forall_mem_cons.2 ⟨hhead, fun z hz => hvanish (hrest z hz)⟩
      refine hc.halts_of_vanishing hpath hr₁ hi hright hrest he fun hid₁ hdrop hnext => ?_
      cases k with
      | zero =>
        obtain ⟨rfl, rfl⟩ := List.cons.inj hdrop
        exact ih hr₁ hid₁ (hP hr₁ hbehind) hnext rfl
      | succ k => exact hlands hr₁ hid₁ hi hbehind hdrop hnext

/-- Reductions come to an end if those do that take states off the stack. -/
theorem halts_of_lands (hpath : a.Path (s :: below)) (hlands : c.Lands g a g.Vanishes x s below) :
    c.Halts x (s :: below) := by
  have hp := hc.projected
  refine ⟨_, fun states hred => ?_⟩
  obtain ⟨id, r, top, next, rest, hr, hid, hi, hdrop, he, rfl⟩ := hp.exists_of_reduces hred
  cases harity : r.arity with
  | zero =>
    rw [harity] at hi hdrop
    obtain ⟨rfl, rfl⟩ := List.cons.inj hdrop
    have hnil : r.right = [] := List.length_eq_zero_iff.1 (r.length_right.trans harity)
    have hvanish : g.Vanishes r.head.id := .rule hr (by simp [hnil])
    exact hc.halts_of_opened (fun hr hright => .rule hr hright) hpath hlands hr hid hvanish hi he
  | succ k =>
    rw [harity] at hi hdrop
    refine hlands hr hid hi (fun y hy => ?_) hdrop he
    rw [List.drop_eq_nil_of_le (by rw [r.length_right, harity])] at hy
    cases hy

/-- Where a symbol climbs to another whose rules are opened for the lookahead, so are its own rules,
and reductions lead from the one to the other. -/
theorem reaches_climb {y z : SymbolId} (hclimb : a.Climbs g s y z) (hopen : a.OpenedFor g s x z)
    (below : List StateId) :
    a.OpenedFor g s x y ∧ ∀ {t : StateId}, a.Edge s y t → ∃ t', a.Edge s z t' ∧
      TransGen (c.Reduces x) (t :: s :: below) (t' :: s :: below) := by
  have hp := hc.projected
  obtain ⟨id, r, -, rest, hr, hid, rfl, hbody, hrest, -⟩ := hclimb
  have hi := hopen hr rfl
  have hterm := (hi.fitting hp.lawful hp.complete).isTerminal
  have hright : (g.right id).drop 0 = y :: rest := by
    rw [List.drop_zero, Grammar.right_of_rule? hr, hbody]
  refine ⟨hi.openedFor hp.lawful hp.complete hright ((hp.lawful.mem_ofWord hterm).2
    (.inr ⟨fun z hz => Grammar.mem_nullable_iff_vanishes.2 (hrest z hz), rfl⟩)), fun {t} he => ?_⟩
  obtain ⟨next, -, hnext⟩ := hp.exists_goto hi hr hid
  obtain ⟨s', below', hreaches, hi', hdrop⟩ := hp.reaches_complete hr below hi hright hrest he
  exact ⟨next, hnext, .tail' hreaches (hp.reduces hr hid hi' hdrop hnext)⟩

theorem reaches_climbs {y z : SymbolId} (hclimbs : ReflTransGen (a.Climbs g s) y z)
    (hopen : a.OpenedFor g s x z) (below : List StateId) :
    a.OpenedFor g s x y ∧ ∀ {t : StateId}, a.Edge s y t → ∃ t', a.Edge s z t' ∧
      ReflTransGen (c.Reduces x) (t :: s :: below) (t' :: s :: below) := by
  induction hclimbs using ReflTransGen.head_induction_on with
  | refl => exact ⟨hopen, fun he => ⟨_, he, .refl⟩⟩
  | head hclimb _ ih =>
    obtain ⟨hopen', hreach'⟩ := ih
    obtain ⟨hopen, hreach⟩ := hc.reaches_climb hclimb hopen' below
    refine ⟨hopen, fun he => ?_⟩
    obtain ⟨t, he, hreaches⟩ := hreach he
    obtain ⟨t', he', hreaches'⟩ := hreach' he
    exact ⟨t', he', hreaches.to_reflTransGen.trans hreaches'⟩

/-- No symbol climbs to itself, if the stacks halt that reductions below lead to. -/
theorem not_climbs_cycle (hpath : a.Path (s :: below))
    (hlands : ∀ x, c.Lands g a (fun _ => True) x s below) (y : SymbolId) :
    ¬ TransGen (a.Climbs g s) y y := by
  have hp := hc.projected
  intro hcycle
  obtain ⟨z, hclimb, hback⟩ := TransGen.head'_iff.1 hcycle
  obtain ⟨id, r, l, rest, hr, hid, rfl, hbody, hrest, hi⟩ := id hclimb
  have hright : (g.right id).drop 0 = y :: rest := by
    rw [List.drop_zero, Grammar.right_of_rule? hr, hbody]
  have hopen : a.OpenedFor g s l y := hi.openedFor hp.lawful hp.complete hright
    ((hp.lawful.mem_ofWord (hi.fitting hp.lawful hp.complete).isTerminal).2
      (.inr ⟨fun z hz => Grammar.mem_nullable_iff_vanishes.2 (hrest z hz), rfl⟩))
  -- all rules of the cycle are opened for the lookahead, and reductions go round
  obtain ⟨hopen', hreach'⟩ := hc.reaches_climbs hback hopen below
  obtain ⟨-, hreach⟩ := hc.reaches_climb hclimb hopen' below
  obtain ⟨next, -, he⟩ := hp.exists_goto hi hr hid
  obtain ⟨t, he', hreaches'⟩ := hreach' he
  obtain ⟨next', he'', hreaches⟩ := hreach he'
  obtain rfl := he.unique he''
  have hhalts := hc.halts_of_opened (fun _ _ => trivial) hpath (hlands l) hr hid trivial hi he
  exact hhalts.not_cycle (.trans_right hreaches' hreaches)

/-- On every stack along edges, reductions on a lookahead come to an end. -/
theorem halts_of_length_le : ∀ {n : Nat} {states : List StateId}, states.length ≤ n →
    a.Path states → ∀ x, c.Halts x states := by
  have hp := hc.projected
  intro n
  induction n with
  | zero =>
    intro states hlen hpath
    cases hpath <;> cases hlen
  | succ n ih =>
    intro states hlen hpath
    cases hpath with
    | bottom =>
      exact fun x => hc.halts_of_lands .bottom fun _ _ hi =>
        absurd hi (Automaton.Has.marker_ne_succ hp.lawful hp.complete)
    | @push s t below y hpath he =>
      -- a reduction that takes states off the stack below leads to a stack no longer than that
      have hsmall : ∀ {id : RuleId} {k : Nat} {l : SymbolId} {top next : StateId}
          {rest : List StateId} {y : SymbolId}, a.Has s ⟨id, k + 1, l⟩ →
          (s :: below).drop (k + 1) = top :: rest → a.Edge top y next →
          ∀ x, c.Halts x (next :: top :: rest) := by
        intro id k l top next rest y hi hdrop he x
        obtain ⟨top', rest', l', hdrop', hpath', -⟩ := hpath.pop hp.lawful hp.complete hi
        obtain ⟨rfl, rfl⟩ := List.cons.inj (hdrop.symm.trans hdrop')
        have hshort := congrArg List.length hdrop
        rw [List.length_drop] at hshort
        simp only [List.length_cons] at hshort hlen
        exact ih (by simp only [List.length_cons]; omega) (.push hpath' he) x
      have hclimbs : ∀ y, ¬ TransGen (a.Climbs g s) y y :=
        hc.not_climbs_cycle hpath fun x _ _ _ _ _ _ hr _ hi _ hdrop he => hsmall hi hdrop he x
      have : IsStrictOrder SymbolId fun z y => TransGen (a.Climbs g s) y z :=
        { irrefl := hclimbs, trans := fun _ _ _ hyz hzw => hzw.trans hyz }
      have hwf := (Set.finite_lt_nat g.symbols.size).wellFoundedOn
        (r := fun z y => TransGen (a.Climbs g s) y z)
      refine hwf.induction (he.symbol_lt hp.lawful hp.complete) (P := fun y => ∀ {t : StateId},
        a.Edge s y t → ∀ x, c.Halts x (t :: s :: below)) (fun y _ ih t he x => ?_) he
      refine hc.halts_of_lands (.push hpath he)
        fun {id r k _ next _} hr hid hi hvanish hdrop hnext => ?_
      obtain ⟨hy, l, hi'⟩ := he.retreat hp.lawful hp.complete hi
      cases k with
      | zero =>
        obtain ⟨rfl, rfl⟩ := List.cons.inj hdrop
        rw [Grammar.right_of_rule? hr] at hy
        have hright : r.right = y :: r.right.drop 1 := by
          cases hlist : r.right with
          | nil => simp [hlist] at hy
          | cons z rest => simp_all
        have hclimb : a.Climbs g s y r.head.id := ⟨id, r, l, _, hr, hid, rfl, hright, hvanish, hi'⟩
        exact ih _ (hp.lawful.head_lt hr) (.single hclimb) hnext x
      | succ k => exact hsmall hi' hdrop hnext x

theorem halts {states : List StateId} (hpath : a.Path states) (x : SymbolId) : c.Halts x states :=
  hc.halts_of_length_le (Nat.le_refl _) hpath x

end Halting
end Control
end BottomUp
