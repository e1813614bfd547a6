/-
# What the moves of a table mean

The items of a state say what has been read on the way to it and what may follow. Forward,
an item with a symbol behind its marker leads on by it, and opens the rules of a
nonterminal. Backward, an item whose marker has moved comes from the state
before, and an item with its marker in front was opened there, or is the one that
the automaton starts from. A control projected from an automaton offers what
the items say and nothing else: it shifts along edges, reduces complete items and
accepts the complete item of the goal. Where a state has several moves on a lookahead, all of them
are a conflict.

Key definitions: `Automaton.Edge`, `Automaton.Has`, `Control.Projected`, `Table.contest`.
Key theorems: `Automaton.Has.advance`, `Automaton.Edge.retreat`, `Automaton.Has.origin`,
`Table.generate_projected`, `Table.mem_conflictsOf`, `Table.length_moves_le_one`.
-/
import BottomUp.Proofs.Complete
import BottomUp.Table

namespace BottomUp

namespace Automaton

/-- A state leads to another by a symbol. -/
def Edge (a : Automaton) (source : StateId) (x : SymbolId) (target : StateId) : Prop :=
  ∃ s, a.state? source = some s ∧ s.transition x = some target

/-- An item is one of a state. -/
def Has (a : Automaton) (state : StateId) (i : Item) : Prop :=
  ∃ s, a.state? state = some s ∧ i ∈ s.items

theorem Edge.unique {a : Automaton} {s t t' : StateId} {x : SymbolId} (he : a.Edge s x t)
    (he' : a.Edge s x t') : t = t' := by
  obtain ⟨st, hs, ht⟩ := he
  obtain ⟨st', hs', ht'⟩ := he'
  rw [hs] at hs'
  cases hs'
  exact Option.some.inj (ht.symm.trans ht')

variable {g : Grammar} {m : Method} {a : Automaton} {s t : StateId} {x : SymbolId} {i : Item}
  (h : g.Lawful) (ha : a.Complete g m)

/-! ### The rule of the goal -/

include h in
theorem right_goal : g.right .goal = [g.start] := by
  obtain ⟨s, -, hkind, hid, hr⟩ := h.axiomRule
  rw [Grammar.right_of_rule? hr]
  simp [Rule.right, Rule.parsed, Symbol.isParsed, hkind, hid]

include h in
theorem arity_goal {r : Rule} (hr : g.rule? .goal = some r) : r.arity = 1 := by
  rw [← r.length_right, ← Grammar.right_of_rule? hr, right_goal h]
  rfl

include h in
/-- No rule has the goal on its right. -/
theorem next_ne_goal (hx : i.next g = some x) : x ≠ .goal := by
  obtain ⟨r, hr, hmem⟩ := Grammar.mem_right_of_rule (List.mem_of_getElem? hx)
  obtain ⟨e, -, -, rfl, hdecl⟩ := h.mem_right hr hmem
  exact hdecl.ne_goal

include h in
theorem head_goal {r : Rule} (hr : g.rule? .goal = some r) : r.head.id = .goal := by
  obtain ⟨s, -, -, -, hgoal⟩ := h.axiomRule
  rw [hgoal] at hr
  cases hr
  rfl

/-! ### Forward -/

include h ha in
theorem has_start : a.Has 0 .start := by
  obtain ⟨s, hs, -, hsub⟩ := ha.start
  refine ⟨s, hs, ?_⟩
  rw [(ha.expanded hs).items]
  exact h.mem_close.2 (.base (hsub _ (OrdSet.mem_singleton.2 rfl)))

include h ha in
theorem Has.fitting (hi : a.Has s i) : g.Fitting i := by
  obtain ⟨st, hs, hi⟩ := hi
  rw [(ha.expanded hs).items] at hi
  exact h.fitting_close ((ha.gathered hs).fitting h) i hi

include h ha in
/-- A state leads on by the symbol behind a marker, to a state with the marker moved. -/
theorem Has.advance (hi : a.Has s i) (hx : i.next g = some x) :
    ∃ t, a.Edge s x t ∧ a.Has t i.shifted := by
  obtain ⟨st, hs, hi⟩ := hi
  have hexp := ha.expanded hs
  obtain ⟨t, ht⟩ := Option.isSome_iff_exists.1 (hexp.transition_isSome.2 ⟨i, hi, hx⟩)
  obtain ⟨st', hs', -, hsub⟩ := hexp.leads (hexp.transition_eq_some.1 ht)
  refine ⟨t, ⟨st, hs, ht⟩, st', hs', ?_⟩
  rw [(ha.expanded hs').items]
  rw [hexp.items] at hi
  exact h.mem_close.2 (.base (hsub _ (Grammar.mem_successor.2 ⟨i, hi, hx, rfl⟩)))

include h ha in
/-- The rules of a nonterminal behind a marker are opened, for all that may follow it. -/
theorem Has.opened (hi : a.Has s i) {id : RuleId} {r : Rule} (hr : g.rule? id = some r)
    {rest : List SymbolId} (ho : g.openingOf i = some (r.head.id, rest)) {l : SymbolId}
    (hl : l ∈ g.firstSets.ofWord rest i.lookahead) : a.Has s ⟨id, 0, l⟩ := by
  obtain ⟨st, hs, hi⟩ := hi
  refine ⟨st, hs, ?_⟩
  rw [(ha.expanded hs).items] at hi ⊢
  exact h.mem_close.2 (.opened (h.mem_close.1 hi) hr ho hl)

/-! ### Backward -/

include ha in
theorem Edge.exists_next (he : a.Edge s x t) : ∃ i, a.Has s i ∧ i.next g = some x := by
  obtain ⟨st, hs, ht⟩ := he
  obtain ⟨i, hi, hx⟩ := (ha.expanded hs).transition_isSome.1 (Option.isSome_iff_exists.2 ⟨t, ht⟩)
  exact ⟨i, ⟨st, hs, hi⟩, hx⟩

include h ha in
/-- No edge bears the end of the input. -/
theorem Edge.ne_endOfInput (he : a.Edge s x t) : x ≠ .endOfInput := by
  obtain ⟨i, -, hnext⟩ := he.exists_next ha
  obtain ⟨r, hr, hmem⟩ := Grammar.mem_right_of_rule (List.mem_of_getElem? hnext)
  obtain ⟨e, -, -, rfl, hdecl⟩ := h.mem_right hr hmem
  exact hdecl.ne_endOfInput

include ha in
/-- Every item of the kernel that an edge leads to has moved over the symbol of the edge. -/
theorem Edge.mem_kernel (he : a.Edge s x t) {st : State} (ht : a.state? t = some st)
    (hi : i ∈ st.kernel) :
    ∃ j, a.Has s j ∧ j.next g = some x ∧ i.Alike j.shifted := by
  obtain ⟨ss, hs, htrans⟩ := he
  have hexp := ha.expanded hs
  obtain ⟨st', ht', hkey, -⟩ := hexp.leads (hexp.transition_eq_some.1 htrans)
  obtain rfl : st' = st := Option.some.inj (ht'.symm.trans ht)
  obtain ⟨j, hj, hij⟩ := ItemSet.exists_alike (Method.core_eq_of_key_eq hkey) hi
  obtain ⟨k, hk, hx, rfl⟩ := Grammar.mem_successor.1 hj
  exact ⟨k, ⟨ss, hs, hexp.items ▸ hk⟩, hx, hij⟩

include h ha in
/-- An item whose marker has moved is in the kernel of its state. -/
theorem Has.mem_kernel {id : RuleId} {k : Nat} {l : SymbolId} (hi : a.Has s ⟨id, k + 1, l⟩) :
    ∃ st, a.state? s = some st ∧ ⟨id, k + 1, l⟩ ∈ st.kernel := by
  obtain ⟨st, hs, hi⟩ := hi
  refine ⟨st, hs, ?_⟩
  rw [(ha.expanded hs).items] at hi
  generalize heq : (⟨id, k + 1, l⟩ : Item) = i at hi
  cases h.mem_close.1 hi with
  | base hi => exact hi
  | opened _ _ _ _ => cases heq

include h ha in
/-- An item whose marker has moved was, with its marker one place before, in each state that
leads here, and the marker has moved over the symbol of the edge. -/
theorem Edge.retreat (he : a.Edge s x t) {id : RuleId} {k : Nat} {l : SymbolId}
    (hi : a.Has t ⟨id, k + 1, l⟩) : (g.right id)[k]? = some x ∧ ∃ l', a.Has s ⟨id, k, l'⟩ := by
  obtain ⟨st, ht, hbase⟩ := hi.mem_kernel h ha
  obtain ⟨⟨id', k', l'⟩, hj, hx, hrule, hmarker⟩ := he.mem_kernel ha ht hbase
  obtain rfl : id = id' := hrule
  obtain rfl : k = k' := Nat.succ.inj hmarker
  exact ⟨hx, l', hj⟩

include h ha in
/-- Where a parse starts, no marker has moved. -/
theorem Has.marker_ne_succ {id : RuleId} {k : Nat} {l : SymbolId} : ¬ a.Has 0 ⟨id, k + 1, l⟩ := by
  intro hi
  obtain ⟨st, hs, hbase⟩ := hi.mem_kernel h ha
  obtain ⟨st', hs', hkey, -⟩ := ha.start
  obtain rfl : st' = st := Option.some.inj (hs'.symm.trans hs)
  obtain ⟨j, hj, -, hmarker⟩ := ItemSet.exists_alike (Method.core_eq_of_key_eq hkey) hbase
  rw [OrdSet.mem_singleton.1 hj] at hmarker
  exact Nat.succ_ne_zero k hmarker

include ha in
/-- No edge leads back to the state where a parse starts. -/
theorem Edge.target_ne_zero (he : a.Edge s x t) : t ≠ 0 := by
  rintro rfl
  obtain ⟨st, ht, -, hsub⟩ := ha.start
  obtain ⟨j, -, -, -, hmarker⟩ := he.mem_kernel ha ht (hsub _ (OrdSet.mem_singleton.2 rfl))
  exact absurd hmarker.symm (Nat.succ_ne_zero j.marker)

include ha in
theorem Edge.target_lt (he : a.Edge s x t) : t < a.states.size := by
  obtain ⟨st, hs, htrans⟩ := he
  have hexp := ha.expanded hs
  obtain ⟨st', ht, -⟩ := hexp.leads (hexp.transition_eq_some.1 htrans)
  exact (Array.getElem?_eq_some_iff.1 ht).1

include h ha in
/-- The edges that lead to a state bear one symbol. -/
theorem Edge.symbol_eq (he : a.Edge s x t) {s' : StateId} {x' : SymbolId} (he' : a.Edge s' x' t) :
    x = x' := by
  obtain ⟨i, hi, hx⟩ := he.exists_next ha
  obtain ⟨t', he'', hshift⟩ := hi.advance h ha hx
  obtain rfl := he.unique he''
  obtain ⟨hx', -⟩ := he'.retreat h ha hshift
  exact Option.some.inj (hx.symm.trans hx')

include h ha in
/-- An item with its marker in front was opened in its state, or it is the goal's and the
state is the one where a parse starts. -/
theorem Has.origin {id : RuleId} {l : SymbolId} (hi : a.Has s ⟨id, 0, l⟩) :
    (id = .goal ∧ s = 0) ∨ ∃ j r, a.Has s j ∧ g.rule? id = some r ∧ j.next g = some r.head.id := by
  obtain ⟨st, hs, hi⟩ := hi
  rw [(ha.expanded hs).items] at hi
  generalize heq : (⟨id, 0, l⟩ : Item) = i at hi
  cases h.mem_close.1 hi with
  | base hi =>
    subst heq
    obtain ⟨k, hk, hkey, hik⟩ := (ha.gathered hs).mem _ hi
    cases hk with
    | start =>
      have hstart := OrdSet.mem_singleton.1 hik
      obtain ⟨st', hs', hkey', -⟩ := ha.start
      exact .inl ⟨congrArg Item.rule hstart, ha.distinct hs hs' (hkey.symm.trans hkey'.symm)⟩
    | successor _ _ _ => exact absurd (Grammar.marker_pos_of_mem_successor hik) (Nat.lt_irrefl 0)
  | @opened j rest id' r a' hj hr ho _ =>
    cases heq
    have hj : j ∈ st.items := by
      rw [(ha.expanded hs).items]
      exact h.mem_close.2 hj
    exact .inr ⟨j, r, ⟨st, hs, hj⟩, hr, Grammar.next_of_drop (Grammar.openingOf_eq_some.1 ho).1⟩

include h in
/-- Only the end of the input comes after the goal. -/
theorem lookahead_goal {kernel : ItemSet} (hk : g.Reached kernel) :
    ∀ i ∈ g.close g.firstSets kernel, i.rule = .goal → i.lookahead = .endOfInput := by
  have hclose : ∀ {kernel : ItemSet}, (∀ i ∈ kernel, i.rule = .goal → i.lookahead = .endOfInput) →
      ∀ i ∈ g.close g.firstSets kernel, i.rule = .goal → i.lookahead = .endOfInput := by
    intro kernel hkernel i hi hgoal
    cases h.mem_close.1 hi with
    | base hi => exact hkernel i hi hgoal
    | @opened j rest id r _ _ hr ho _ =>
      have hid : id = .goal := hgoal
      have hnext := Grammar.next_of_drop (Grammar.openingOf_eq_some.1 ho).1
      exact absurd (head_goal h (hid ▸ hr)) (next_ne_goal h hnext)
  induction hk with
  | start => exact hclose fun i hi _ => OrdSet.mem_singleton.1 hi ▸ rfl
  | successor _ _ _ ih =>
    refine hclose fun j hj hgoal => ?_
    obtain ⟨i, hi, -, rfl⟩ := Grammar.mem_successor.1 hj
    exact ih i hi hgoal

include h ha in
theorem Has.lookahead_goal {k : Nat} {l : SymbolId} (hi : a.Has s ⟨.goal, k, l⟩) :
    l = .endOfInput := by
  obtain ⟨st, hs, hi⟩ := hi
  obtain ⟨kernel, hk, -, hik⟩ := (ha.mem_items h hs).1 hi
  exact Automaton.lookahead_goal h hk _ hik rfl

include h ha in
/-- The complete item of the goal is in the state after the start symbol only. -/
theorem Edge.of_goal (he : a.Edge s x t) {l : SymbolId} (hi : a.Has t ⟨.goal, 1, l⟩) :
    s = 0 ∧ x = g.start := by
  obtain ⟨hx, l', hi'⟩ := he.retreat h ha hi
  rw [right_goal h] at hx
  have hx : x = g.start := (Option.some.inj hx).symm
  rcases hi'.origin h ha with ⟨-, hs⟩ | ⟨j, r, hj, hr, hnext⟩
  · exact ⟨hs, hx⟩
  · exact absurd (head_goal h hr) (next_ne_goal h hnext)

end Automaton

/-! ### Tables -/

/-- A control that was projected from a complete automaton of a lawful grammar. -/
structure Control.Projected (c : Control) (g : Grammar) (m : Method) (a : Automaton) : Prop where
  lawful : g.Lawful
  complete : a.Complete g m
  initial : c.initial = 0
  rule? : ∀ id, c.rule? id = g.rule? id
  symbol? : ∀ x, c.symbol? x = g.symbol? x
  /-- Terminals are shifted along the edges. -/
  mem_shift : ∀ {s t x}, Move.shift t ∈ c.moves s x ↔ g.isTerminal x = true ∧ a.Edge s x t
  /-- Complete items are reduced on their lookaheads. -/
  mem_reduce : ∀ {s id x}, Move.reduce id ∈ c.moves s x ↔
    id ≠ .goal ∧ ∃ r, g.rule? id = some r ∧ a.Has s ⟨id, r.arity, x⟩
  mem_accept : ∀ {s x}, Move.accept ∈ c.moves s x ↔ a.Has s ⟨.goal, 1, x⟩
  /-- After a reduction the parse goes on along the edge of the nonterminal. -/
  goto?_eq_some : ∀ {s t x}, c.goto? s x = some t ↔ g.isTerminal x = false ∧ a.Edge s x t

namespace Control.Projected

variable {g : Grammar} {m : Method} {a : Automaton} {c : Control} (hc : c.Projected g m a)
include hc

/-- Below the symbols of a rule other than the goal's, the parse goes on along the edge of the
rule's head. -/
theorem exists_goto {s : StateId} {id : RuleId} {r : Rule} {l : SymbolId}
    (hi : a.Has s ⟨id, 0, l⟩) (hr : g.rule? id = some r) (hid : id ≠ .goal) :
    ∃ t, c.goto? s r.head.id = some t ∧ a.Edge s r.head.id t := by
  rcases hi.origin hc.lawful hc.complete with ⟨hgoal, -⟩ | ⟨j, r', hj, hr', hnext⟩
  · exact absurd hgoal hid
  · rw [hr] at hr'
    cases hr'
    obtain ⟨t, he, -⟩ := hj.advance hc.lawful hc.complete hnext
    exact ⟨t, hc.goto?_eq_some.2 ⟨hc.lawful.not_isTerminal_head hr, he⟩, he⟩

end Control.Projected

namespace Table

variable {g : Grammar} {m : Method} {a : Automaton} {mode : Mode} {t : Table}

theorem generate_eq_ok (ht : generate g a mode = .ok t) :
    t = ⟨g.symbols, g.rules, a.states.map (rowOf g), mode⟩ ∧
      (mode = .deterministic → a.conflicts = []) := by
  unfold generate at ht
  dsimp only at ht
  split at ht
  · cases ht
  · next hcond =>
    cases ht
    refine ⟨rfl, fun hmode => ?_⟩
    by_contra hne
    exact hcond ⟨hmode, hne⟩

/-- The lookaheads that a state has moves on. -/
def lookaheads (g : Grammar) (s : State) : List SymbolId :=
  (s.transitions.map (·.1)).filter (g.isTerminal ·) ++ s.reductions.map (·.1)

theorem moves_rowOf_eq (s : State) :
    (rowOf g s).moves = (lookaheads g s).eraseDups.map fun x => (x, cell s x) := by
  unfold rowOf lookaheads
  rw [List.partition_eq_filter_filter, List.filter_map]
  rfl

theorem moves_rowOf (s : State) (x : SymbolId) : ((rowOf g s).moves.lookup x).getD [] =
    if x ∈ lookaheads g s then cell s x else [] := by
  rw [moves_rowOf_eq, lookup_map_key]
  by_cases hx : x ∈ lookaheads g s
  · rw [if_pos (List.mem_eraseDups.2 hx), if_pos hx, Option.getD_some]
  · rw [if_neg (fun hmem => hx (List.mem_eraseDups.1 hmem)), if_neg hx, Option.getD_none]

theorem gotos_rowOf (s : State) : (rowOf g s).gotos =
    s.transitions.filter fun p => !g.isTerminal p.1 := by
  unfold rowOf
  rw [List.partition_eq_filter_filter]
  rfl

theorem mem_cell {s : State} {x : SymbolId} {move : Move} : move ∈ cell s x ↔
    (∃ t, s.transition x = some t ∧ move = .shift t) ∨
      ∃ id ∈ s.reductionsOn x, move = reduceMove id := by
  simp [cell, eq_comm]

theorem reduceMove_ne_shift (id : RuleId) (t : StateId) : reduceMove id ≠ .shift t := by
  unfold reduceMove
  split <;> simp

theorem reduceMove_eq_reduce {id id' : RuleId} :
    reduceMove id = .reduce id' ↔ id = id' ∧ id' ≠ .goal := by
  unfold reduceMove
  split
  · next hgoal => simp [hgoal, eq_comm]
  · next hgoal =>
    simp only [Move.reduce.injEq]
    exact ⟨fun he => ⟨he, he ▸ hgoal⟩, fun he => he.1⟩

theorem reduceMove_eq_accept {id : RuleId} : reduceMove id = .accept ↔ id = .goal := by
  unfold reduceMove
  split <;> simp_all

section Projection

variable (h : g.Lawful) (ha : a.Complete g m)

/-- The rules to reduce are those of the complete items. -/
theorem mem_reductionsOn (ha : a.Complete g m) {s : StateId} {st : State}
    (hs : a.state? s = some st) {id : RuleId} {x : SymbolId} :
    id ∈ st.reductionsOn x ↔ ∃ r, g.rule? id = some r ∧ ⟨id, r.arity, x⟩ ∈ st.items := by
  rw [(ha.expanded hs).mem_reductionsOn]
  constructor
  · rintro ⟨⟨rule, marker, l⟩, hi, hc, rfl, rfl⟩
    obtain ⟨r, hr, hm⟩ := (Option.any_eq_true _ _).1 hc
    obtain rfl : marker = r.arity := of_decide_eq_true hm
    exact ⟨r, hr, hi⟩
  · rintro ⟨r, hr, hi⟩
    exact ⟨_, hi, (Option.any_eq_true _ _).2 ⟨r, hr, decide_eq_true rfl⟩, rfl, rfl⟩

/-- A state has moves on the lookaheads of its reductions. -/
theorem mem_lookaheads_of_reduction (ha : a.Complete g m) {s : StateId} {st : State}
    (hs : a.state? s = some st) {id : RuleId} {x : SymbolId} (hid : id ∈ st.reductionsOn x) :
    x ∈ lookaheads g st := by
  obtain ⟨i, hi, hc, hx, -⟩ := (ha.expanded hs).mem_reductionsOn.1 hid
  refine List.mem_append_right _ ?_
  rw [(ha.expanded hs).reductions]
  exact Grammar.mem_reductions_keys.2 ⟨i, hi, hc, hx⟩

include h in
/-- Of the symbols that a state leads on by, it has moves on the terminals. -/
theorem mem_lookaheads_of_transition (ha : a.Complete g m) {s : StateId} {st : State}
    (hs : a.state? s = some st) {x : SymbolId} {t : StateId} (ht : st.transition x = some t) :
    x ∈ lookaheads g st ↔ g.isTerminal x = true := by
  constructor
  · intro hx
    rcases List.mem_append.1 hx with hx | hx
    · exact (List.mem_filter.1 hx).2
    · rw [(ha.expanded hs).reductions] at hx
      obtain ⟨i, hi, -, rfl⟩ := Grammar.mem_reductions_keys.1 hx
      have hi : a.Has s i := ⟨st, hs, hi⟩
      exact (hi.fitting h ha).isTerminal
  · intro hx
    refine List.mem_append_left _ (List.mem_filter.2 ⟨?_, hx⟩)
    exact List.mem_map.2 ⟨_, (ha.expanded hs).transition_eq_some.1 ht, rfl⟩

/-- After each nonterminal a row has one state. -/
theorem nodup_gotos {states : Array State} {st : State} (hexp : Expanded g m states st) :
    ((rowOf g st).gotos.map (·.1)).Nodup := by
  rw [gotos_rowOf]
  exact hexp.nodup_symbols.sublist (List.filter_sublist.map _)

/-- The states after a reduction are those that the nonterminals lead to. -/
theorem lookup_gotos {states : Array State} {st : State} (hexp : Expanded g m states st)
    {x : SymbolId} {next : StateId} : (rowOf g st).gotos.lookup x = some next ↔
      g.isTerminal x = false ∧ st.transition x = some next := by
  rw [lookup_eq_some_iff_mem (nodup_gotos hexp), gotos_rowOf, List.mem_filter,
    hexp.transition_eq_some]
  simp [and_comm]

/-- A state offers the moves of its cells, and what is no state offers none. -/
theorem moves_eq (ht : generate g a mode = .ok t) (s : StateId) (x : SymbolId) :
    t.control.moves s x =
      ((a.state? s).map fun st => if x ∈ lookaheads g st then cell st x else []).getD [] := by
  obtain ⟨rfl, -⟩ := generate_eq_ok ht
  simp only [control, Array.getElem?_map, Automaton.state?]
  cases a.states[s]? with
  | none => rfl
  | some st => simp only [Option.map_some, Option.bind_some, moves_rowOf, Option.getD_some]

/-- The moves on a lookahead: the shift along the edge of a terminal, and the reductions of
complete items. -/
theorem mem_moves (ht : generate g a mode = .ok t) {s : StateId} {x : SymbolId} {move : Move} :
    move ∈ t.control.moves s x ↔ ∃ st, a.state? s = some st ∧ x ∈ lookaheads g st ∧
      move ∈ cell st x := by
  rw [moves_eq ht]
  cases hs : a.state? s with
  | none => simp
  | some st =>
    simp only [Option.map_some, Option.getD_some, Option.some.injEq, exists_eq_left']
    split <;> simp_all

include h in
/-- Terminals are shifted along the edges. -/
theorem shift_mem_moves (ha : a.Complete g m) (ht : generate g a mode = .ok t) {s next : StateId}
    {x : SymbolId} : .shift next ∈ t.control.moves s x ↔
      g.isTerminal x = true ∧ a.Edge s x next := by
  rw [mem_moves ht]
  constructor
  · rintro ⟨st, hs, hx, hmove⟩
    rcases mem_cell.1 hmove with ⟨t', htrans, heq⟩ | ⟨id, -, heq⟩
    · cases heq
      exact ⟨(mem_lookaheads_of_transition h ha hs htrans).1 hx, st, hs, htrans⟩
    · exact absurd heq.symm (reduceMove_ne_shift id next)
  · rintro ⟨hx, st, hs, htrans⟩
    exact ⟨st, hs, (mem_lookaheads_of_transition h ha hs htrans).2 hx,
      mem_cell.2 (.inl ⟨next, htrans, rfl⟩)⟩

/-- A move that is made of a rule is offered where the rule's complete item is. -/
theorem reduceMove_mem_moves (ha : a.Complete g m) (ht : generate g a mode = .ok t) {s : StateId}
    {x : SymbolId} {move : Move} (hmove : ∀ next, move ≠ .shift next) :
    move ∈ t.control.moves s x ↔
      ∃ id r, move = reduceMove id ∧ g.rule? id = some r ∧ a.Has s ⟨id, r.arity, x⟩ := by
  rw [mem_moves ht]
  constructor
  · rintro ⟨st, hs, -, hcell⟩
    rcases mem_cell.1 hcell with ⟨t', -, heq⟩ | ⟨id, hid, heq⟩
    · exact absurd heq (hmove t')
    · obtain ⟨r, hr, hi⟩ := (mem_reductionsOn ha hs).1 hid
      exact ⟨id, r, heq, hr, st, hs, hi⟩
  · rintro ⟨id, r, heq, hr, st, hs, hi⟩
    have hid := (mem_reductionsOn ha hs).2 ⟨r, hr, hi⟩
    exact ⟨st, hs, mem_lookaheads_of_reduction ha hs hid, mem_cell.2 (.inr ⟨id, hid, heq⟩)⟩

/-- After a reduction the parse goes on along the edge of the nonterminal. -/
theorem goto_eq_some (ha : a.Complete g m) (ht : generate g a mode = .ok t) {s next : StateId}
    {x : SymbolId} : t.control.goto? s x = some next ↔
      g.isTerminal x = false ∧ a.Edge s x next := by
  obtain ⟨rfl, -⟩ := generate_eq_ok ht
  simp only [control, Array.getElem?_map]
  constructor
  · intro hgoto
    obtain ⟨row, hrow, hlookup⟩ := Option.bind_eq_some_iff.1 hgoto
    obtain ⟨st, hs, rfl⟩ := Option.map_eq_some_iff.1 hrow
    obtain ⟨hx, htrans⟩ := (lookup_gotos (ha.expanded hs)).1 hlookup
    exact ⟨hx, st, hs, htrans⟩
  · rintro ⟨hx, st, hs, htrans⟩
    have hlookup := (lookup_gotos (ha.expanded hs)).2 ⟨hx, htrans⟩
    have hs : a.states[s]? = some st := hs
    rw [hs, Option.map_some, Option.bind_some, hlookup]

include h in
/-- What a table offers is what the items of the automaton say. -/
theorem generate_projected (ha : a.Complete g m) (ht : generate g a mode = .ok t) :
    t.control.Projected g m a where
  lawful := h
  complete := ha
  initial := rfl
  rule? id := by
    obtain ⟨rfl, -⟩ := generate_eq_ok ht
    rfl
  symbol? x := by
    obtain ⟨rfl, -⟩ := generate_eq_ok ht
    rfl
  mem_shift := shift_mem_moves h ha ht
  mem_reduce {s id x} := by
    rw [reduceMove_mem_moves ha ht (by simp)]
    constructor
    · rintro ⟨id', r, heq, hr, hi⟩
      obtain ⟨rfl, hne⟩ := reduceMove_eq_reduce.1 heq.symm
      exact ⟨hne, r, hr, hi⟩
    · rintro ⟨hne, r, hr, hi⟩
      exact ⟨id, r, (reduceMove_eq_reduce.2 ⟨rfl, hne⟩).symm, hr, hi⟩
  mem_accept {s x} := by
    obtain ⟨start, -, hkind, -, hr⟩ := h.axiomRule
    have harity : Rule.arity ⟨.goal, [⟨start, .keep⟩]⟩ = 1 := by
      simp [Rule.arity, Rule.parsed, Symbol.isParsed, hkind]
    rw [reduceMove_mem_moves ha ht (by simp)]
    constructor
    · rintro ⟨id, r, heq, hr', hi⟩
      obtain rfl := reduceMove_eq_accept.1 heq.symm
      rw [hr] at hr'
      cases hr'
      exact harity ▸ hi
    · intro hi
      exact ⟨.goal, _, (reduceMove_eq_accept.2 rfl).symm, hr, harity.symm ▸ hi⟩
  goto?_eq_some := goto_eq_some ha ht

end Projection

/-! ### Conflicts -/

/-- All the moves of a state on a lookahead, as a conflict. -/
def contest (s : State) (x : SymbolId) : Conflict :=
  ⟨s.id, x, s.transition x, s.reductionsOn x⟩

theorem length_cell (s : State) (x : SymbolId) :
    (cell s x).length = (s.transition x).toList.length + (s.reductionsOn x).length := by
  simp [cell]

/-- A conflict is reported if there are several moves, of which one may be a shift. -/
theorem competing_iff {shift : Option StateId} {reduces : List RuleId} :
    (reduces.length > 1 || (shift.isSome && !reduces.isEmpty)) = true ↔
      1 < shift.toList.length + reduces.length := by
  cases shift with
  | none => simp
  | some next =>
    cases reduces with
    | nil => simp
    | cons r rest => simp

/-- A state has one shift on a lookahead at most. -/
theorem reductionsOn_ne_nil {s : State} {x : SymbolId} (h : 1 < (cell s x).length) :
    s.reductionsOn x ≠ [] := by
  intro hnil
  have hshift : (s.transition x).toList.length ≤ 1 := by cases s.transition x <;> simp
  rw [length_cell, hnil, List.length_nil] at h
  omega

/-- Where a state has several moves, they are one of its conflicts. -/
theorem contest_mem_conflictsOf {s : State} {x : SymbolId} (h : 1 < (cell s x).length) :
    contest s x ∈ Automaton.conflictsOf s := by
  cases hl : s.reductions.lookup x with
  | none =>
    refine absurd ?_ (reductionsOn_ne_nil h)
    rw [State.reductionsOn, hl, Option.getD_none]
  | some reduces =>
    have heq : s.reductionsOn x = reduces := by rw [State.reductionsOn, hl, Option.getD_some]
    rw [length_cell, heq] at h
    refine List.mem_filterMap.2 ⟨(x, reduces), mem_of_lookup_eq_some hl, ?_⟩
    dsimp only
    rw [if_pos (competing_iff.2 h), contest, heq]

/-- The conflicts of a state are the lookaheads on which it has several moves, with all of them. -/
theorem mem_conflictsOf {states : Array State} {s : State} (hs : Expanded g m states s)
    {c : Conflict} : c ∈ Automaton.conflictsOf s ↔
      c = contest s c.lookahead ∧ 1 < (cell s c.lookahead).length := by
  refine ⟨fun hc => ?_, fun ⟨heq, hlen⟩ => heq ▸ contest_mem_conflictsOf hlen⟩
  obtain ⟨⟨x, reduces⟩, hmem, hc⟩ := List.mem_filterMap.1 hc
  dsimp only at hc
  split at hc
  · next hcompete =>
    obtain rfl := Option.some.inj hc
    rw [contest, length_cell, hs.reductionsOn_eq hmem]
    exact ⟨rfl, competing_iff.1 hcompete⟩
  · cases hc

/-- A state without conflicts has one move on a lookahead at most. -/
theorem length_cell_le_one {s : State} (hnone : Automaton.conflictsOf s = [])
    (x : SymbolId) : (cell s x).length ≤ 1 := by
  by_contra hlen
  have hmem := contest_mem_conflictsOf (Nat.lt_of_not_le hlen)
  rw [hnone] at hmem
  cases hmem

/-- A state has no conflicts if it has one move on each lookahead at most. -/
theorem conflictsOf_eq_nil {states : Array State} {s : State} (hs : Expanded g m states s)
    (hlen : ∀ x, (cell s x).length ≤ 1) : Automaton.conflictsOf s = [] :=
  List.eq_nil_iff_forall_not_mem.2 fun c hc =>
    absurd ((mem_conflictsOf hs).1 hc).2 (Nat.not_lt.2 (hlen c.lookahead))

/-- An automaton without conflicts has a deterministic table. -/
theorem exists_generate (hnone : a.conflicts = []) :
    ∃ t, generate g a .deterministic = .ok t := by
  refine ⟨⟨g.symbols, g.rules, a.states.map (rowOf g), .deterministic⟩, ?_⟩
  simp [generate, hnone]

/-- A deterministic table has one move in a cell at most. -/
theorem length_moves_le_one (ht : generate g a mode = .ok t) (hnone : a.conflicts = [])
    (s : StateId) (x : SymbolId) : (t.control.moves s x).length ≤ 1 := by
  rw [moves_eq ht]
  cases hs : a.state? s with
  | none => simp
  | some st =>
    have hmem : st ∈ a.states.toList := Array.mem_toList_iff.2 (Array.mem_of_getElem? hs)
    have hst := List.flatMap_eq_nil_iff.1 hnone _ hmem
    simp only [Option.map_some, Option.getD_some]
    split
    · exact length_cell_le_one hst x
    · simp

end Table

/-- What a table offers that was generated from a defined grammar. -/
theorem Grammar.Defined.projected {g : Grammar} (hg : g.Defined) {m : Method} {a : Automaton}
    (ha : Automaton.build g m = .ok a) {mode : Mode} {t : Table}
    (ht : Table.generate g a mode = .ok t) : t.control.Projected g m a :=
  Table.generate_projected hg.lawful (hg.lawful.complete_of_build ha) ht

end BottomUp
