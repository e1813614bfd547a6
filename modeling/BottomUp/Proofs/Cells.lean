/-
# A table says what its automaton says

The cells of a table are projected from the states one by one, and conflicts are found
on the states without looking at the cells. Both say the same. A cell holds the
shift along the edge of its terminal, then the complete items in the order of their rules,
each once. Acceptance stands in one cell only, that of the end of the input in
the state after the start symbol, and nothing is shifted there. A conflict is a cell
with several moves and lists what the cell holds, so a deterministic table is refused
if and only if a cell of the generalized one has several moves.

Key definitions: `Table.Renders`, `Table.Reports`.
Key theorems: `Table.renders`, `Table.reports`, `Table.isDeterministic_iff`,
`Grammar.Defined.table_exact`.
-/
import BottomUp.Proofs.Agreement
import BottomUp.Proofs.Conflicts
import BottomUp.Proofs.Consistency

namespace BottomUp

namespace Automaton

variable {g : Grammar} {m : Method} {a : Automaton} {s t : StateId} {x : SymbolId}
  (h : g.Lawful) (ha : a.Complete g m)

include ha in
/-- By a symbol that is no terminal an edge bears a nonterminal. -/
theorem Edge.nonterminal_iff (h : g.Lawful) (he : a.Edge s x t) : g.isTerminal x = false ↔
    ∃ sym, g.symbol? x = some sym ∧ sym.kind = .nonterminal := by
  obtain ⟨i, -, hnext⟩ := he.exists_next ha
  obtain ⟨r, hr, hmem⟩ := Grammar.mem_right_of_rule (List.mem_of_getElem? hnext)
  obtain ⟨e, -, hparsed, rfl, hdecl⟩ := h.mem_right hr hmem
  have hfound : g.symbol? e.symbol.id = some e.symbol := hdecl.found
  have hvirtual : e.symbol.kind ≠ .virtual := of_decide_eq_true hparsed
  rw [← Bool.not_eq_true, hdecl.isTerminal_iff]
  constructor
  · intro hterminal
    refine ⟨e.symbol, hfound, ?_⟩
    cases hkind : e.symbol.kind with
    | terminal => exact absurd hkind hterminal
    | nonterminal => rfl
    | virtual => exact absurd hkind hvirtual
  · rintro ⟨sym, hsym, hkind⟩
    obtain rfl := Option.some.inj (hfound.symm.trans hsym)
    simp [hkind]

include h ha in
/-- The complete item of the goal is in the state after the start symbol, and there only, with
the end of the input to follow. -/
theorem has_goal_iff : a.Has s ⟨.goal, 1, x⟩ ↔ x = .endOfInput ∧ a.Edge 0 g.start s := by
  constructor
  · intro hi
    obtain rfl := hi.lookahead_goal h ha
    have hs : s ≠ 0 := by
      rintro rfl
      exact Has.marker_ne_succ h ha hi
    obtain ⟨st, hst, -⟩ := id hi
    obtain ⟨y, ⟨source, he⟩, -⟩ := ha.existsUnique_entered h hst hs
    obtain ⟨rfl, rfl⟩ := he.of_goal h ha hi
    exact ⟨rfl, he⟩
  · rintro ⟨rfl, he⟩
    have hnext : Item.start.next g = some g.start := by
      rw [Item.next, Item.start, right_goal h]
      rfl
    obtain ⟨t, he', hi⟩ := (has_start h ha).advance h ha hnext
    obtain rfl := he.unique he'
    exact hi

/-- Each conflict is listed once: a state has one on a lookahead at most. -/
theorem Complete.nodup_conflicts (ha : a.Complete g m) : a.conflicts.Nodup := by
  refine List.nodup_flatMap.2 ⟨fun s hs => ?_, ha.nodup_keys.of_map.imp_of_mem ?_⟩
  · -- a conflict tells the lookahead and the rules that it was made of
    have hexp := ha.expanded_of_mem (Array.mem_toList_iff.1 hs)
    have hreductions : s.reductions.Nodup := hexp.reductions ▸ Grammar.nodup_reductions.of_map
    refine hreductions.filterMap ?_
    rintro ⟨x, reduces⟩ ⟨x', reduces'⟩ c hc hc'
    dsimp only at hc hc'
    split at hc <;> split at hc' <;> cases hc <;> cases hc'
    rfl
  · -- a conflict tells its state
    rintro s s' hs hs' hne c hc hc'
    have hs := Array.mem_toList_iff.1 hs
    have hs' := Array.mem_toList_iff.1 hs'
    obtain ⟨heq, -⟩ := (Table.mem_conflictsOf (ha.expanded_of_mem hs)).1 hc
    obtain ⟨heq', -⟩ := (Table.mem_conflictsOf (ha.expanded_of_mem hs')).1 hc'
    have hid : s.id = s'.id := congrArg Conflict.state (heq.symm.trans heq')
    have hfound := ha.state?_of_mem hs
    rw [hid, ha.state?_of_mem hs'] at hfound
    exact hne (Option.some.inj hfound).symm

end Automaton

namespace Table

variable {g : Grammar} {m : Method} {a : Automaton} {mode : Mode} {t : Table}
  (h : g.Lawful) (ha : a.Complete g m)

theorem reduceMove_injective : Function.Injective reduceMove := by
  intro r r' heq
  by_cases hr : r = .goal
  · rw [hr, reduceMove_eq_accept.2 rfl] at heq
    rw [hr, reduceMove_eq_accept.1 heq.symm]
  · rw [reduceMove_eq_reduce.2 ⟨rfl, hr⟩] at heq
    exact (reduceMove_eq_reduce.1 heq.symm).1.symm

include h ha in
/-- Rules are reduced on terminals. -/
theorem isTerminal_of_mem_reductionsOn {id : StateId} {s : State} (hs : a.state? id = some s)
    {r : RuleId} {x : SymbolId} (hr : r ∈ s.reductionsOn x) : g.isTerminal x = true := by
  obtain ⟨rule, -, hi⟩ := (mem_reductionsOn ha hs).1 hr
  have hi : a.Has id ⟨r, rule.arity, x⟩ := ⟨s, hs, hi⟩
  exact (hi.fitting h ha).isTerminal

/-- No move stands in a cell twice. -/
theorem nodup_cell {states : Array State} {s : State} (hs : Expanded g m states s) (x : SymbolId) :
    (cell s x).Nodup := by
  have hshift : ((s.transition x).toList.map Move.shift).Nodup := by
    cases s.transition x <;> simp
  have hreduce : ((s.reductionsOn x).map reduceMove).Nodup :=
    (hs.nodup_reductionsOn x).map reduceMove_injective
  refine List.nodup_append.2 ⟨hshift, hreduce, fun move hmove move' hmove' heq => ?_⟩
  obtain ⟨next, -, rfl⟩ := List.mem_map.1 hmove
  obtain ⟨r, -, rfl⟩ := List.mem_map.1 hmove'
  exact reduceMove_ne_shift r next heq.symm

include h ha in
/-- The moves of a state on a terminal are all that its cell holds. -/
theorem moves_eq_cell (ht : generate g a mode = .ok t) {id : StateId} {s : State}
    (hs : a.state? id = some s) {x : SymbolId} (hx : g.isTerminal x = true) :
    t.control.moves id x = cell s x := by
  rw [moves_eq ht, hs, Option.map_some, Option.getD_some]
  split
  · rfl
  · next hout =>
    -- a terminal that is no lookahead of the state has an empty cell
    refine (List.eq_nil_iff_forall_not_mem.2 fun move hmove => hout ?_).symm
    rcases mem_cell.1 hmove with ⟨next, htrans, -⟩ | ⟨r, hr, -⟩
    · exact (mem_lookaheads_of_transition h ha hs htrans).2 hx
    · exact mem_lookaheads_of_reduction ha hs hr

/-- A lookahead on which a cell has several moves has a place in the row of its state. -/
theorem one_lt_length_moves_iff (ha : a.Complete g m) (ht : generate g a mode = .ok t)
    {id : StateId} {x : SymbolId} : 1 < (t.control.moves id x).length ↔
      ∃ s, a.state? id = some s ∧ 1 < (cell s x).length := by
  rw [moves_eq ht]
  cases hs : a.state? id with
  | none => simp
  | some s =>
    simp only [Option.map_some, Option.getD_some, Option.some.injEq, exists_eq_left']
    constructor
    · intro hlen
      split at hlen
      · exact hlen
      · simp at hlen
    · intro hlen
      obtain ⟨r, hr⟩ := List.exists_mem_of_ne_nil _ (reductionsOn_ne_nil hlen)
      rwa [if_pos (mem_lookaheads_of_reduction ha hs hr)]

/-! ### Cells -/

/-- A table with the moves that the items and the edges of an automaton say, and no others. -/
structure Renders (t : Table) (g : Grammar) (a : Automaton) : Prop where
  size_eq : t.rows.size = a.states.size
  /-- A row has one cell for each lookahead and one state after each nonterminal. -/
  nodup_keys : ∀ row ∈ t.rows, (row.moves.map (·.1)).Nodup ∧ (row.gotos.map (·.1)).Nodup
  /-- On a terminal there is the shift, then the complete items in the order of their rules. -/
  cell : ∀ {id : StateId} {s : State} {x : SymbolId}, a.state? id = some s →
    g.isTerminal x = true → ∃ rules : List RuleId,
      t.control.moves id x = (s.transition x).toList.map .shift ++ rules.map reduceMove ∧
      rules.Pairwise (· < ·) ∧
      ∀ r, r ∈ rules ↔ ∃ i ∈ s.items, i.complete g = true ∧ i.lookahead = x ∧ i.rule = r
  nodup : ∀ id x, (t.control.moves id x).Nodup
  terminal : ∀ {id : StateId} {x : SymbolId} {move : Move}, move ∈ t.control.moves id x →
    g.isTerminal x = true
  goto?_eq_some : ∀ {id next : StateId} {x : SymbolId}, t.control.goto? id x = some next ↔
    (∃ s, g.symbol? x = some s ∧ s.kind = .nonterminal) ∧ a.Edge id x next
  /-- The input is accepted where it ends, in the state after the start symbol. -/
  accept : ∀ {id : StateId} {x : SymbolId}, Move.accept ∈ t.control.moves id x ↔
    x = .endOfInput ∧ a.Edge 0 g.start id
  /-- The end of the input is not shifted. -/
  shift : ∀ {id next : StateId}, Move.shift next ∉ t.control.moves id .endOfInput

include h ha in
theorem renders (ht : generate g a mode = .ok t) : t.Renders g a where
  size_eq := by
    obtain ⟨rfl, -⟩ := generate_eq_ok ht
    exact Array.size_map
  nodup_keys row hrow := by
    obtain ⟨rfl, -⟩ := generate_eq_ok ht
    obtain ⟨s, hs, rfl⟩ := Array.mem_map.1 hrow
    refine ⟨?_, nodup_gotos (ha.expanded_of_mem hs)⟩
    rw [moves_rowOf_eq, List.map_map]
    exact (List.map_id _).symm ▸ nodup_eraseDups _
  cell {id s x} hs hx :=
    ⟨s.reductionsOn x, moves_eq_cell h ha ht hs hx, (ha.expanded hs).reductionsOn_ascending x,
      fun r => (ha.expanded hs).mem_reductionsOn⟩
  nodup id x := by
    rw [moves_eq ht]
    cases hs : a.state? id with
    | none => exact .nil
    | some s =>
      rw [Option.map_some, Option.getD_some]
      split
      · exact nodup_cell (ha.expanded hs) x
      · exact .nil
  terminal {id x move} hmove := by
    obtain ⟨s, hs, hx, hcell⟩ := (mem_moves ht).1 hmove
    rcases mem_cell.1 hcell with ⟨next, htrans, -⟩ | ⟨r, hr, -⟩
    · exact (mem_lookaheads_of_transition h ha hs htrans).1 hx
    · exact isTerminal_of_mem_reductionsOn h ha hs hr
  goto?_eq_some {id next x} := by
    rw [goto_eq_some ha ht]
    exact and_congr_left fun he => he.nonterminal_iff ha h
  accept {id x} := (generate_projected h ha ht).mem_accept.trans (Automaton.has_goal_iff h ha)
  shift {id next} hmove :=
    ((generate_projected h ha ht).mem_shift.1 hmove).2.ne_endOfInput h ha rfl

/-! ### Cells with several moves -/

/-- A list of conflicts with one for each cell that has several moves, and with its moves. -/
structure Reports (t : Table) (conflicts : List Conflict) : Prop where
  distinct : (conflicts.map fun c => (c.state, c.lookahead)).Nodup
  exists_iff : ∀ id x, (∃ c ∈ conflicts, c.state = id ∧ c.lookahead = x) ↔
    1 < (t.control.moves id x).length
  moves_eq : ∀ c ∈ conflicts, t.control.moves c.state c.lookahead =
    c.shift.toList.map .shift ++ c.reduces.map reduceMove

theorem reports (h : g.Lawful) (ha : a.Complete g m) (ht : generate g a mode = .ok t) :
    t.Reports a.conflicts where
  distinct := by
    refine ha.nodup_conflicts.map_on fun c hc c' hc' heq => ?_
    obtain ⟨s, hs, hcell, -⟩ := ha.mem_conflicts.1 hc
    obtain ⟨s', hs', hcell', -⟩ := ha.mem_conflicts.1 hc'
    obtain ⟨hstate, hlookahead⟩ := Prod.mk.inj heq
    rw [hstate] at hs
    obtain rfl := Option.some.inj (hs.symm.trans hs')
    rw [hcell, hcell', hlookahead]
  exists_iff id x := by
    rw [one_lt_length_moves_iff ha ht]
    constructor
    · rintro ⟨c, hc, rfl, rfl⟩
      obtain ⟨s, hs, -, hlen⟩ := ha.mem_conflicts.1 hc
      exact ⟨s, hs, hlen⟩
    · rintro ⟨s, hs, hlen⟩
      have hfound := ha.state?_of_mem (Array.mem_of_getElem? hs)
      exact ⟨contest s x, ha.mem_conflicts.2 ⟨s, hfound, rfl, hlen⟩, ha.numbered hs, rfl⟩
  moves_eq c hc := by
    obtain ⟨s, hs, heq, hlen⟩ := ha.mem_conflicts.1 hc
    obtain ⟨r, hr⟩ := List.exists_mem_of_ne_nil _ (reductionsOn_ne_nil hlen)
    rw [moves_eq_cell h ha ht hs (isTerminal_of_mem_reductionsOn h ha hs hr)]
    exact heq ▸ rfl

/-- A table is deterministic if and only if it offers one move at most, wherever it is asked. -/
theorem isDeterministic_iff (hkeys : ∀ row ∈ t.rows, (row.moves.map (·.1)).Nodup) :
    t.isDeterministic = true ↔ ∀ id x, (t.control.moves id x).length ≤ 1 := by
  refine ⟨length_moves_of_isDeterministic, fun hone => ?_⟩
  refine Array.all_eq_true_iff_forall_mem.2 fun row hrow => List.all_eq_true.2 ?_
  rintro ⟨x, cell⟩ hcell
  obtain ⟨id, hid⟩ := Array.mem_iff_getElem?.1 hrow
  have hlookup := (lookup_eq_some_iff_mem (hkeys row hrow)).2 hcell
  simpa [control, hid, hlookup] using hone id x

/-- A deterministic table is refused if and only if there are conflicts, which are given. -/
theorem generate_deterministic_eq_error {conflicts : List Conflict} :
    generate g a .deterministic = .error conflicts ↔ conflicts = a.conflicts ∧ conflicts ≠ [] := by
  unfold generate
  dsimp only
  split
  · next hcond =>
    rw [Except.error.injEq]
    exact ⟨fun heq => ⟨heq.symm, heq ▸ hcond.2⟩, fun heq => heq.1.symm⟩
  · next hcond =>
    exact ⟨fun hc => (nomatch hc), fun ⟨heq, hne⟩ => absurd ⟨rfl, heq ▸ hne⟩ hcond⟩

end Table

/-- The table of a defined grammar, by either method, says what the automaton says. A
deterministic one is refused if and only if some cell of the generalized one has several moves,
which is when the latter is not deterministic; then each such cell is reported as one conflict,
and otherwise both have the same rows. There is a table, unless there are more states than numbers
for them. -/
theorem Grammar.Defined.table_exact {g : Grammar} (hg : g.Defined) (m : Method) :
    (∃ a t, Automaton.build g m = .ok a ∧ Table.generate g a .generalized = .ok t ∧
      t.Renders g a ∧
      ((∃ conflicts, Table.generate g a .deterministic = .error conflicts) ↔
        ∃ id x, 1 < (t.control.moves id x).length) ∧
      ((∃ id x, 1 < (t.control.moves id x).length) ↔ t.isDeterministic = false) ∧
      (∀ conflicts, Table.generate g a .deterministic = .error conflicts → t.Reports conflicts) ∧
      ∀ u, Table.generate g a .deterministic = .ok u → u.rows = t.rows) ∨ g.Overflows m := by
  rcases hg.lawful.exists_build m with ⟨a, hbuild, ha⟩ | hstop
  case inr => exact .inr hstop
  obtain ⟨t, ht⟩ : ∃ t, Table.generate g a .generalized = .ok t := ⟨_, rfl⟩
  have hrenders := Table.renders hg.lawful ha ht
  have hreports := Table.reports hg.lawful ha ht
  refine .inl ⟨a, t, hbuild, ht, hrenders, ?_, ?_, fun conflicts herror => ?_, fun u hu => ?_⟩
  · constructor
    · rintro ⟨conflicts, herror⟩
      obtain ⟨rfl, hne⟩ := Table.generate_deterministic_eq_error.1 herror
      obtain ⟨c, hc⟩ := List.exists_mem_of_ne_nil _ hne
      exact ⟨c.state, c.lookahead, (hreports.exists_iff _ _).1 ⟨c, hc, rfl, rfl⟩⟩
    · rintro ⟨id, x, hlen⟩
      obtain ⟨c, hc, -⟩ := (hreports.exists_iff id x).2 hlen
      exact ⟨_, Table.generate_deterministic_eq_error.2 ⟨rfl, List.ne_nil_of_mem hc⟩⟩
  · have hkeys : ∀ row ∈ t.rows, (row.moves.map (·.1)).Nodup := fun row hrow =>
      (hrenders.nodup_keys row hrow).1
    rw [← Bool.not_eq_true, Table.isDeterministic_iff hkeys]
    simp only [not_forall, Nat.not_le]
  · obtain ⟨rfl, -⟩ := Table.generate_deterministic_eq_error.1 herror
    exact hreports
  · obtain ⟨rfl, -⟩ := Table.generate_eq_ok ht
    obtain ⟨rfl, -⟩ := Table.generate_eq_ok hu
    rfl

namespace Samples

/-- The table of the sums that do not say in which order they are added has a cell with two moves,
which is reported. -/
theorem ambiguousSum_table_exact : ∃ g a t conflicts, Grammar.define ambiguousSum = .ok g ∧
    Automaton.build g .lalr = .ok a ∧ Table.generate g a .generalized = .ok t ∧ t.Renders g a ∧
    t.isDeterministic = false ∧
    Table.generate g a .deterministic = .error conflicts ∧ t.Reports conflicts := by
  have hok : ((Grammar.define ambiguousSum).toOption.bind fun g =>
      (Automaton.build g .lalr).toOption.bind fun a =>
        (Table.generate g a .generalized).toOption.map (·.isDeterministic)) = some false := by
    decide +kernel
  obtain ⟨g, hg, hok⟩ := Option.bind_eq_some_iff.1 hok
  obtain ⟨a, ha, hok⟩ := Option.bind_eq_some_iff.1 hok
  obtain ⟨t, ht, hdet⟩ := Option.map_eq_some_iff.1 hok
  have hg := toOption_eq_some.1 hg
  rcases Grammar.Defined.table_exact ⟨ambiguousSum, ambiguousSum_built, hg⟩ .lalr with
    ⟨a', t', ha', ht', hrenders, hrefused, hseveral, hreports, -⟩ | hstop
  case inr => exact absurd (toOption_eq_some.1 ha) (hstop.build_ne_ok a)
  obtain rfl : a' = a := Except.ok.inj (ha'.symm.trans (toOption_eq_some.1 ha))
  obtain rfl : t' = t := Except.ok.inj (ht'.symm.trans (toOption_eq_some.1 ht))
  obtain ⟨conflicts, herror⟩ := hrefused.2 (hseveral.2 hdet)
  exact ⟨g, a', t', conflicts, hg, ha', ht', hrenders, hdet, herror, hreports conflicts herror⟩

end Samples

end BottomUp
