/-
# What the states of a complete automaton are

A complete automaton has a state for every kernel that is reached, and each of its states
is the union of the reached kernels that make it: this determines the
automaton up to the numbers of its states. By the canonical method a state is one
reached kernel; by the merging method it is all those of one core.

Key theorems: `Expanded.transition_isSome`, `Automaton.Complete.exists_state`,
`Automaton.Complete.encard_stateKeys`, `Grammar.Overflows.canonical`,
`Automaton.Complete.mem_kernel`, `Automaton.Complete.mem_items`.
-/
import BottomUp.Proofs.Construction

namespace BottomUp

namespace Grammar

variable {g : Grammar} {items : ItemSet}

theorem mem_reductions {x : SymbolId} {r : RuleId} :
    r ∈ ((g.reductions items).lookup x).getD [] ↔
      ∃ i ∈ items, i.complete g = true ∧ i.lookahead = x ∧ i.rule = r := by
  unfold reductions
  dsimp only
  rw [lookup_map_key]
  have hmem : r ∈ ((items.toList.filter (·.complete g)).filter (·.lookahead = x)).map (·.rule) ↔
      ∃ i ∈ items, i.complete g = true ∧ i.lookahead = x ∧ i.rule = r := by
    simp [OrdSet.mem_toList, and_assoc, and_left_comm]
  split
  · exact hmem
  · next hx =>
    refine ⟨fun h => absurd h List.not_mem_nil, fun ⟨i, hi, hc, hix, _⟩ => absurd ?_ hx⟩
    exact List.mem_eraseDups.2 (List.mem_map.2 ⟨i, List.mem_filter.2 ⟨hi, hc⟩, hix⟩)

theorem mem_reductions_keys {x : SymbolId} : x ∈ (g.reductions items).map (·.1) ↔
    ∃ i ∈ items, i.complete g = true ∧ i.lookahead = x := by
  unfold reductions
  simp [OrdSet.mem_toList, and_assoc]

/-- The rules for one lookahead are in the order of their numbers, each once. -/
theorem reductions_ascending (x : SymbolId) :
    (((g.reductions items).lookup x).getD []).Pairwise (· < ·) := by
  unfold reductions
  dsimp only
  rw [lookup_map_key]
  split
  · rw [Option.getD_some, List.pairwise_map]
    refine ((items.ascending.filter _).filter _).imp_of_mem fun {i j} hi hj hlt => ?_
    simp only [List.mem_filter, decide_eq_true_eq] at hi hj
    have hrules : compare i.rule j.rule = .lt := by
      by_contra hrule
      have hcompare : compare i j = (compare i.rule j.rule).then
        ((compare i.marker j.marker).then (compare i.lookahead j.lookahead)) := rfl
      rw [hcompare] at hlt
      -- the items are complete, so a common rule would make them equal
      cases heq : compare i.rule j.rule with
      | lt => exact hrule heq
      | gt => simp [heq] at hlt
      | eq =>
        have hr : i.rule = j.rule := Std.LawfulEqOrd.eq_of_compare heq
        obtain ⟨r, hri, hmi⟩ := (Option.any_eq_true _ _).1 hi.1.2
        obtain ⟨r', hrj, hmj⟩ := (Option.any_eq_true _ _).1 hj.1.2
        rw [hr, hrj] at hri
        cases hri
        have hm : i.marker = j.marker := (of_decide_eq_true hmi).trans (of_decide_eq_true hmj).symm
        have hl : i.lookahead = j.lookahead := hi.2.trans hj.2.symm
        simp [hr, hm, hl] at hlt
    exact Nat.compare_eq_lt.1 hrules
  · exact .nil

theorem nodup_reductions : ((g.reductions items).map (·.1)).Nodup := by
  unfold reductions
  rw [List.map_map]
  exact (List.map_id _).symm ▸ nodup_eraseDups _

theorem Lawful.close_subset (h : g.Lawful) {s t : ItemSet} (hst : s ⊆ t) :
    g.close g.firstSets s ⊆ g.close g.firstSets t :=
  fun _ hi => h.mem_close.2 ((h.mem_close.1 hi).mono hst)

theorem Lawful.successor_subset (h : g.Lawful) {s t : ItemSet} (hst : s ⊆ t) (x : SymbolId) :
    g.successor s x ⊆ g.successor t x := by
  intro j hj
  obtain ⟨i, hi, hx, rfl⟩ := mem_successor.1 hj
  exact mem_successor.2 ⟨i, h.close_subset hst i hi, hx, rfl⟩

end Grammar

/-! ### One state -/

namespace Expanded

variable {g : Grammar} {m : Method} {states : Array State} {s : State} {x : SymbolId}
  (hs : Expanded g m states s)
include hs

theorem nodup_symbols : (s.transitions.map (·.1)).Nodup := by
  rw [hs.symbols]
  exact Grammar.nodup_successors _

theorem transition_eq_some {t : StateId} : s.transition x = some t ↔ (x, t) ∈ s.transitions :=
  lookup_eq_some_iff_mem hs.nodup_symbols

/-- A state leads on by the symbols behind the markers of its items. -/
theorem mem_symbols : x ∈ s.transitions.map (·.1) ↔ ∃ i ∈ s.items, i.next g = some x := by
  rw [hs.symbols]
  constructor
  · intro hx
    obtain ⟨⟨y, kernel⟩, hmem, rfl⟩ := List.mem_map.1 hx
    exact (Grammar.mem_successors.1 hmem).1
  · intro hx
    exact List.mem_map.2 ⟨_, Grammar.mem_successors.2 ⟨hx, rfl⟩, rfl⟩

theorem transition_isSome : (s.transition x).isSome = true ↔ ∃ i ∈ s.items, i.next g = some x := by
  rw [← hs.mem_symbols, Option.isSome_iff_exists, List.mem_map]
  constructor
  · rintro ⟨t, ht⟩
    exact ⟨(x, t), hs.transition_eq_some.1 ht, rfl⟩
  · rintro ⟨⟨y, t⟩, ht, rfl⟩
    exact ⟨t, hs.transition_eq_some.2 ht⟩

theorem mem_reductionsOn {r : RuleId} : r ∈ s.reductionsOn x ↔
    ∃ i ∈ s.items, i.complete g = true ∧ i.lookahead = x ∧ i.rule = r := by
  unfold State.reductionsOn
  rw [hs.reductions]
  exact Grammar.mem_reductions

theorem reductionsOn_eq {reduces : List RuleId} (hmem : (x, reduces) ∈ s.reductions) :
    s.reductionsOn x = reduces := by
  rw [hs.reductions] at hmem
  unfold State.reductionsOn
  rw [hs.reductions, (lookup_eq_some_iff_mem Grammar.nodup_reductions).2 hmem, Option.getD_some]

theorem reductionsOn_ascending (x : SymbolId) : (s.reductionsOn x).Pairwise (· < ·) := by
  unfold State.reductionsOn
  rw [hs.reductions]
  exact Grammar.reductions_ascending x

theorem nodup_reductionsOn (x : SymbolId) : (s.reductionsOn x).Nodup :=
  (hs.reductionsOn_ascending x).imp fun hlt => Nat.ne_of_lt hlt

end Expanded

/-! ### All states -/

namespace Automaton.Complete

variable {g : Grammar} {m : Method} {a : Automaton} {id : StateId} {s : State} {i : Item}
  (h : g.Lawful) (ha : a.Complete g m)
include ha

theorem nodup_keys : (a.states.toList.map (m.key ·.kernel)).Nodup :=
  nodup_map_of_distinct ha.distinct

/-- A state stands at the place that is its number. -/
theorem state?_of_mem (hs : s ∈ a.states) : a.state? s.id = some s := by
  obtain ⟨id, hid⟩ := Array.mem_iff_getElem?.1 hs
  rwa [ha.numbered hid]

theorem expanded_of_mem (hs : s ∈ a.states) : Expanded g m a.states s :=
  ha.expanded (ha.state?_of_mem hs)

include h

/-- Every reached kernel is within that of a state. -/
theorem exists_state {kernel : ItemSet} (hk : g.Reached kernel) :
    ∃ id s, a.state? id = some s ∧ m.key s.kernel = m.key kernel ∧ kernel ⊆ s.kernel := by
  induction hk with
  | start =>
    obtain ⟨s, hs, hkey, hsub⟩ := ha.start
    exact ⟨0, s, hs, hkey, hsub⟩
  | @successor kernel x i hk hi hx ih =>
    obtain ⟨id, s, hs, hkey, hsub⟩ := ih
    have hexp := ha.expanded hs
    have hmem : x ∈ s.transitions.map (·.1) := by
      rw [hexp.mem_symbols, hexp.items]
      exact ⟨i, h.close_subset hsub i hi, hx⟩
    obtain ⟨⟨y, t⟩, ht, rfl⟩ := List.mem_map.1 hmem
    obtain ⟨s', hs', hkey', hsub'⟩ := hexp.leads ht
    refine ⟨t, s', hs', ?_, fun j hj => hsub' j (h.successor_subset hsub _ j hj)⟩
    rw [hkey']
    exact h.key_successor ((ha.gathered hs).fitting h) (hk.fitting h) hkey y

/-- There are as many states as reached kernels of different keys. -/
theorem encard_stateKeys : (g.stateKeys m).encard = a.states.size := by
  let keys := a.states.toList.map (m.key ·.kernel)
  have hkeys : g.stateKeys m = (keys.toFinset : Set ItemSet) := by
    ext key
    rw [Finset.mem_coe, List.mem_toFinset, List.mem_map]
    constructor
    · rintro ⟨kernel, hk, rfl⟩
      obtain ⟨id, s, hs, hkey, -⟩ := ha.exists_state h hk
      exact ⟨s, Array.mem_toList_iff.2 (Array.mem_of_getElem? hs), hkey⟩
    · rintro ⟨s, hs, rfl⟩
      exact (ha.gathered (ha.state?_of_mem (Array.mem_toList_iff.1 hs))).key_mem
  rw [hkeys, Set.encard_coe_eq_coe_finsetCard, List.toFinset_card_of_nodup ha.nodup_keys,
    List.length_map, Array.length_toList]

theorem not_crowded : ¬ g.Crowded m := by
  rw [Grammar.Crowded, ha.encard_stateKeys h, not_lt]
  exact_mod_cast ha.bounded

/-- The kernel of a state is the union of the reached kernels that make it. -/
theorem mem_kernel (hs : a.state? id = some s) :
    i ∈ s.kernel ↔ ∃ k, g.Reached k ∧ m.key k = m.key s.kernel ∧ i ∈ k := by
  constructor
  · exact (ha.gathered hs).mem i
  · rintro ⟨k, hk, hkey, hik⟩
    obtain ⟨id', s', hs', hkey', hsub⟩ := ha.exists_state h hk
    obtain rfl : id' = id := ha.distinct hs' hs (hkey'.trans hkey)
    obtain rfl : s' = s := Option.some.inj (hs'.symm.trans hs)
    exact hsub i hik

/-- The items of a state are the union of the closures of the reached kernels that make it. -/
theorem mem_items (hs : a.state? id = some s) : i ∈ s.items ↔
    ∃ k, g.Reached k ∧ m.key k = m.key s.kernel ∧ i ∈ g.close g.firstSets k := by
  rw [(ha.expanded hs).items]
  constructor
  · exact (ha.gathered hs).mem_close h
  · rintro ⟨k, hk, hkey, hik⟩
    have hsub : k ⊆ s.kernel := fun j hj => (ha.mem_kernel h hs).2 ⟨k, hk, hkey, hj⟩
    exact h.close_subset hsub i hik

end Automaton.Complete

/-! ### Grammars of too many states -/

namespace Grammar

variable {g : Grammar} {m : Method}

theorem encard_stateKeys_le (g : Grammar) (m : Method) :
    (g.stateKeys m).encard ≤ (g.stateKeys .canonical).encard := by
  refine le_trans (Set.encard_le_encard ?_) (Set.encard_image_le m.key (g.stateKeys .canonical))
  rintro key ⟨kernel, hk, rfl⟩
  exact ⟨kernel, ⟨kernel, hk, rfl⟩, rfl⟩

theorem Lawful.overflows_of_crowded (h : g.Lawful) (hcrowded : g.Crowded m) : g.Overflows m := by
  rcases h.exists_build m with ⟨a, -, ha⟩ | hstop
  · exact absurd hcrowded (ha.not_crowded h)
  · exact hstop

/-- A grammar that has too many states by the merging method has too many by the canonical one. -/
theorem Overflows.canonical (h : g.Lawful) (hstop : g.Overflows m) : g.Overflows .canonical :=
  h.overflows_of_crowded (hstop.crowded.trans_le (g.encard_stateKeys_le m))

/-- If there are not too many canonical states, there is an automaton by either method. -/
theorem Lawful.exists_build_both (h : g.Lawful) :
    (∃ a b, Automaton.build g .canonical = .ok a ∧ Automaton.build g .lalr = .ok b ∧
      a.Complete g .canonical ∧ b.Complete g .lalr) ∨ g.Overflows .canonical := by
  rcases h.exists_build .canonical with ⟨a, hbuild, ha⟩ | hstop
  · rcases h.exists_build .lalr with ⟨b, hbuild', hb⟩ | hstop
    · exact .inl ⟨a, b, hbuild, hbuild', ha, hb⟩
    · exact .inr (hstop.canonical h)
  · exact .inr hstop

end Grammar

/-! ### The canonical automaton -/

namespace Automaton.Complete

variable {g : Grammar} {a : Automaton} (ha : a.Complete g .canonical)
include ha

/-- By the canonical method the kernels of the states are the reached ones. -/
theorem reached_kernel {id : StateId} {s : State} (hs : a.state? id = some s) :
    g.Reached s.kernel := by
  obtain ⟨k, hk, hkey⟩ := (ha.gathered hs).reached
  have heq : k = s.kernel := hkey
  rwa [← heq]

theorem exists_state_eq (h : g.Lawful) {kernel : ItemSet} (hk : g.Reached kernel) :
    ∃ id s, a.state? id = some s ∧ s.kernel = kernel := by
  obtain ⟨id, s, hs, hkey, -⟩ := ha.exists_state h hk
  exact ⟨id, s, hs, hkey⟩

end Automaton.Complete

end BottomUp
