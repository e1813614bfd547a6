/-
# The merged automaton is a quotient of the canonical one

The merging method never makes the states that it merges: it enlarges the kernels of
states that are there and expands them again. What it ends with is
nevertheless what merging the states of the canonical automaton gives: one state for
each core, with the kernels, items and reductions of all the canonical states of
that core, and the same symbols lead to the same cores.

Key definition: `Automaton.QuotientOf`.
Key theorem: `Grammar.Defined.lalr_quotientOf_canonical`.
-/
import BottomUp.Proofs.Complete
import BottomUp.Samples

namespace BottomUp

/-- An automaton `b` that is `a` with the states of one core made one. -/
structure Automaton.QuotientOf (b a : Automaton) : Prop where
  /-- No two states have the same core. -/
  distinct : (b.states.toList.map (·.kernel.core)).Nodup
  /-- The cores are those of `a`. -/
  cores : ∀ core, core ∈ b.states.toList.map (·.kernel.core) ↔
    core ∈ a.states.toList.map (·.kernel.core)
  /-- There are no more states than `a` has. -/
  size_le : b.states.size ≤ a.states.size
  kernel : ∀ s ∈ b.states, ∀ i, i ∈ s.kernel ↔
    ∃ c ∈ a.states, c.kernel.core = s.kernel.core ∧ i ∈ c.kernel
  items : ∀ s ∈ b.states, ∀ i, i ∈ s.items ↔
    ∃ c ∈ a.states, c.kernel.core = s.kernel.core ∧ i ∈ c.items
  reductions : ∀ s ∈ b.states, ∀ x r, r ∈ s.reductionsOn x ↔
    ∃ c ∈ a.states, c.kernel.core = s.kernel.core ∧ r ∈ c.reductionsOn x
  /-- The rules to reduce are listed in the order of their numbers, each once. -/
  ascending : ∀ s ∈ b.states, ∀ x, (s.reductionsOn x).Pairwise (· < ·)
  /-- States of one core lead on by the same symbols. -/
  transitions : ∀ c ∈ a.states, ∀ s ∈ b.states, c.kernel.core = s.kernel.core →
    ∀ x, (c.transition x).isSome = (s.transition x).isSome
  /-- States of one core lead to states of one core. -/
  targets : ∀ c ∈ a.states, ∀ s ∈ b.states, c.kernel.core = s.kernel.core →
    ∀ x t u, c.transition x = some t → s.transition x = some u →
      ∃ c' s', a.state? t = some c' ∧ b.state? u = some s' ∧ c'.kernel.core = s'.kernel.core

namespace Automaton.Complete

variable {g : Grammar} (h : g.Lawful) {a b : Automaton} {m : Method}

/-- The kernels of an automaton's states, without lookaheads, are those of reached kernels. -/
theorem mem_cores (h : g.Lawful) (ha : a.Complete g m) {core : ItemSet} :
    core ∈ a.states.toList.map (·.kernel.core) ↔ ∃ k, g.Reached k ∧ k.core = core := by
  constructor
  · intro hcore
    obtain ⟨s, hs, rfl⟩ := List.mem_map.1 hcore
    obtain ⟨k, hk, hkey⟩ :=
      (ha.gathered (ha.state?_of_mem (Array.mem_toList_iff.1 hs))).reached
    exact ⟨k, hk, Method.core_eq_of_key_eq hkey⟩
  · rintro ⟨k, hk, rfl⟩
    obtain ⟨id, s, hs, hkey, -⟩ := ha.exists_state h hk
    refine List.mem_map.2 ⟨s, ?_, Method.core_eq_of_key_eq hkey⟩
    exact Array.mem_toList_iff.2 (Array.mem_of_getElem? hs)

theorem nodup_cores (hb : b.Complete g .lalr) : (b.states.toList.map (·.kernel.core)).Nodup :=
  hb.nodup_keys

include h

/-- What a merged state has that comes from single kernels, the canonical states of its core
have. -/
theorem exists_canonical (ha : a.Complete g .canonical) {s : State} {P : ItemSet → Prop} :
    (∃ k, g.Reached k ∧ Method.lalr.key k = Method.lalr.key s.kernel ∧ P k) ↔
      ∃ c ∈ a.states, c.kernel.core = s.kernel.core ∧ P c.kernel := by
  constructor
  · rintro ⟨k, hk, hkey, hp⟩
    obtain ⟨id, c, hc, rfl⟩ := ha.exists_state_eq h hk
    exact ⟨c, Array.mem_of_getElem? hc, hkey, hp⟩
  · rintro ⟨c, hc, hkey, hp⟩
    exact ⟨c.kernel, ha.reached_kernel (ha.state?_of_mem hc), hkey, hp⟩

/-- In states of one core the same symbols stand behind markers. -/
theorem exists_next_iff {m' : Method} (ha : a.Complete g m) (hb : b.Complete g m') {c s : State}
    (hc : c ∈ a.states) (hs : s ∈ b.states) (hcore : c.kernel.core = s.kernel.core)
    (x : SymbolId) : (∃ i ∈ c.items, i.next g = some x) ↔ ∃ i ∈ s.items, i.next g = some x := by
  have hfit := (ha.gathered (ha.state?_of_mem hc)).fitting h
  have hfit' := (hb.gathered (hb.state?_of_mem hs)).fitting h
  rw [(ha.expanded_of_mem hc).items, (hb.expanded_of_mem hs).items]
  constructor
  · rintro ⟨i, hi, hx⟩
    obtain ⟨j, hj, hij⟩ := h.close_alike hfit hfit' hcore hi
    exact ⟨j, hj, hij.next_eq ▸ hx⟩
  · rintro ⟨i, hi, hx⟩
    obtain ⟨j, hj, hij⟩ := h.close_alike hfit' hfit hcore.symm hi
    exact ⟨j, hj, hij.next_eq ▸ hx⟩

theorem quotientOf (ha : a.Complete g .canonical) (hb : b.Complete g .lalr) : b.QuotientOf a where
  distinct := hb.nodup_cores
  cores core := by rw [hb.mem_cores h, ha.mem_cores h]
  size_le := by
    have hsub : b.states.toList.map (·.kernel.core) ⊆ a.states.toList.map (·.kernel.core) :=
      fun core hcore => (ha.mem_cores h).2 ((hb.mem_cores h).1 hcore)
    simpa using (List.subperm_of_subset hb.nodup_cores hsub).length_le
  kernel s hs i := by
    rw [hb.mem_kernel h (hb.state?_of_mem hs)]
    exact exists_canonical h ha
  items s hs i := by
    rw [hb.mem_items h (hb.state?_of_mem hs), exists_canonical h ha]
    refine exists_congr fun c => and_congr_right fun hc => ?_
    rw [(ha.expanded_of_mem hc).items]
  reductions s hs x r := by
    have hid := hb.state?_of_mem hs
    rw [(hb.expanded hid).mem_reductionsOn]
    constructor
    · rintro ⟨i, hi, hr⟩
      obtain ⟨c, hc, hcore, hic⟩ := (exists_canonical h ha).1 ((hb.mem_items h hid).1 hi)
      have hexp := ha.expanded_of_mem hc
      exact ⟨c, hc, hcore, hexp.mem_reductionsOn.2 ⟨i, hexp.items ▸ hic, hr⟩⟩
    · rintro ⟨c, hc, hcore, hr⟩
      have hexp := ha.expanded_of_mem hc
      obtain ⟨i, hi, hr⟩ := hexp.mem_reductionsOn.1 hr
      refine ⟨i, (hb.mem_items h hid).2 ?_, hr⟩
      exact (exists_canonical h ha).2 ⟨c, hc, hcore, hexp.items ▸ hi⟩
  ascending s hs x := (hb.expanded_of_mem hs).reductionsOn_ascending x
  transitions c hc s hs hcore x := by
    rw [Bool.eq_iff_iff, (ha.expanded_of_mem hc).transition_isSome,
      (hb.expanded_of_mem hs).transition_isSome]
    exact ha.exists_next_iff h hb hc hs hcore x
  targets c hc s hs hcore x t u ht hu := by
    have hi := ha.state?_of_mem hc
    have hj := hb.state?_of_mem hs
    have hexp := ha.expanded hi
    have hexp' := hb.expanded hj
    obtain ⟨c', hc', hkey, -⟩ := hexp.leads (hexp.transition_eq_some.1 ht)
    obtain ⟨s', hs', hkey', -⟩ := hexp'.leads (hexp'.transition_eq_some.1 hu)
    refine ⟨c', s', hc', hs', ?_⟩
    calc c'.kernel.core = (g.successor c.kernel x).core := Method.core_eq_of_key_eq hkey
      _ = (g.successor s.kernel x).core :=
        h.successor_core ((ha.gathered hi).fitting h) ((hb.gathered hj).fitting h) hcore x
      _ = s'.kernel.core := (Method.core_eq_of_key_eq hkey').symm

end Automaton.Complete

/-- By either method a defined grammar has an automaton, and the merged one is the quotient
of the canonical one by the cores of its states, unless there are more canonical states than
numbers for them. -/
theorem Grammar.Defined.lalr_quotientOf_canonical {g : Grammar} (hg : g.Defined) :
    (∃ a b, Automaton.build g .canonical = .ok a ∧ Automaton.build g .lalr = .ok b ∧
      b.QuotientOf a) ∨ g.Overflows .canonical := by
  rcases hg.lawful.exists_build_both with ⟨a, b, hbuild, hbuild', ha, hb⟩ | hstop
  · exact .inl ⟨a, b, hbuild, hbuild', ha.quotientOf hg.lawful hb⟩
  · exact .inr hstop

theorem Samples.notLalr_built : Define.Built Samples.notLalr := by
  unfold Samples.notLalr
  repeat' first | intro _ | constructor

/-- The sample whose canonical states are really merged. -/
theorem Samples.notLalr_lalr_quotientOf_canonical : ∃ g a b, Grammar.define notLalr = .ok g ∧
    Automaton.build g .canonical = .ok a ∧ Automaton.build g .lalr = .ok b ∧ b.QuotientOf a := by
  have hok : ((Grammar.define notLalr).toOption.bind fun g =>
      (Automaton.build g .canonical).toOption).isSome = true := by decide +kernel
  obtain ⟨a, hok⟩ := Option.isSome_iff_exists.1 hok
  obtain ⟨g, hg, ha⟩ := Option.bind_eq_some_iff.1 hok
  have hg := toOption_eq_some.1 hg
  rcases Grammar.Defined.lalr_quotientOf_canonical ⟨notLalr, notLalr_built, hg⟩ with
    ⟨a, b, hab⟩ | hstop
  · exact ⟨g, a, b, hg, hab⟩
  · exact absurd (toOption_eq_some.1 ha) (hstop.build_ne_ok a)

end BottomUp
