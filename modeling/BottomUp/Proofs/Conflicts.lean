/-
# Merging makes no conflict with a shift

The conflicts of an automaton are the cells in which a state has several moves. A merged
state leads on by the same symbols as each canonical state of its core, and each of its
reductions comes from one of them. So where it shifts on a lookahead and reduces a rule,
the canonical state that the rule comes from does both as well: a conflict between a
shift and a reduction was there before the states were merged, and if there
was none, merging makes conflicts between reductions only.

Key theorems: `Automaton.Complete.mem_conflicts`, `Automaton.QuotientOf.exists_shiftReduce`,
`Grammar.Defined.merging_conflicts`.
-/
import BottomUp.Proofs.Simulation

namespace BottomUp

theorem Conflict.kind_eq_shiftReduce {c : Conflict} :
    c.kind = .shiftReduce ↔ ∃ next, c.shift = some next := by
  unfold kind
  cases c.shift <;> simp

namespace Automaton

variable {g : Grammar} {m : Method} {a b : Automaton} {c : Conflict}

/-- The conflicts of an automaton are the cells with several moves, with all the moves. -/
theorem Complete.mem_conflicts (ha : a.Complete g m) : c ∈ a.conflicts ↔
    ∃ s, a.state? c.state = some s ∧ c = Table.contest s c.lookahead ∧
      1 < (Table.cell s c.lookahead).length := by
  constructor
  · intro hc
    obtain ⟨s, hs, hc⟩ := List.mem_flatMap.1 hc
    have hs := Array.mem_toList_iff.1 hs
    obtain ⟨heq, hlen⟩ := (Table.mem_conflictsOf (ha.expanded_of_mem hs)).1 hc
    have hstate : c.state = s.id := by rw [heq, Table.contest]
    exact ⟨s, hstate ▸ ha.state?_of_mem hs, heq, hlen⟩
  · rintro ⟨s, hs, heq, hlen⟩
    refine List.mem_flatMap.2 ⟨s, Array.mem_toList_iff.2 (Array.mem_of_getElem? hs), ?_⟩
    exact heq ▸ Table.contest_mem_conflictsOf hlen

/-- A state that shifts on a lookahead and reduces a rule on it has a conflict there. -/
theorem Complete.conflict_of_shift (ha : a.Complete g m) {s : State} (hs : s ∈ a.states)
    {x : SymbolId} (hshift : (s.transition x).isSome = true) {r : RuleId}
    (hr : r ∈ s.reductionsOn x) :
    Table.contest s x ∈ a.conflicts ∧ (Table.contest s x).kind = .shiftReduce := by
  obtain ⟨next, hnext⟩ := Option.isSome_iff_exists.1 hshift
  have hlen : 1 < (Table.cell s x).length := by
    have hpos := List.length_pos_of_mem hr
    rw [Table.length_cell, hnext, Option.toList_some, List.length_singleton]
    omega
  exact ⟨ha.mem_conflicts.2 ⟨s, ha.state?_of_mem hs, rfl, hlen⟩,
    Conflict.kind_eq_shiftReduce.2 ⟨next, hnext⟩⟩

/-- A conflict of a merged state between a shift and a reduction is one of a canonical state of the
same core, on the same lookahead. -/
theorem QuotientOf.exists_shiftReduce (hq : b.QuotientOf a) (ha : a.Complete g .canonical)
    (hb : b.Complete g .lalr) (hc : c ∈ b.conflicts) (hkind : c.kind = .shiftReduce) :
    ∃ c' ∈ a.conflicts, c'.kind = .shiftReduce ∧ c'.lookahead = c.lookahead ∧
      a.Over b c'.state c.state := by
  obtain ⟨s, hs, heq, hlen⟩ := hb.mem_conflicts.1 hc
  have hmem : s ∈ b.states := Array.mem_of_getElem? hs
  obtain ⟨next, hnext⟩ := Conflict.kind_eq_shiftReduce.1 hkind
  rw [heq] at hnext
  -- the canonical state is one that a competing rule comes from
  obtain ⟨r, hr⟩ := List.exists_mem_of_ne_nil _ (Table.reductionsOn_ne_nil hlen)
  obtain ⟨s', hs', hcore, hr'⟩ := (hq.reductions s hmem c.lookahead r).1 hr
  have hshift : (s'.transition c.lookahead).isSome = true := by
    rw [hq.transitions s' hs' s hmem hcore]
    exact Option.isSome_iff_exists.2 ⟨next, hnext⟩
  obtain ⟨hmem', hkind'⟩ := ha.conflict_of_shift hs' hshift hr'
  exact ⟨_, hmem', hkind', rfl, s', s, ha.state?_of_mem hs', hs, hcore⟩

end Automaton

/-- Where the merged automaton has a conflict between a shift and a reduction, the canonical one
has one on the same lookahead in a state of the same core. So if the canonical automaton
has no conflicts, those of the merged one are between reductions. Both automata are there, unless
there are more canonical states than numbers for them. -/
theorem Grammar.Defined.merging_conflicts {g : Grammar} (hg : g.Defined) :
    (∃ a b, Automaton.build g .canonical = .ok a ∧ Automaton.build g .lalr = .ok b ∧
      (∀ c ∈ b.conflicts, c.kind = .shiftReduce →
        ∃ c' ∈ a.conflicts, c'.kind = .shiftReduce ∧ c'.lookahead = c.lookahead ∧
          a.Over b c'.state c.state) ∧
      (a.conflicts = [] → ∀ c ∈ b.conflicts, c.kind = .reduceReduce)) ∨
    g.Overflows .canonical := by
  rcases hg.lawful.exists_build_both with ⟨a, b, hbuild, hbuild', ha, hb⟩ | hstop
  case inr => exact .inr hstop
  have hq := ha.quotientOf hg.lawful hb
  refine .inl ⟨a, b, hbuild, hbuild', fun c hc hkind => hq.exists_shiftReduce ha hb hc hkind,
    fun hnone c hc => ?_⟩
  cases hkind : c.kind with
  | reduceReduce => rfl
  | shiftReduce =>
    obtain ⟨c', hc', -⟩ := hq.exists_shiftReduce ha hb hc hkind
    rw [hnone] at hc'
    cases hc'

namespace Samples

theorem ambiguousSum_built : Define.Built ambiguousSum := by
  unfold ambiguousSum
  repeat' first | intro _ | constructor

/-- The conflict of the sums that do not say in which order they are added is a canonical one, and
those of the grammar that is not LALR(1) come from merging and are between reductions. -/
theorem ambiguousSum_merging_conflicts :
    (∃ g a b, Grammar.define ambiguousSum = .ok g ∧ Automaton.build g .canonical = .ok a ∧
      Automaton.build g .lalr = .ok b ∧ ∃ c ∈ b.conflicts, c.kind = .shiftReduce ∧
        ∃ c' ∈ a.conflicts, c'.kind = .shiftReduce ∧ c'.lookahead = c.lookahead ∧
          a.Over b c'.state c.state) ∧
    ∃ g a b, Grammar.define notLalr = .ok g ∧ Automaton.build g .canonical = .ok a ∧
      Automaton.build g .lalr = .ok b ∧ a.conflicts = [] ∧ b.conflicts ≠ [] ∧
        ∀ c ∈ b.conflicts, c.kind = .reduceReduce := by
  constructor
  · have hok : ((Grammar.define ambiguousSum).toOption.bind fun g =>
        (Automaton.build g .canonical).toOption.bind fun _ =>
          (Automaton.build g .lalr).toOption.map fun b =>
            b.conflicts.any (·.kind = .shiftReduce)) = some true := by decide +kernel
    obtain ⟨g, hg, hok⟩ := Option.bind_eq_some_iff.1 hok
    obtain ⟨a, ha, hok⟩ := Option.bind_eq_some_iff.1 hok
    obtain ⟨b, hb, hany⟩ := Option.map_eq_some_iff.1 hok
    obtain ⟨c, hc, hkind⟩ := List.any_eq_true.1 hany
    have hg := toOption_eq_some.1 hg
    rcases Grammar.Defined.merging_conflicts ⟨ambiguousSum, ambiguousSum_built, hg⟩ with
      ⟨a, b', ha, hb', hsource, -⟩ | hstop
    case inr => exact absurd (toOption_eq_some.1 ha) (hstop.build_ne_ok a)
    obtain rfl : b' = b := Except.ok.inj (hb'.symm.trans (toOption_eq_some.1 hb))
    have hkind := of_decide_eq_true hkind
    exact ⟨g, a, b', hg, ha, hb', c, hc, hkind, hsource c hc hkind⟩
  · have hok : ((Grammar.define notLalr).toOption.bind fun g =>
        (Automaton.build g .canonical).toOption.bind fun a =>
          (Automaton.build g .lalr).toOption.map fun b =>
            (a.conflicts.isEmpty, b.conflicts.isEmpty)) = some (true, false) := by decide +kernel
    obtain ⟨g, hg, hok⟩ := Option.bind_eq_some_iff.1 hok
    obtain ⟨a, ha, hok⟩ := Option.bind_eq_some_iff.1 hok
    obtain ⟨b, hb, hempty⟩ := Option.map_eq_some_iff.1 hok
    obtain ⟨hnone, hsome⟩ := Prod.mk.inj hempty
    have hg := toOption_eq_some.1 hg
    have ha := toOption_eq_some.1 ha
    have hb := toOption_eq_some.1 hb
    rcases Grammar.Defined.merging_conflicts ⟨notLalr, notLalr_built, hg⟩ with
      ⟨a', b', ha', hb', -, hreduce⟩ | hstop
    case inr => exact absurd ha (hstop.build_ne_ok a)
    obtain rfl : a' = a := Except.ok.inj (ha'.symm.trans ha)
    obtain rfl : b' = b := Except.ok.inj (hb'.symm.trans hb)
    have hnone := List.isEmpty_iff.1 hnone
    have hsome : b'.conflicts ≠ [] := fun hnil => by simp [hnil] at hsome
    exact ⟨g, a', b', hg, ha, hb, hnone, hsome, hreduce hnone⟩

end Samples

end BottomUp
