/-
# The finished automaton is consistent

States are made on demand, and by the merging method their kernels grow after their items
and transitions have been noted. In the end nothing noted is stale: the items of every state
are the closure of the kernel that it has in the end, its transitions are those that its
items ask for and lead to what its items give, and nothing is there that does
not come from the starting item.

Key definitions: `Method.Takes`, `Automaton.Consistent`.
Key theorems: `Automaton.Complete.reaches`, `Grammar.Defined.exists_consistent`.
-/
import BottomUp.Proofs.Moves
import BottomUp.Proofs.Quotient
import Mathlib.Logic.Relation

namespace BottomUp

/-- What a kernel has to do with the moved items that lead to it: by the canonical method it is
made of them, by the merging method it has their core and all of them. -/
def Method.Takes : Method → ItemSet → ItemSet → Prop
  | .canonical, kernel, moved => kernel = moved
  | .lalr, kernel, moved => kernel.core = moved.core ∧ moved ⊆ kernel

/-- A state can be reached from the one where a parse starts. -/
def Automaton.Reaches (a : Automaton) (id : StateId) : Prop :=
  Relation.ReflTransGen (fun s t => ∃ x, a.Edge s x t) 0 id

/-- An automaton in which all that is noted of the states fits together. -/
structure Automaton.Consistent (g : Grammar) (m : Method) (a : Automaton) : Prop where
  /-- Each state bears the number of its place. -/
  numbered : ∀ {id : StateId} {s : State}, a.state? id = some s → s.id = id
  /-- The kernel of state 0 is the item that the start symbol is to be read, up to the end. -/
  start : ∃ s, a.state? 0 = some s ∧ s.kernel = OrdSet.singleton ⟨.goal, 0, .endOfInput⟩ ∧
    g.right .goal = [g.start]
  /-- No two states are to be one. -/
  distinct : (a.states.toList.map (m.key ·.kernel)).Nodup
  /-- The items are those that follow from the kernel. -/
  items : ∀ s ∈ a.states, g.closure g.firstSets s.kernel = .ok s.items ∧
    ∀ i, i ∈ s.items ↔ g.Closed (· ∈ s.kernel) i
  /-- A state leads on, to one state, by the symbols behind the markers of its items. -/
  transitions : ∀ s ∈ a.states, (s.transitions.map (·.1)).Nodup ∧
    ∀ x, (s.transition x).isSome ↔ ∃ i ∈ s.items, i.next g = some x
  /-- The state that a symbol leads to takes the items moved over the symbol. -/
  targets : ∀ s ∈ a.states, ∀ x t, s.transition x = some t → ∃ s' moved, a.state? t = some s' ∧
    (∀ j, j ∈ moved ↔ ∃ i ∈ s.items, i.next g = some x ∧ i.shifted = j) ∧ m.Takes s'.kernel moved
  /-- No state is out of reach. -/
  reaches : ∀ id < a.states.size, a.Reaches id
  /-- Something has been read before the items of a kernel, but for the starting item. -/
  kernels : ∀ s ∈ a.states, ∀ i ∈ s.kernel, i = .start ∨ 0 < i.marker
  /-- The edges to a state other than state 0 are there, and bear one symbol. -/
  entered : ∀ id < a.states.size, id ≠ 0 → ∃! x, ∃ source, a.Edge source x id
  /-- The rules to reduce are those of the complete items, in the order of their numbers, each
  once. -/
  reductions : ∀ s ∈ a.states, ∀ x, (s.reductionsOn x).Pairwise (· < ·) ∧
    ∀ r, r ∈ s.reductionsOn x ↔ ∃ i ∈ s.items, i.complete g = true ∧ i.lookahead = x ∧ i.rule = r

theorem Method.takes_of_key_eq {m : Method} {kernel moved : ItemSet}
    (hkey : m.key kernel = m.key moved) (hsub : moved ⊆ kernel) : m.Takes kernel moved := by
  cases m with
  | canonical => exact hkey
  | lalr => exact ⟨hkey, hsub⟩

namespace Automaton.Complete

variable {g : Grammar} {m : Method} {a : Automaton} {id : StateId} {s : State}
  (h : g.Lawful) (ha : a.Complete g m)
include ha

/-- An item of a kernel is the starting item, or its marker has moved. -/
theorem eq_start_or_marker_pos (hs : a.state? id = some s) {i : Item} (hi : i ∈ s.kernel) :
    i = .start ∨ 0 < i.marker := by
  obtain ⟨k, hk, -, hik⟩ := (ha.gathered hs).mem i hi
  cases hk with
  | start => exact .inl (OrdSet.mem_singleton.1 hik)
  | successor _ _ _ => exact .inr (Grammar.marker_pos_of_mem_successor hik)

theorem kernel_start : ∃ s, a.state? 0 = some s ∧ s.kernel = OrdSet.singleton .start := by
  obtain ⟨s, hs, hkey, hsub⟩ := ha.start
  refine ⟨s, hs, OrdSet.ext fun i => ⟨fun hi => ?_, hsub i⟩⟩
  -- the item is the starting one but for its lookahead, so its marker has not moved
  obtain ⟨j, hj, -, hmarker⟩ := ItemSet.exists_alike (Method.core_eq_of_key_eq hkey) hi
  rw [OrdSet.mem_singleton.1 hj] at hmarker
  rcases ha.eq_start_or_marker_pos hs hi with rfl | hpos
  · exact OrdSet.mem_singleton.2 rfl
  · exact absurd hmarker (Nat.ne_of_gt hpos)

include h

/-- Every state is reached, along the way on which one of its reached kernels is. -/
theorem reaches (hs : a.state? id = some s) : a.Reaches id := by
  obtain ⟨kernel, hk, hkey⟩ := (ha.gathered hs).reached
  induction hk generalizing id s with
  | start =>
    obtain ⟨s₀, hs₀, hkey₀, -⟩ := ha.start
    obtain rfl : id = 0 := ha.distinct hs hs₀ (hkey.symm.trans hkey₀.symm)
    exact .refl
  | @successor kernel x i hk hi hx ih =>
    obtain ⟨source, s', hs', hkey', hsub⟩ := ha.exists_state h hk
    have hhas : a.Has source i := ⟨s', hs', by
      rw [(ha.expanded hs').items]
      exact h.close_subset hsub i hi⟩
    obtain ⟨t, hedge, -⟩ := hhas.advance h ha hx
    obtain ⟨s'', hs'', htrans⟩ := hedge
    obtain rfl : s'' = s' := Option.some.inj (hs''.symm.trans hs')
    have hexp := ha.expanded hs'
    obtain ⟨st, hst, hkeyt, -⟩ := hexp.leads (hexp.transition_eq_some.1 htrans)
    have hsame : m.key (g.successor s''.kernel x) = m.key (g.successor kernel x) :=
      h.key_successor ((ha.gathered hs').fitting h) (hk.fitting h) hkey' x
    obtain rfl : t = id := ha.distinct hst hs (hkeyt.trans (hsame.trans hkey))
    exact (ih hs' hkey'.symm).tail ⟨x, s'', hs', htrans⟩

/-- A state other than state 0 is entered, and on one symbol only. -/
theorem existsUnique_entered (hs : a.state? id = some s) (hid : id ≠ 0) :
    ∃! x, ∃ source, a.Edge source x id := by
  rcases (ha.reaches h hs).cases_tail with h0 | ⟨source, -, x, hedge⟩
  · exact absurd h0 hid
  · exact ⟨x, ⟨source, hedge⟩, fun y ⟨_, hedge'⟩ => hedge'.symbol_eq h ha hedge⟩

theorem consistent : a.Consistent g m where
  numbered := ha.numbered
  start := by
    obtain ⟨s, hs, hkernel⟩ := ha.kernel_start
    exact ⟨s, hs, hkernel, Automaton.right_goal h⟩
  distinct := ha.nodup_keys
  items s hs := by
    have hid := ha.state?_of_mem hs
    have hitems := (ha.expanded hid).items
    refine ⟨?_, fun i => ?_⟩
    · rw [hitems]
      exact Construction.closure_eq_ok ((ha.gathered hid).fitting h)
    · rw [hitems]
      exact h.mem_close
  transitions s hs := by
    have hexp := ha.expanded_of_mem hs
    exact ⟨hexp.nodup_symbols, fun x => hexp.transition_isSome⟩
  targets s hs x t ht := by
    have hexp := ha.expanded_of_mem hs
    obtain ⟨s', hs', hkey, hsub⟩ := hexp.leads (hexp.transition_eq_some.1 ht)
    refine ⟨s', g.successor s.kernel x, hs', fun j => ?_, Method.takes_of_key_eq hkey hsub⟩
    rw [hexp.items]
    exact Grammar.mem_successor
  reaches id hid := ha.reaches h (Array.getElem?_eq_getElem hid)
  kernels s hs i hi := ha.eq_start_or_marker_pos (ha.state?_of_mem hs) hi
  entered id hid hne := ha.existsUnique_entered h (Array.getElem?_eq_getElem hid) hne
  reductions s hs x := by
    have hexp := ha.expanded_of_mem hs
    exact ⟨hexp.reductionsOn_ascending x, fun r => hexp.mem_reductionsOn⟩

end Automaton.Complete

/-- By either method the automaton of a defined grammar is built, and it is consistent, unless
there are more states than numbers for them. -/
theorem Grammar.Defined.exists_consistent {g : Grammar} (hg : g.Defined) (m : Method) :
    (∃ a, Automaton.build g m = .ok a ∧ a.Consistent g m) ∨ g.Overflows m := by
  rcases hg.lawful.exists_build m with ⟨a, hbuild, ha⟩ | hstop
  · exact .inl ⟨a, hbuild, ha.consistent hg.lawful⟩
  · exact .inr hstop

/-- The sample whose kernels grow while the automaton is built. -/
theorem Samples.notLalr_exists_consistent : ∃ g a, Grammar.define notLalr = .ok g ∧
    Automaton.build g .lalr = .ok a ∧ a.Consistent g .lalr := by
  have hok : ((Grammar.define notLalr).toOption.bind fun g =>
      (Automaton.build g .lalr).toOption).isSome = true := by decide +kernel
  obtain ⟨a, hok⟩ := Option.isSome_iff_exists.1 hok
  obtain ⟨g, hg, hbuild⟩ := Option.bind_eq_some_iff.1 hok
  have hg := toOption_eq_some.1 hg
  rcases Grammar.Defined.exists_consistent ⟨notLalr, notLalr_built, hg⟩ .lalr with
    ⟨a, hbuild, ha⟩ | hstop
  · exact ⟨g, a, hg, hbuild, ha⟩
  · exact absurd (toOption_eq_some.1 hbuild) (hstop.build_ne_ok a)

end BottomUp
