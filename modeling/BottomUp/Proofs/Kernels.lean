/-
# Kernels that are reached

From the starting item each symbol leads to a further kernel: close the kernel and
move every marker over the symbol that has it behind itself. The kernels reached
this way do not depend on any method of building an automaton; a method only
says which of them make one state.

With the lookaheads forgotten, what a kernel leads to depends only on the kernel with
the lookaheads forgotten. So the kernels that make one state lead to kernels
that make one state again, by either method.

Key definitions: `Item.Alike`, `Grammar.successor`, `Grammar.Reached`, `Grammar.stateKeys`,
`Grammar.Gathered`.
Key theorems: `Grammar.Lawful.closed_alike`, `Grammar.Lawful.key_successor`,
`Grammar.Gathered.successor`.
-/
import BottomUp.Automaton.Construction
import BottomUp.Proofs.Closure

namespace BottomUp

/-! ### Items without their lookaheads -/

/-- Whether two items are the same but for their lookaheads. -/
def Item.Alike (i j : Item) : Prop := i.rule = j.rule ∧ i.marker = j.marker

namespace Item.Alike

variable {i j k : Item}

theorem refl (i : Item) : i.Alike i := ⟨rfl, rfl⟩

theorem trans (h : i.Alike j) (h' : j.Alike k) : i.Alike k := ⟨h.1.trans h'.1, h.2.trans h'.2⟩

theorem shifted (h : i.Alike j) : i.shifted.Alike j.shifted :=
  ⟨h.1, congrArg (· + 1) h.2⟩

theorem next_eq {g : Grammar} (h : i.Alike j) : i.next g = j.next g := by
  unfold Item.next
  rw [h.1, h.2]

theorem openingOf_eq {g : Grammar} (h : i.Alike j) : g.openingOf i = g.openingOf j := by
  unfold Grammar.openingOf
  rw [h.1, h.2]

end Item.Alike

namespace ItemSet

theorem mem_core {s : ItemSet} {i : Item} :
    i ∈ s.core ↔ i.lookahead = .endOfInput ∧ ∃ j ∈ s, i.Alike j := by
  obtain ⟨rule, marker, a⟩ := i
  simp only [core, OrdSet.mem_ofList, List.mem_map, OrdSet.mem_toList, Item.mk.injEq, Item.Alike]
  constructor
  · rintro ⟨j, hj, rfl, rfl, rfl⟩
    exact ⟨rfl, j, hj, rfl, rfl⟩
  · rintro ⟨rfl, j, hj, rfl, rfl⟩
    exact ⟨j, hj, rfl, rfl, rfl⟩

/-- Two sets have the same core if each item of one is, but for its lookahead, in the other. -/
theorem core_eq_iff {s t : ItemSet} :
    s.core = t.core ↔ (∀ i ∈ s, ∃ j ∈ t, i.Alike j) ∧ ∀ j ∈ t, ∃ i ∈ s, j.Alike i := by
  have himp : ∀ {s t : ItemSet}, s.core = t.core → ∀ i ∈ s, ∃ j ∈ t, i.Alike j := by
    intro s t h i hi
    have hmem : (⟨i.rule, i.marker, .endOfInput⟩ : Item) ∈ s.core :=
      mem_core.2 ⟨rfl, i, hi, rfl, rfl⟩
    rw [h] at hmem
    exact (mem_core.1 hmem).2
  constructor
  · exact fun h => ⟨himp h, himp h.symm⟩
  · rintro ⟨hst, hts⟩
    refine OrdSet.ext fun i => ?_
    rw [mem_core, mem_core]
    refine and_congr_right fun _ => ⟨?_, ?_⟩
    · rintro ⟨j, hj, hij⟩
      obtain ⟨k, hk, hjk⟩ := hst j hj
      exact ⟨k, hk, hij.trans hjk⟩
    · rintro ⟨j, hj, hij⟩
      obtain ⟨k, hk, hjk⟩ := hts j hj
      exact ⟨k, hk, hij.trans hjk⟩

theorem exists_alike {s t : ItemSet} (h : s.core = t.core) {i : Item} (hi : i ∈ s) :
    ∃ j ∈ t, i.Alike j := (core_eq_iff.1 h).1 i hi

theorem core_union {s t : ItemSet} (h : s.core = t.core) : core (s.union t) = s.core := by
  refine core_eq_iff.2 ⟨fun i hi => ?_, fun j hj => ⟨j, OrdSet.mem_union.2 (.inl hj), .refl j⟩⟩
  rcases OrdSet.mem_union.1 hi with hi | hi
  · exact ⟨i, hi, .refl i⟩
  · exact exists_alike h.symm hi

end ItemSet

/-! ### What makes one state -/

namespace Method

variable {m : Method} {s t : ItemSet}

theorem core_eq_of_key_eq (h : m.key s = m.key t) : s.core = t.core := by
  cases m with
  | canonical => exact congrArg ItemSet.core h
  | lalr => exact h

theorem key_union (h : m.key s = m.key t) : m.key (s.union t) = m.key s := by
  cases m with
  | canonical =>
    obtain rfl : s = t := h
    exact OrdSet.ext fun i => by simp [key, OrdSet.mem_union]
  | lalr => exact ItemSet.core_union h

end Method

namespace Grammar

variable {g : Grammar} (h : g.Lawful) {m : Method}

/-! ### Closing and moving on -/

include h in
/-- With the lookaheads forgotten, what follows from some items depends only on the items
with the lookaheads forgotten. -/
theorem Lawful.closed_alike {base base' : Item → Prop} (hbase : ∀ i, base i → g.Fitting i)
    (hbase' : ∀ i, base' i → g.Fitting i) (halike : ∀ i, base i → ∃ j, base' j ∧ i.Alike j)
    {i : Item} (hi : g.Closed base i) : ∃ j, g.Closed base' j ∧ i.Alike j := by
  induction hi with
  | base hi =>
    obtain ⟨j, hj, hij⟩ := halike _ hi
    exact ⟨j, .base hj, hij⟩
  | @opened i rest id r a hi hr ho ha ih =>
    obtain ⟨j, hj, hij⟩ := ih
    have hterm := (h.fitting_closed hbase hi).isTerminal
    have hterm' := (h.fitting_closed hbase' hj).isTerminal
    -- the string behind the marker begins with `a` itself or lets the lookahead through
    have hexists : ∃ b, b ∈ g.firstSets.ofWord rest j.lookahead := by
      rcases (h.mem_ofWord hterm).1 ha with ha | ⟨hnull, -⟩
      · exact ⟨a, (h.mem_ofWord hterm').2 (.inl ha)⟩
      · exact ⟨j.lookahead, (h.mem_ofWord hterm').2 (.inr ⟨hnull, rfl⟩)⟩
    obtain ⟨b, hb⟩ := hexists
    exact ⟨⟨id, 0, b⟩, .opened hj hr (hij.openingOf_eq ▸ ho) hb, rfl, rfl⟩

/-- The kernel that a symbol leads to from a kernel. -/
def successor (g : Grammar) (kernel : ItemSet) (x : SymbolId) : ItemSet :=
  g.shiftedOver (g.close g.firstSets kernel) x

theorem mem_successor {kernel : ItemSet} {x : SymbolId} {j : Item} : j ∈ g.successor kernel x ↔
    ∃ i ∈ g.close g.firstSets kernel, i.next g = some x ∧ i.shifted = j := mem_shiftedOver

theorem marker_pos_of_mem_successor {kernel : ItemSet} {x : SymbolId} {j : Item}
    (hj : j ∈ g.successor kernel x) : 0 < j.marker := by
  obtain ⟨i, -, -, rfl⟩ := mem_successor.1 hj
  exact Nat.succ_pos i.marker

section

include h

theorem Lawful.fitting_close {kernel : ItemSet} (hk : ∀ i ∈ kernel, g.Fitting i) :
    ∀ i ∈ g.close g.firstSets kernel, g.Fitting i :=
  fun _ hi => h.fitting_closed hk (h.mem_close.1 hi)

theorem Lawful.fitting_successor {kernel : ItemSet} (hk : ∀ i ∈ kernel, g.Fitting i)
    (x : SymbolId) : ∀ i ∈ g.successor kernel x, g.Fitting i := by
  intro j hj
  obtain ⟨i, hi, hx, rfl⟩ := mem_successor.1 hj
  exact (h.fitting_close hk i hi).shifted hx

theorem Lawful.close_alike {s t : ItemSet} (hs : ∀ i ∈ s, g.Fitting i) (ht : ∀ i ∈ t, g.Fitting i)
    (hcore : s.core = t.core) {i : Item} (hi : i ∈ g.close g.firstSets s) :
    ∃ j ∈ g.close g.firstSets t, i.Alike j := by
  obtain ⟨j, hj, hij⟩ := h.closed_alike hs ht (fun i hi => ItemSet.exists_alike hcore hi)
    (h.mem_close.1 hi)
  exact ⟨j, h.mem_close.2 hj, hij⟩

theorem Lawful.successor_core {s t : ItemSet} (hs : ∀ i ∈ s, g.Fitting i)
    (ht : ∀ i ∈ t, g.Fitting i) (hcore : s.core = t.core) (x : SymbolId) :
    (g.successor s x).core = (g.successor t x).core := by
  have himp : ∀ {s t : ItemSet}, (∀ i ∈ s, g.Fitting i) → (∀ i ∈ t, g.Fitting i) →
      s.core = t.core → ∀ i ∈ g.successor s x, ∃ j ∈ g.successor t x, i.Alike j := by
    intro s t hs ht hcore j hj
    obtain ⟨i, hi, hx, rfl⟩ := mem_successor.1 hj
    obtain ⟨j, hj, hij⟩ := h.close_alike hs ht hcore hi
    exact ⟨j.shifted, mem_successor.2 ⟨j, hj, hij.next_eq ▸ hx, rfl⟩, hij.shifted⟩
  exact ItemSet.core_eq_iff.2 ⟨himp hs ht hcore, himp ht hs hcore.symm⟩

/-- Kernels that make one state lead to kernels that make one state. -/
theorem Lawful.key_successor {s t : ItemSet} (hs : ∀ i ∈ s, g.Fitting i)
    (ht : ∀ i ∈ t, g.Fitting i) (hkey : m.key s = m.key t) (x : SymbolId) :
    m.key (g.successor s x) = m.key (g.successor t x) := by
  cases m with
  | canonical => exact congrArg (g.successor · x) hkey
  | lalr => exact h.successor_core hs ht hkey x

end

/-! ### The kernels that are reached -/

/-- The kernels that the starting item leads to. -/
inductive Reached (g : Grammar) : ItemSet → Prop
  | start : Reached g (OrdSet.singleton .start)
  | successor {kernel : ItemSet} {x : SymbolId} {i : Item} :
      Reached g kernel → i ∈ g.close g.firstSets kernel → i.next g = some x →
      Reached g (g.successor kernel x)

include h in
theorem Reached.fitting {kernel : ItemSet} (hk : g.Reached kernel) : ∀ i ∈ kernel, g.Fitting i := by
  induction hk with
  | start => exact fun i hi => OrdSet.mem_singleton.1 hi ▸ h.fitting_start
  | successor _ _ _ ih => exact h.fitting_successor ih _

/-- What tells the states of the grammar apart: of each reached kernel what it has in common
with the others that make the same state. -/
def stateKeys (g : Grammar) (m : Method) : Set ItemSet :=
  {key | ∃ kernel, g.Reached kernel ∧ m.key kernel = key}

/-- A kernel all of whose items are in reached kernels that make the same state. -/
structure Gathered (g : Grammar) (m : Method) (kernel : ItemSet) : Prop where
  reached : ∃ k, g.Reached k ∧ m.key k = m.key kernel
  mem : ∀ i ∈ kernel, ∃ k, g.Reached k ∧ m.key k = m.key kernel ∧ i ∈ k

namespace Gathered

variable {kernel : ItemSet}

theorem key_mem (hk : g.Gathered m kernel) : m.key kernel ∈ g.stateKeys m := hk.reached

theorem of_reached (hk : g.Reached kernel) : g.Gathered m kernel :=
  ⟨⟨kernel, hk, rfl⟩, fun _ hi => ⟨kernel, hk, rfl, hi⟩⟩

include h in
theorem fitting (hk : g.Gathered m kernel) : ∀ i ∈ kernel, g.Fitting i := by
  intro i hi
  obtain ⟨k, hreached, -, hik⟩ := hk.mem i hi
  exact hreached.fitting h i hik

include h in
/-- Each item that follows from a gathered kernel follows from a reached one. -/
theorem mem_close (hk : g.Gathered m kernel) {i : Item} (hi : i ∈ g.close g.firstSets kernel) :
    ∃ k, g.Reached k ∧ m.key k = m.key kernel ∧ i ∈ g.close g.firstSets k := by
  obtain ⟨j, hj, hij⟩ := (h.mem_close.1 hi).exists_base
  obtain ⟨k, hreached, hkey, hjk⟩ := hk.mem j hj
  exact ⟨k, hreached, hkey, h.mem_close.2 (hij.mono fun _ e => e ▸ hjk)⟩

include h in
theorem successor (hk : g.Gathered m kernel) {x : SymbolId} {i : Item}
    (hi : i ∈ g.close g.firstSets kernel) (hx : i.next g = some x) :
    g.Gathered m (g.successor kernel x) := by
  -- a reached kernel of the same state leads on by every symbol that `kernel` does
  have hstep : ∀ {i : Item}, i ∈ g.close g.firstSets kernel → i.next g = some x →
      ∃ k, g.Reached k ∧ m.key k = m.key (g.successor kernel x) ∧ i.shifted ∈ k := by
    intro i hi hx
    obtain ⟨k, hreached, hkey, hik⟩ := hk.mem_close h hi
    exact ⟨_, hreached.successor hik hx,
      h.key_successor (hreached.fitting h) (hk.fitting h) hkey x, mem_successor.2 ⟨i, hik, hx, rfl⟩⟩
  refine ⟨?_, fun j hj => ?_⟩
  · obtain ⟨k, hreached, hkey, -⟩ := hstep hi hx
    exact ⟨k, hreached, hkey⟩
  · obtain ⟨i, hi, hx, rfl⟩ := mem_successor.1 hj
    exact hstep hi hx

theorem union {kernel' : ItemSet} (hk : g.Gathered m kernel) (hk' : g.Gathered m kernel')
    (hkey : m.key kernel = m.key kernel') : g.Gathered m (kernel.union kernel') := by
  have hunion : m.key (kernel.union kernel') = m.key kernel := Method.key_union hkey
  refine ⟨?_, fun i hi => ?_⟩
  · rw [hunion]
    exact hk.reached
  · rw [hunion]
    rcases OrdSet.mem_union.1 hi with hi | hi
    · exact hk.mem i hi
    · rw [hkey]
      exact hk'.mem i hi

end Gathered

end Grammar

end BottomUp
