/-
# Nullable symbols and first terminals are solutions

The rounds that the library allows are enough: the nullable symbols contain the
head of every rule whose right-hand side is nullable, and the first terminals of a
head contain those of each symbol that is visible in one of its rules. A terminal
has itself for its only first terminal.

Key theorems: `Grammar.Lawful.head_mem_nullable`, `Grammar.Lawful.ofSymbol_head`,
`Grammar.Lawful.mem_ofSymbol_terminal`, `FirstSets.mem_before`.
-/
import BottomUp.Proofs.Families
import BottomUp.Proofs.Lawful

namespace BottomUp

/-! ### What may begin a string -/

namespace FirstSets

variable {f : FirstSets} {a x : SymbolId} {xs front : List SymbolId} {rest : TerminalSet}

theorem mem_before_cons : a ∈ f.before (x :: xs) rest ↔
    a ∈ f.ofSymbol x ∨ (x ∈ f.nullable ∧ a ∈ f.before xs rest) := by
  by_cases hx : x ∈ f.nullable
  · simp [before, isNullable, hx, OrdSet.mem_union]
  · simp [before, isNullable, hx]

/-- A string begins with what its front begins with, or, if the front is nullable,
with what the rest does. -/
theorem mem_before : a ∈ f.before front rest ↔
    a ∈ f.before front ∅ ∨ ((∀ x ∈ front, x ∈ f.nullable) ∧ a ∈ rest) := by
  induction front with
  | nil => simp [before, OrdSet.not_mem_empty]
  | cons x xs ih =>
    rw [mem_before_cons, mem_before_cons, ih]
    simp only [List.mem_cons, forall_eq_or_imp]
    tauto

/-- What a string of its own begins with, one of its visible symbols begins with. -/
theorem exists_visible (h : a ∈ f.before front ∅) :
    ∃ x ∈ Grammar.visible f.nullable front, a ∈ f.ofSymbol x := by
  induction front with
  | nil => exact absurd h (OrdSet.not_mem_empty a)
  | cons x xs ih =>
    unfold Grammar.visible
    rcases mem_before_cons.1 h with h | ⟨hx, h⟩
    · exact ⟨x, by split <;> simp, h⟩
    · obtain ⟨y, hy, hay⟩ := ih h
      exact ⟨y, by simp [hx, hy], hay⟩

end FirstSets

namespace Grammar

variable {g : Grammar}

/-! ### Nullable symbols -/

theorem addNullable_heads {s : OrdSet SymbolId}
    (h : ∀ x ∈ s, x ∈ g.rules.toList.map (·.head.id)) :
    ∀ x ∈ g.addNullable s, x ∈ g.rules.toList.map (·.head.id) := by
  unfold addNullable
  rw [← Array.foldl_toList]
  refine List.foldlRecOn (motive := fun s => ∀ x ∈ s, x ∈ g.rules.toList.map (·.head.id)) _ _ h
    fun s hs r hr x hx => ?_
  split at hx
  · rcases OrdSet.mem_insert.1 hx with rfl | hx
    · exact List.mem_map_of_mem hr
    · exact hs x hx
  · exact hs x hx

theorem subset_ite_insert (s : OrdSet SymbolId) (r : Rule) :
    s ⊆ if r.right.all fun x => decide (x ∈ s) then s.insert r.head.id else s := by
  intro x hx
  split
  · exact OrdSet.mem_insert.2 (.inr hx)
  · exact hx

theorem subset_addNullable (s : OrdSet SymbolId) : s ⊆ g.addNullable s := by
  unfold addNullable
  rw [← Array.foldl_toList]
  exact le_foldl (fun s t : OrdSet SymbolId => s ⊆ t) subset_ite_insert _ _

/-- One more round finds no more nullable symbols. -/
theorem addNullable_nullable : g.addNullable g.nullable = g.nullable :=
  saturate_fixed (fun s => ∀ x ∈ s, x ∈ g.rules.toList.map (·.head.id)) OrdSet.size g.rules.size
    (fun _ => addNullable_heads)
    (fun s hs => by simpa using OrdSet.size_le_length hs)
    (fun s _ hne => OrdSet.size_lt_of_subset (subset_addNullable s) (Ne.symm hne))
    (fun x hx => absurd hx (OrdSet.not_mem_empty x)) (by omega)

/-- A head is nullable if the right-hand side of its rule is. -/
theorem head_mem_nullable {id : RuleId} {r : Rule} (hr : g.rule? id = some r)
    (h : ∀ x ∈ r.right, x ∈ g.nullable) : r.head.id ∈ g.nullable := by
  have hfix := g.addNullable_nullable
  unfold addNullable at hfix
  rw [← Array.foldl_toList] at hfix
  have hstep := foldl_fixed (fun s t : OrdSet SymbolId => s ⊆ t) subset_ite_insert hfix r
    (Array.mem_toList_iff.2 (Array.mem_of_getElem? hr))
  rw [if_pos (by simpa using h)] at hstep
  rw [← hstep]
  exact OrdSet.mem_insert.2 (.inl rfl)

/-! ### First terminals -/

/-- What the first terminals have in every round: they are terminals, and a terminal has
no other but itself. -/
structure FirstLawful (g : Grammar) (s : Array TerminalSet) : Prop where
  size_eq : s.size = g.symbols.size
  isTerminal : ∀ x a, a ∈ s.getD x ∅ → g.isTerminal a = true
  eq_self : ∀ x a, g.isTerminal x = true → a ∈ s.getD x ∅ → a = x

theorem FirstLawful.within {s : Array TerminalSet} (h : g.FirstLawful s) :
    Family.Within g.symbols.size s :=
  ⟨h.size_eq, fun x a ha => lt_of_isTerminal (h.isTerminal x a ha)⟩

theorem grows_passFirst (edges : List (SymbolId × SymbolId)) (s : Array TerminalSet) :
    Family.Grows s (passFirst edges s) :=
  le_foldl Family.Grows (fun s _ => Family.grows_modify_union s _ _) edges s

theorem mem_firstEdges {head x : SymbolId} : (head, x) ∈ g.firstEdges ↔
    ∃ id r, g.rule? id = some r ∧ r.head.id = head ∧ x ∈ visible g.nullable r.right := by
  simp only [firstEdges, List.mem_flatMap, List.mem_map, Prod.mk.injEq, Array.mem_toList_iff]
  constructor
  · rintro ⟨r, hr, x, hx, rfl, rfl⟩
    obtain ⟨id, hid⟩ := Array.mem_iff_getElem?.1 hr
    exact ⟨id, r, hid, rfl, hx⟩
  · rintro ⟨id, r, hr, rfl, hx⟩
    exact ⟨r, Array.mem_of_getElem? hr, x, hx, rfl, rfl⟩

namespace Lawful

variable (h : g.Lawful)
include h

/-- The first terminals that the rounds start with. -/
theorem mem_firstStart {x a : SymbolId} (ha : a ∈ (g.symbols.map fun s =>
    if s.isTerminal then OrdSet.singleton s.id else (∅ : TerminalSet)).getD x ∅) :
    a = x ∧ g.isTerminal x = true := by
  rw [Array.getD_eq_getD_getElem?, Array.getElem?_map] at ha
  cases hs : g.symbols[x]? with
  | none => rw [hs] at ha; exact absurd ha (OrdSet.not_mem_empty a)
  | some s =>
    rw [hs] at ha
    simp only [Option.map_some, Option.getD_some] at ha
    split at ha
    · next ht =>
      have hs' : g.symbol? x = some s := hs
      refine ⟨(OrdSet.mem_singleton.1 ha).trans (h.symbol_id hs'), ?_⟩
      simp [Grammar.isTerminal, hs', ht]
    · exact absurd ha (OrdSet.not_mem_empty a)

theorem firstLawful_start : g.FirstLawful
    (g.symbols.map fun s => if s.isTerminal then OrdSet.singleton s.id else ∅) :=
  ⟨by simp, fun _ _ ha => (h.mem_firstStart ha).1 ▸ (h.mem_firstStart ha).2,
    fun _ _ _ ha => (h.mem_firstStart ha).1⟩

theorem firstLawful_passFirst {s : Array TerminalSet} (hs : g.FirstLawful s) :
    g.FirstLawful (passFirst g.firstEdges s) := by
  unfold passFirst
  refine List.foldlRecOn g.firstEdges _ hs fun s hs ⟨head, x⟩ hedge => ?_
  obtain ⟨id, r, hr, rfl, -⟩ := mem_firstEdges.1 hedge
  refine ⟨by simp [hs.size_eq], fun y a ha => ?_, fun y a hy ha => ?_⟩
  · rcases Family.mem_modify_union.1 ha with ha | ⟨-, -, ha⟩
    · exact hs.isTerminal y a ha
    · exact hs.isTerminal x a ha
  · rcases Family.mem_modify_union.1 ha with ha | ⟨rfl, -, -⟩
    · exact hs.eq_self y a hy ha
    · rw [h.not_isTerminal_head hr] at hy
      cases hy

theorem firstLawful : g.FirstLawful g.firstSets.first :=
  saturate_induction (P := g.FirstLawful) (fun _ => h.firstLawful_passFirst) h.firstLawful_start

/-- One more round finds no more first terminals. -/
theorem passFirst_first : passFirst g.firstEdges g.firstSets.first = g.firstSets.first := by
  refine saturate_fixed g.FirstLawful Family.total (g.symbols.size * g.symbols.size)
    (fun _ => h.firstLawful_passFirst) (fun _ hs => hs.within.total_le) (fun s _ hne => ?_)
    h.firstLawful_start (by omega)
  exact (grows_passFirst g.firstEdges s).total_lt (Ne.symm hne)

theorem isTerminal_of_mem_ofSymbol {x a : SymbolId} (ha : a ∈ g.firstSets.ofSymbol x) :
    g.isTerminal a = true := h.firstLawful.isTerminal x a ha

/-- A terminal begins with itself and nothing else. -/
theorem mem_ofSymbol_terminal {x a : SymbolId} (hx : g.isTerminal x = true) :
    a ∈ g.firstSets.ofSymbol x ↔ a = x := by
  refine ⟨h.firstLawful.eq_self x a hx, ?_⟩
  rintro rfl
  have hmem : a ∈ (g.symbols.map fun s =>
      if s.isTerminal then OrdSet.singleton s.id else (∅ : TerminalSet)).getD a ∅ := by
    obtain ⟨s, hs, ht⟩ := (Option.any_eq_true _ _).1 hx
    rw [Array.getD_eq_getD_getElem?, Array.getElem?_map, show g.symbols[a]? = some s from hs]
    simp only [Option.map_some, Option.getD_some, ht, if_true]
    exact OrdSet.mem_singleton.2 (h.symbol_id hs).symm
  exact saturate_induction (P := fun s : Array TerminalSet => a ∈ s.getD a ∅)
    (fun s hs => (grows_passFirst g.firstEdges s).mem a a hs) hmem

/-- What the right-hand side of a rule begins with, its head begins with. -/
theorem ofSymbol_head {id : RuleId} {r : Rule} (hr : g.rule? id = some r) {a : SymbolId}
    (ha : a ∈ g.firstSets.before r.right ∅) : a ∈ g.firstSets.ofSymbol r.head.id := by
  obtain ⟨x, hx, hax⟩ := FirstSets.exists_visible ha
  have hstep := foldl_fixed Family.Grows (fun s _ => Family.grows_modify_union s _ _)
    h.passFirst_first (r.head.id, x) (mem_firstEdges.2 ⟨id, r, hr, rfl, hx⟩)
  have hlt : r.head.id < g.firstSets.first.size := h.firstLawful.size_eq ▸ h.head_lt hr
  unfold FirstSets.ofSymbol
  rw [← hstep]
  exact Family.mem_modify_union.2 (.inr ⟨rfl, hlt, hax⟩)

end Lawful
end Grammar

end BottomUp
