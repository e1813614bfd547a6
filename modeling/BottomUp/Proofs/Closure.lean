/-
# Closures are least

The closure of a set of items holds what follows from them by one rule: behind an
item with the nonterminal `B` after its marker, every rule of `B` may start, for
every terminal that can follow `B` there. What is found per nonterminal is the same
set, so a closure is the least one that is closed under the rule.

Key definitions: `Grammar.Closed`, `Grammar.shiftedOver`, `Grammar.Fitting`.
Key theorems: `Grammar.Lawful.mem_close`, `Grammar.Closed.exists_base`,
`Grammar.mem_successors`.
-/
import BottomUp.Closure
import BottomUp.Proofs.First
import BottomUp.Proofs.LookUp

namespace BottomUp
namespace Grammar

variable {g : Grammar}

/-- What follows from some items: the items, and the rules of each nonterminal behind a
marker, with their own markers in front, for the terminals that can follow it. -/
inductive Closed (g : Grammar) (base : Item → Prop) : Item → Prop
  | base {i : Item} : base i → Closed g base i
  | opened {i : Item} {rest : List SymbolId} {id : RuleId} {r : Rule} {a : SymbolId} :
      Closed g base i → g.rule? id = some r → g.openingOf i = some (r.head.id, rest) →
      a ∈ g.firstSets.ofWord rest i.lookahead → Closed g base ⟨id, 0, a⟩

theorem Closed.mono {base base' : Item → Prop} (hsub : ∀ i, base i → base' i) {i : Item}
    (h : g.Closed base i) : g.Closed base' i := by
  induction h with
  | base h => exact .base (hsub _ h)
  | opened _ hr ho ha ih => exact .opened ih hr ho ha

/-- Each item of a closure follows from a single one of the given items. -/
theorem Closed.exists_base {base : Item → Prop} {i : Item} (h : g.Closed base i) :
    ∃ j, base j ∧ g.Closed (· = j) i := by
  induction h with
  | base h => exact ⟨_, h, .base rfl⟩
  | opened _ hr ho ha ih =>
    obtain ⟨j, hj, hi⟩ := ih
    exact ⟨j, hj, .opened hi hr ho ha⟩

/-! ### What stands behind a marker -/

theorem right_of_rule? {id : RuleId} {r : Rule} (hr : g.rule? id = some r) :
    g.right id = r.right := by
  simp [right, hr]

theorem mem_right_of_rule {id : RuleId} {x : SymbolId} (hx : x ∈ g.right id) :
    ∃ r, g.rule? id = some r ∧ x ∈ r.right := by
  cases hr : g.rule? id with
  | none => simp [right, hr] at hx
  | some r => exact ⟨r, rfl, by rwa [right_of_rule? hr] at hx⟩

theorem openingOf_eq_some {i : Item} {x : SymbolId} {rest : List SymbolId} :
    g.openingOf i = some (x, rest) ↔
      (g.right i.rule).drop i.marker = x :: rest ∧ g.isTerminal x = false := by
  unfold openingOf opening
  split
  · next heq => simp [heq]
  · next y ys heq =>
    rw [heq]
    by_cases hy : g.isTerminal y
    · simp only [hy, if_true, List.cons.injEq]
      constructor
      · intro h; cases h
      · rintro ⟨⟨rfl, -⟩, h⟩; simp [hy] at h
    · simp only [hy, Bool.false_eq_true, if_false, Option.some.injEq, Prod.mk.injEq,
        List.cons.injEq]
      constructor
      · rintro ⟨rfl, rfl⟩; exact ⟨⟨rfl, rfl⟩, by simpa using hy⟩
      · exact fun h => h.1

theorem next_of_drop {i : Item} {x : SymbolId} {rest : List SymbolId}
    (h : (g.right i.rule).drop i.marker = x :: rest) : i.next g = some x := by
  have := List.head?_drop (l := g.right i.rule) (i := i.marker)
  rw [h] at this
  exact this.symm

/-- Behind a symbol stands what is one place further. -/
theorem drop_succ_of_drop {right rest : List SymbolId} {x : SymbolId} {k : Nat}
    (h : right.drop k = x :: rest) : right.drop (k + 1) = rest := by
  rw [← List.drop_drop, h]
  rfl

/-- The rule of a nonterminal's opening begins where the rule does. -/
theorem openingOf_start {id : RuleId} {r : Rule} (hr : g.rule? id = some r) (a : SymbolId) :
    g.openingOf ⟨id, 0, a⟩ = g.opening r.right := by
  simp [openingOf, right_of_rule? hr]

/-! ### The sets of terminals that follow -/

/-- What one rule passes on to the nonterminal it begins with. -/
def passRule (g : Grammar) (f : FirstSets) (s : Array TerminalSet) (r : Rule) :
    Array TerminalSet :=
  let after := s.getD r.head.id ∅
  if after.isEmpty then s
  else
    match g.opening r.right with
    | none => s
    | some (x, rest) => s.modify x fun t => t.union (f.before rest after)

theorem passFollows_eq (f : FirstSets) (s : Array TerminalSet) :
    g.passFollows f s = g.rules.toList.foldl (g.passRule f) s := by
  rw [Array.foldl_toList]
  rfl

theorem grows_passRule (f : FirstSets) (s : Array TerminalSet) (r : Rule) :
    Family.Grows s (g.passRule f s r) := by
  unfold passRule
  dsimp only
  split
  · exact refl_of Family.Grows s
  · split
    · exact refl_of Family.Grows s
    · exact Family.grows_modify_union s _ _

/-- What a rule passes on: what the string behind the nonterminal it begins with may begin
with, for some terminal that follows its head. -/
theorem mem_passRule {f : FirstSets} {s : Array TerminalSet} {r : Rule} {x : Nat} {a : SymbolId}
    (h : a ∈ (g.passRule f s r).getD x ∅) :
    a ∈ s.getD x ∅ ∨ ∃ rest, g.opening r.right = some (x, rest) ∧
      a ∈ f.before rest (s.getD r.head.id ∅) ∧ ∃ b, b ∈ s.getD r.head.id ∅ := by
  unfold passRule at h
  dsimp only at h
  split at h
  · exact .inl h
  next hne =>
  split at h
  · exact .inl h
  next y rest ho =>
  rcases Family.mem_modify_union.1 h with h | ⟨rfl, -, h⟩
  · exact .inl h
  · refine .inr ⟨rest, ho, h, ?_⟩
    obtain ⟨b, l, hb⟩ := List.exists_cons_of_ne_nil (fun hnil => hne (List.isEmpty_iff.2 hnil))
    exact ⟨b, show b ∈ (s.getD r.head.id ∅).toList by rw [hb]; exact List.mem_cons_self⟩

theorem mem_seedFollows {f : FirstSets} {items : ItemSet} {x : Nat} {a : SymbolId} :
    a ∈ (g.seedFollows f items).getD x ∅ ↔ x < g.symbols.size ∧ ∃ i ∈ items, ∃ rest,
      g.openingOf i = some (x, rest) ∧ a ∈ f.ofWord rest i.lookahead := by
  have hfold : ∀ (l : List Item) (s : Array TerminalSet), s.size = g.symbols.size →
      (a ∈ (l.foldl (fun s i =>
          match g.openingOf i with
          | none => s
          | some (x, rest) => s.modify x fun t => t.union (f.ofWord rest i.lookahead)) s).getD x ∅ ↔
        a ∈ s.getD x ∅ ∨ x < g.symbols.size ∧ ∃ i ∈ l, ∃ rest,
          g.openingOf i = some (x, rest) ∧ a ∈ f.ofWord rest i.lookahead) := by
    intro l
    induction l with
    | nil => simp
    | cons i l ih =>
      intro s hs
      rw [List.foldl_cons]
      cases ho : g.openingOf i with
      | none =>
        rw [ih s hs]
        simp [ho]
      | some p =>
        obtain ⟨y, rest⟩ := p
        dsimp only
        rw [ih _ (by simpa using hs), Family.mem_modify_union, hs, or_assoc]
        refine or_congr_right ⟨?_, ?_⟩
        · rintro (⟨rfl, hx, ha⟩ | ⟨hx, j, hj, rest', ho', ha⟩)
          · exact ⟨hx, i, List.mem_cons_self, rest, ho, ha⟩
          · exact ⟨hx, j, List.mem_cons_of_mem _ hj, rest', ho', ha⟩
        · rintro ⟨hx, j, hj, rest', ho', ha⟩
          rcases List.mem_cons.1 hj with rfl | hj
          · rw [ho] at ho'
            cases ho'
            exact .inl ⟨rfl, hx, ha⟩
          · exact .inr ⟨hx, j, hj, rest', ho', ha⟩
  have hempty : a ∉ (Array.replicate g.symbols.size (∅ : TerminalSet)).getD x ∅ := by
    rw [Array.getD_eq_getD_getElem?, Array.getElem?_replicate]
    split <;> exact OrdSet.not_mem_empty a
  exact (hfold items.toList _ (by simp)).trans ⟨fun h => h.resolve_left hempty, .inr⟩

namespace Lawful

variable (h : g.Lawful)
include h

theorem isTerminal_of_mem_before {front : List SymbolId} {rest : TerminalSet} {a : SymbolId}
    (hrest : ∀ b ∈ rest, g.isTerminal b = true) (ha : a ∈ g.firstSets.before front rest) :
    g.isTerminal a = true := by
  rcases FirstSets.mem_before.1 ha with ha | ⟨-, ha⟩
  · obtain ⟨x, -, hx⟩ := FirstSets.exists_visible ha
    exact h.isTerminal_of_mem_ofSymbol hx
  · exact hrest a ha

theorem isTerminal_of_mem_ofWord {front : List SymbolId} {l a : SymbolId}
    (ha : a ∈ g.firstSets.ofWord front l) : g.isTerminal a = true :=
  h.isTerminal_of_mem_before (fun _ => h.isTerminal_of_mem_ofSymbol) ha

/-- A string followed by a terminal begins with what it begins with itself, or, if it is
nullable, with the terminal. -/
theorem mem_ofWord {front : List SymbolId} {l a : SymbolId} (hl : g.isTerminal l = true) :
    a ∈ g.firstSets.ofWord front l ↔
      a ∈ g.firstSets.before front ∅ ∨ ((∀ x ∈ front, x ∈ g.nullable) ∧ a = l) := by
  unfold FirstSets.ofWord
  rw [FirstSets.mem_before, h.mem_ofSymbol_terminal hl]
  rfl

theorem within_seedFollows (items : ItemSet) :
    Family.Within g.symbols.size (g.seedFollows g.firstSets items) where
  size_eq := by
    unfold seedFollows
    refine List.foldlRecOn (motive := fun s : Array TerminalSet => s.size = g.symbols.size) _ _
      (by simp) fun s hs i _ => ?_
    split
    · exact hs
    · simpa using hs
  lt x a ha := by
    obtain ⟨-, i, -, rest, -, ha⟩ := mem_seedFollows.1 ha
    exact lt_of_isTerminal (h.isTerminal_of_mem_ofWord ha)

theorem within_passFollows {s : Array TerminalSet} (hs : Family.Within g.symbols.size s) :
    Family.Within g.symbols.size (g.passFollows g.firstSets s) := by
  rw [passFollows_eq]
  refine List.foldlRecOn (motive := Family.Within g.symbols.size) _ _ hs
    fun s hs r _ => ⟨?_, fun x a ha => ?_⟩
  · rw [← (grows_passRule g.firstSets s r).size_eq, hs.size_eq]
  · rcases mem_passRule ha with ha | ⟨rest, -, ha, -⟩
    · exact hs.lt x a ha
    · rcases FirstSets.mem_before.1 ha with ha | ⟨-, ha⟩
      · obtain ⟨y, -, hy⟩ := FirstSets.exists_visible ha
        exact lt_of_isTerminal (h.isTerminal_of_mem_ofSymbol hy)
      · exact hs.lt _ a ha

theorem within_follows (items : ItemSet) :
    Family.Within g.symbols.size (g.follows g.firstSets items) :=
  saturate_induction (P := Family.Within g.symbols.size) (fun _ => h.within_passFollows)
    (h.within_seedFollows items)

/-- One more round finds no more terminals that follow. -/
theorem passFollows_follows (items : ItemSet) :
    g.passFollows g.firstSets (g.follows g.firstSets items) = g.follows g.firstSets items := by
  refine Family.saturate_fixed (fun s _ => ?_) (fun _ => h.within_passFollows)
    (h.within_seedFollows items)
  rw [passFollows_eq]
  exact le_foldl Family.Grows (grows_passRule g.firstSets) _ s

/-- A terminal that follows a nonterminal comes from an item of the closure. -/
theorem exists_closed_of_mem_follows {items : ItemSet} {x : Nat} {a : SymbolId}
    (ha : a ∈ (g.follows g.firstSets items).getD x ∅) :
    ∃ i, g.Closed (· ∈ items) i ∧ ∃ rest, g.openingOf i = some (x, rest) ∧
      a ∈ g.firstSets.ofWord rest i.lookahead := by
  refine saturate_induction (P := fun s : Array TerminalSet => ∀ x a, a ∈ s.getD x ∅ →
    ∃ i, g.Closed (· ∈ items) i ∧ ∃ rest, g.openingOf i = some (x, rest) ∧
      a ∈ g.firstSets.ofWord rest i.lookahead) (fun s hs => ?_) (fun x a ha => ?_) x a ha
  · rw [passFollows_eq]
    refine List.foldlRecOn (motive := fun s : Array TerminalSet => ∀ x a, a ∈ s.getD x ∅ →
      ∃ i, g.Closed (· ∈ items) i ∧ ∃ rest, g.openingOf i = some (x, rest) ∧
        a ∈ g.firstSets.ofWord rest i.lookahead) _ _ hs fun s hs r hr x a ha => ?_
    rcases mem_passRule ha with ha | ⟨rest, ho, ha, b, hb⟩
    · exact hs x a ha
    obtain ⟨id, hid⟩ := Array.mem_iff_getElem?.1 (Array.mem_toList_iff.1 hr)
    -- the rule is opened for some terminal that lets `a` follow
    have hopen : ∀ b, b ∈ s.getD r.head.id ∅ → a ∈ g.firstSets.ofWord rest b →
        ∃ i, g.Closed (· ∈ items) i ∧ ∃ rest, g.openingOf i = some (x, rest) ∧
          a ∈ g.firstSets.ofWord rest i.lookahead := by
      intro b hb hab
      obtain ⟨i, hi, rest', ho', hb'⟩ := hs r.head.id b hb
      exact ⟨⟨id, 0, b⟩, .opened hi hid ho' hb', rest, by rw [openingOf_start hid, ho], hab⟩
    rcases FirstSets.mem_before.1 ha with ha | ⟨hnull, ha⟩
    · exact hopen b hb (FirstSets.mem_before.2 (.inl ha))
    · obtain ⟨i, -, rest', -, ha'⟩ := hs r.head.id a ha
      have hterm := h.isTerminal_of_mem_ofWord ha'
      exact hopen a ha ((h.mem_ofWord hterm).2 (.inr ⟨hnull, rfl⟩))
  · obtain ⟨-, i, hi, rest, ho, ha⟩ := mem_seedFollows.1 ha
    exact ⟨i, .base hi, rest, ho, ha⟩

end Lawful

theorem mem_openedItems {follows : Array TerminalSet} {i : Item} :
    i ∈ g.openedItems follows ↔ i.marker = 0 ∧ ∃ r, g.rule? i.rule = some r ∧
      i.lookahead ∈ follows.getD r.head.id ∅ := by
  obtain ⟨id, marker, a⟩ := i
  simp only [openedItems, numberedRules, List.mem_flatMap, List.mem_map, Item.mk.injEq,
    Prod.exists, Prod.mk.injEq, List.mem_zipIdx_iff_getElem?, Array.getElem?_toList]
  constructor
  · rintro ⟨id', r, ⟨r', id'', hr, rfl, rfl⟩, a', ha, rfl, rfl, rfl⟩
    exact ⟨rfl, r', hr, ha⟩
  · rintro ⟨rfl, r, hr, ha⟩
    exact ⟨id, r, ⟨r, id, hr, rfl, rfl⟩, a, ha, rfl, rfl, rfl⟩

/-- The closure of a set of items is the least closed one that contains it. -/
theorem Lawful.mem_close (h : g.Lawful) {items : ItemSet} {i : Item} :
    i ∈ g.close g.firstSets items ↔ g.Closed (· ∈ items) i := by
  unfold close
  rw [OrdSet.mem_union, OrdSet.mem_ofList, mem_openedItems]
  constructor
  · rintro (hi | ⟨hm, r, hr, ha⟩)
    · exact .base hi
    · obtain ⟨j, hj, rest, ho, ha⟩ := h.exists_closed_of_mem_follows ha
      have := Closed.opened hj hr ho ha
      rwa [← hm] at this
  · intro hi
    induction hi with
    | base hi => exact .inl hi
    | @opened i rest id r a _ hr ho ha ih =>
      refine .inr ⟨rfl, r, hr, ?_⟩
      rcases ih with hi | ⟨hm, r', hr', hl⟩
      · -- seeds stay
        refine saturate_induction (P := fun s : Array TerminalSet => a ∈ s.getD r.head.id ∅)
          (fun s hs => ?_) (mem_seedFollows.2 ⟨h.head_lt hr, i, hi, rest, ho, ha⟩)
        rw [passFollows_eq]
        exact (le_foldl Family.Grows (grows_passRule g.firstSets) _ s).mem _ _ hs
      · -- the last round has passed on what follows the rule's head
        have hfix := h.passFollows_follows items
        rw [passFollows_eq] at hfix
        have hstep := foldl_fixed Family.Grows (grows_passRule g.firstSets) hfix r'
          (Array.mem_toList_iff.2 (Array.mem_of_getElem? hr'))
        have hopen : g.opening r'.right = some (r.head.id, rest) := by
          rw [← openingOf_start hr' i.lookahead, ← hm]
          exact ho
        obtain ⟨j, -, rest', -, hl'⟩ := h.exists_closed_of_mem_follows hl
        have hterm := h.isTerminal_of_mem_ofWord hl'
        rw [← hstep]
        unfold passRule
        dsimp only
        rw [if_neg fun hempty => by
          rw [OrdSet.isEmpty, List.isEmpty_iff] at hempty
          have : i.lookahead ∈ ((g.follows g.firstSets items).getD r'.head.id ∅).toList := hl
          rw [hempty] at this
          exact List.not_mem_nil this, hopen]
        refine Family.mem_modify_union.2 (.inr ⟨rfl, ?_, FirstSets.mem_before.2 ?_⟩)
        · exact (h.within_follows items).size_eq ▸ h.head_lt hr
        · rcases (h.mem_ofWord hterm).1 ha with ha | ⟨hnull, rfl⟩
          · exact .inl ha
          · exact .inr ⟨hnull, hl⟩

/-! ### Successors -/

/-- The items with `x` behind their markers, moved over it. -/
def shiftedOver (g : Grammar) (items : ItemSet) (x : SymbolId) : ItemSet :=
  OrdSet.ofList ((items.toList.filter fun i => i.next g = some x).map (·.shifted))

theorem mem_shiftedOver {items : ItemSet} {x : SymbolId} {j : Item} :
    j ∈ g.shiftedOver items x ↔ ∃ i ∈ items, i.next g = some x ∧ i.shifted = j := by
  simp [shiftedOver, OrdSet.mem_ofList, OrdSet.mem_toList, and_assoc]

/-- The symbols behind the markers, once each, with the items moved over them. -/
theorem mem_successors {items : ItemSet} {x : SymbolId} {kernel : ItemSet} :
    (x, kernel) ∈ g.successors items ↔
      (∃ i ∈ items, i.next g = some x) ∧ kernel = g.shiftedOver items x := by
  have hahead : ∀ y : SymbolId, OrdSet.ofList (((items.toList.filterMap fun i =>
      (i.next g).map fun x => (x, i.shifted)).filter (·.1 = y)).map (·.2)) =
        g.shiftedOver items y := by
    refine fun y => OrdSet.ext fun j => ?_
    rw [mem_shiftedOver, OrdSet.mem_ofList]
    simp [OrdSet.mem_toList, and_assoc]
  unfold successors
  simp only [List.mem_map, List.mem_eraseDups, hahead, Prod.mk.injEq]
  constructor
  · rintro ⟨y, ⟨p, hp, rfl⟩, rfl, rfl⟩
    obtain ⟨i, hi, hx⟩ := List.mem_filterMap.1 hp
    obtain ⟨x, hnext, rfl⟩ := Option.map_eq_some_iff.1 hx
    exact ⟨⟨i, hi, hnext⟩, rfl⟩
  · rintro ⟨⟨i, hi, hx⟩, rfl⟩
    exact ⟨x, ⟨(x, i.shifted), List.mem_filterMap.2 ⟨i, hi, by simp [hx]⟩, rfl⟩, rfl, rfl⟩

theorem nodup_successors (items : ItemSet) : ((g.successors items).map (·.1)).Nodup := by
  unfold successors
  rw [List.map_map]
  exact (List.map_id _).symm ▸ nodup_eraseDups _

/-! ### Closures of items that fit -/

/-- An item of the grammar: its marker is in its rule or at its end, and a terminal may
come after the rule. -/
structure Fitting (g : Grammar) (i : Item) : Prop where
  fits : i.fits g = true
  isTerminal : g.isTerminal i.lookahead = true

theorem Lawful.fitting_start (h : g.Lawful) : g.Fitting .start := by
  obtain ⟨s, -, -, -, hr⟩ := h.axiomRule
  exact ⟨by simp [Item.fits, Item.start, hr], h.isTerminal_endOfInput⟩

theorem Lawful.fitting_closed (h : g.Lawful) {base : Item → Prop}
    (hbase : ∀ i, base i → g.Fitting i)
    {i : Item} (hi : g.Closed base i) : g.Fitting i := by
  cases hi with
  | base hi => exact hbase _ hi
  | opened _ hr _ ha => exact ⟨by simp [Item.fits, hr], h.isTerminal_of_mem_ofWord ha⟩

theorem Fitting.shifted {i : Item} (hi : g.Fitting i) {x : SymbolId} (hx : i.next g = some x) :
    g.Fitting i.shifted := by
  obtain ⟨r, hr, -⟩ := (Option.any_eq_true _ _).1 hi.fits
  have hlt : i.marker < (g.right i.rule).length := (List.getElem?_eq_some_iff.1 hx).1
  rw [right_of_rule? hr, Rule.length_right] at hlt
  exact ⟨(Option.any_eq_true _ _).2 ⟨r, hr, decide_eq_true hlt⟩, hi.isTerminal⟩

end Grammar

end BottomUp
