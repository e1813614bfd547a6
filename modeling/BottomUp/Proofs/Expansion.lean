/-
# Closing a set of items one item at a time

A closure can be worked out item by item. The items that were found wait to be expanded; some item
that waits is taken, and what it opens is found and waits in turn, unless it was found before.
Whichever item is taken each time, every item of the closure is taken once, so this ends after as
many steps as the closure has items, and what was found by then is the closure: the
least set that has the given items and all that its items open. What an item opens is said by
rewriting: a rule is opened for the terminals that a string behind its head may begin with.

Key definitions: `Grammar.openedBy`, `Grammar.ClosedUnderOpening`, `Expansion`, `Expansion.Run`.
Key theorems: `Grammar.Lawful.of_mem_close`, `Expansion.Sound.step`,
`Grammar.Defined.close_least`.
-/
import BottomUp.Proofs.Construction
import BottomUp.Proofs.Fronts

namespace BottomUp

open Relation (ReflTransGen)

/-! ### The size of a union -/

namespace OrdSet

variable {α : Type} [Ord α] [Std.TransOrd α] [Std.LawfulEqOrd α] [DecidableEq α]

/-- Members that are added once each count as far as they are new. -/
theorem size_union_ofList {s : OrdSet α} {l : List α} (hl : l.Nodup) :
    (s.union (ofList l)).size = s.size + (l.filter (· ∉ s)).length := by
  have hnodup : (s.toList ++ l.filter (· ∉ s)).Nodup := by
    refine List.nodup_append.2 ⟨s.nodup_toList, hl.filter _, fun x hx y hy heq => ?_⟩
    have hnew := (List.mem_filter.1 hy).2
    simp only [decide_eq_true_eq] at hnew
    exact hnew (heq ▸ hx)
  have hperm : (s.union (ofList l)).toList.Perm (s.toList ++ l.filter (· ∉ s)) := by
    refine (List.perm_ext_iff_of_nodup (nodup_toList _) hnodup).2 fun x => ?_
    rw [mem_toList, mem_union, mem_ofList, List.mem_append, List.mem_filter, mem_toList]
    by_cases hx : x ∈ s <;> simp [hx]
  rw [size, hperm.length_eq, List.length_append, size]

end OrdSet

namespace Grammar

variable {g : Grammar}

/-! ### What an item opens -/

/-- The rules of the nonterminal behind the marker of an item, their markers in front, each for the
terminals that may come after the nonterminal. -/
def openedBy (g : Grammar) (f : FirstSets) (i : Item) : List Item :=
  match g.openingOf i with
  | none => []
  | some (x, rest) =>
    (g.rulesOf x).flatMap fun id =>
      (f.ofWord rest i.lookahead).toList.map fun lookahead => ⟨id, 0, lookahead⟩

theorem mem_rulesOf {x : SymbolId} {id : RuleId} :
    id ∈ g.rulesOf x ↔ ∃ r, g.rule? id = some r ∧ r.head.id = x := by
  simp [rulesOf, numberedRules, List.mem_zipIdx_iff_getElem?, rule?]

theorem nodup_rulesOf (x : SymbolId) : (g.rulesOf x).Nodup := by
  have hnumbers : g.numberedRules.map (·.1) = List.range g.rules.size := by
    rw [numberedRules, List.map_map, ← Array.length_toList, List.range_eq_range']
    exact List.zipIdx_map_snd 0 _
  have hnodup : (g.numberedRules.map (·.1)).Nodup := hnumbers ▸ List.nodup_range
  exact hnodup.sublist (List.filter_sublist.map _)

theorem mem_openedBy {f : FirstSets} {i j : Item} : j ∈ g.openedBy f i ↔ j.marker = 0 ∧
    ∃ r rest, g.rule? j.rule = some r ∧ g.openingOf i = some (r.head.id, rest) ∧
      j.lookahead ∈ f.ofWord rest i.lookahead := by
  obtain ⟨id, marker, a⟩ := j
  unfold openedBy
  split
  · next hnone => simp [hnone]
  · next x rest hsome =>
    simp only [List.mem_flatMap, mem_rulesOf, List.mem_map, Item.mk.injEq, hsome,
      Option.some.injEq, Prod.mk.injEq]
    constructor
    · rintro ⟨_, ⟨r, hr, rfl⟩, _, ha, rfl, rfl, rfl⟩
      exact ⟨rfl, r, rest, hr, ⟨rfl, rfl⟩, ha⟩
    · rintro ⟨rfl, r, _, hr, ⟨rfl, rfl⟩, ha⟩
      exact ⟨id, ⟨r, hr, rfl⟩, a, ha, rfl, rfl, rfl⟩

theorem nodup_openedBy (f : FirstSets) (i : Item) : (g.openedBy f i).Nodup := by
  unfold openedBy
  split
  · exact List.nodup_nil
  · next x rest _ =>
    refine List.nodup_flatMap.2 ⟨fun id _ => ?_, ?_⟩
    · exact (OrdSet.nodup_toList _).map fun a b hab => by simpa using hab
    · -- items of different rules are different
      refine (nodup_rulesOf x).imp fun {id id'} hne => ?_
      refine List.disjoint_left.2 fun j hj hj' => hne ?_
      obtain ⟨a, -, rfl⟩ := List.mem_map.1 hj
      obtain ⟨a', -, heq⟩ := List.mem_map.1 hj'
      exact (congrArg Item.rule heq).symm

/-- All that the items with a property open has it too: if there is a nonterminal behind the marker,
each of its rules, for each terminal that what comes after the nonterminal may begin with. -/
def ClosedUnderOpening (g : Grammar) (P : Item → Prop) : Prop :=
  ∀ ⦃i : Item⦄ ⦃id : RuleId⦄ ⦃r : Rule⦄ ⦃rest tail : List SymbolId⦄ ⦃a : SymbolId⦄, P i →
    g.rule? id = some r → (g.right i.rule).drop i.marker = r.head.id :: rest →
    g.isTerminal a = true → ReflTransGen g.Rewrites (rest ++ [i.lookahead]) (a :: tail) →
    P ⟨id, 0, a⟩

namespace Lawful

variable (h : g.Lawful)
include h

theorem closedUnderOpening_iff {P : Item → Prop} : g.ClosedUnderOpening P ↔
    ∀ i j, P i → j ∈ g.openedBy g.firstSets i → P j := by
  constructor
  · intro hclosed i j hi hj
    obtain ⟨hmarker, r, rest, hr, hopening, ha⟩ := mem_openedBy.1 hj
    obtain ⟨hterm, tail, hrewrites⟩ := h.mem_ofWord_iff_rewrites.1 ha
    have hP := hclosed hi hr (openingOf_eq_some.1 hopening).1 hterm hrewrites
    rwa [← hmarker] at hP
  · intro hclosed i id r rest tail a hi hr hdrop hterm hrewrites
    have hopening := openingOf_eq_some.2 ⟨hdrop, h.not_isTerminal_head hr⟩
    have ha := h.mem_ofWord_iff_rewrites.2 ⟨hterm, tail, hrewrites⟩
    exact hclosed i _ hi (mem_openedBy.2 ⟨rfl, r, rest, hr, hopening, ha⟩)

theorem subset_close (items : ItemSet) : ∀ i ∈ items, i ∈ g.close g.firstSets items :=
  fun _ hi => h.mem_close.2 (.base hi)

theorem close_closedUnderOpening (items : ItemSet) :
    g.ClosedUnderOpening (· ∈ g.close g.firstSets items) := by
  refine h.closedUnderOpening_iff.2 fun i j hi hj => ?_
  obtain ⟨hmarker, r, rest, hr, hopening, ha⟩ := mem_openedBy.1 hj
  have hopened := Closed.opened (h.mem_close.1 hi) hr hopening ha
  rw [← hmarker] at hopened
  exact h.mem_close.2 hopened

/-- What has the given items and all that its items open has the closure. -/
theorem of_mem_close {items : ItemSet} {P : Item → Prop} (hitems : ∀ i ∈ items, P i)
    (hclosed : g.ClosedUnderOpening P) {i : Item} (hi : i ∈ g.close g.firstSets items) : P i := by
  replace hi := h.mem_close.1 hi
  induction hi with
  | base hi => exact hitems _ hi
  | opened _ hr hopening ha ih =>
    apply h.closedUnderOpening_iff.1 hclosed _ _ ih
    exact mem_openedBy.2 ⟨rfl, _, _, hr, hopening, ha⟩

theorem close_close (items : ItemSet) :
    g.close g.firstSets (g.close g.firstSets items) = g.close g.firstSets items := by
  refine OrdSet.ext fun i => ⟨fun hi => ?_, h.subset_close _ i⟩
  exact h.of_mem_close (fun _ hj => hj) (h.close_closedUnderOpening items) hi

theorem close_union (items items' : ItemSet) : g.close g.firstSets (items.union items') =
    (g.close g.firstSets items).union (g.close g.firstSets items') := by
  refine OrdSet.ext fun i => ?_
  rw [OrdSet.mem_union, h.mem_close, h.mem_close, h.mem_close]
  constructor
  · intro hi
    -- an item of the closure follows from a single one of those given
    obtain ⟨j, hj, hij⟩ := hi.exists_base
    refine (OrdSet.mem_union.1 hj).imp (fun hj => ?_) fun hj => ?_ <;>
    · apply hij.mono
      rintro _ rfl
      exact hj
  · rintro (hi | hi) <;> apply hi.mono <;> intro j hj
    · exact OrdSet.mem_union.2 (.inl hj)
    · exact OrdSet.mem_union.2 (.inr hj)

end Lawful
end Grammar

/-! ### Expanding the items that wait -/

/-- A closure under way: the items that were found, and those of them that wait to be expanded. -/
structure Expansion where
  found : ItemSet
  waiting : List Item

namespace Expansion

/-- All the given items wait. -/
def start (items : ItemSet) : Expansion := ⟨items, items.toList⟩

/-- Some item that waits is expanded. What it opens and was not found before waits from then on,
in whatever order. -/
inductive Step (g : Grammar) : Expansion → Expansion → Prop
  | expand {e : Expansion} {i : Item} {waiting : List Item} : i ∈ e.waiting →
      waiting.Perm
        (e.waiting.erase i ++ (g.openedBy g.firstSets i).filter (· ∉ e.found)) →
      Step g e ⟨e.found.union (.ofList (g.openedBy g.firstSets i)), waiting⟩

/-- So many steps lead from one state to another. -/
inductive Run (g : Grammar) (e : Expansion) : Nat → Expansion → Prop
  | start : Run g e 0 e
  | step {n : Nat} {e' e'' : Expansion} : Run g e n e' → Step g e' e'' → Run g e (n + 1) e''

/-- What holds after so many steps from the given items. -/
structure Sound (g : Grammar) (items : ItemSet) (n : Nat) (e : Expansion) : Prop where
  given : ∀ i ∈ items, i ∈ e.found
  within : ∀ i ∈ e.found, i ∈ g.close g.firstSets items
  found : ∀ i ∈ e.waiting, i ∈ e.found
  nodup : e.waiting.Nodup
  /-- What was found and does not wait has been expanded. -/
  expanded : ∀ i ∈ e.found, i ∉ e.waiting → ∀ j ∈ g.openedBy g.firstSets i, j ∈ e.found
  /-- Each step has taken one of the items that were found. -/
  count : e.found.size = n + e.waiting.length

variable {g : Grammar} {items : ItemSet} {n : Nat} {e e' : Expansion}

theorem Sound.start (h : g.Lawful) (items : ItemSet) : Sound g items 0 (.start items) where
  given _ hi := hi
  within := h.subset_close items
  found _ hi := hi
  nodup := items.nodup_toList
  expanded _ hi hnot := absurd hi hnot
  count := (Nat.zero_add _).symm

theorem Sound.step (h : g.Lawful) (hs : Sound g items n e) (hstep : Step g e e') :
    Sound g items (n + 1) e' := by
  obtain @⟨i, waiting, hi, hperm⟩ := hstep
  have hfound : ∀ j, j ∈ e.found.union (.ofList (g.openedBy g.firstSets i)) ↔
      j ∈ e.found ∨ j ∈ g.openedBy g.firstSets i := by
    intro j
    rw [OrdSet.mem_union, OrdSet.mem_ofList]
  have hwaiting : ∀ j, j ∈ waiting ↔
      (j ≠ i ∧ j ∈ e.waiting) ∨ (j ∈ g.openedBy g.firstSets i ∧ j ∉ e.found) := by
    intro j
    rw [hperm.mem_iff, List.mem_append, hs.nodup.mem_erase_iff, List.mem_filter, decide_eq_true_iff]
  constructor
  case given =>
    intro j hj
    exact (hfound j).2 (.inl (hs.given j hj))
  case within =>
    intro j hj
    rcases (hfound j).1 hj with hj | hj
    · exact hs.within j hj
    · apply h.closedUnderOpening_iff.1 (h.close_closedUnderOpening items) i j _ hj
      exact hs.within i (hs.found i hi)
  case found =>
    intro j hj
    rcases (hwaiting j).1 hj with ⟨-, hj⟩ | ⟨hj, -⟩
    · exact (hfound j).2 (.inl (hs.found j hj))
    · exact (hfound j).2 (.inr hj)
  case nodup =>
    refine hperm.nodup_iff.2 (List.nodup_append.2 ⟨hs.nodup.erase i,
      (g.nodup_openedBy _ i).filter _, fun j hj k hk heq => ?_⟩)
    have hnew := (List.mem_filter.1 hk).2
    rw [decide_eq_true_iff] at hnew
    exact hnew (heq ▸ hs.found j (List.mem_of_mem_erase hj))
  case expanded =>
    intro j hj hnot k hk
    -- an item that does not wait is the one that was expanded, or was expanded before
    rw [hwaiting, not_or, not_and, not_and_not_right] at hnot
    apply (hfound k).2
    by_cases hji : j = i
    · exact .inr (hji ▸ hk)
    · have hj : j ∈ e.found := ((hfound j).1 hj).elim id hnot.2
      exact .inl (hs.expanded j hj (hnot.1 hji) k hk)
  case count =>
    have hcount := hs.count
    have hlength : waiting.length = e.waiting.length - 1 +
        ((g.openedBy g.firstSets i).filter (· ∉ e.found)).length := by
      rw [hperm.length_eq, List.length_append, List.length_erase_of_mem hi]
    have hpos := List.length_pos_of_mem hi
    rw [OrdSet.size_union_ofList (g.nodup_openedBy _ i)]
    show _ = n + 1 + waiting.length
    omega

theorem Run.sound (h : g.Lawful) (hrun : Run g (.start items) n e) : Sound g items n e := by
  induction hrun with
  | start => exact .start h items
  | step _ hstep ih => exact ih.step h hstep

/-- No expansion takes more steps than the closure has items. -/
theorem Sound.le_size (hs : Sound g items n e) : n ≤ (g.close g.firstSets items).size := by
  have hle := OrdSet.size_le_of_subset hs.within
  have hcount := hs.count
  omega

/-- When no item waits any more, the closure was found. -/
theorem Sound.found_eq (h : g.Lawful) (hs : Sound g items n e) (hdone : e.waiting = []) :
    e.found = g.close g.firstSets items := by
  refine OrdSet.ext fun i => ⟨hs.within i, fun hi => ?_⟩
  refine h.of_mem_close hs.given (h.closedUnderOpening_iff.2 fun i j hi hj => ?_) hi
  exact hs.expanded i hi (by simp [hdone]) j hj

/-- As long as an item waits there is a step. -/
theorem exists_step (hwaits : e.waiting ≠ []) : ∃ e', Step g e e' := by
  obtain ⟨i, hi⟩ := List.exists_mem_of_ne_nil _ hwaits
  exact ⟨_, .expand hi (.refl _)⟩

end Expansion

/-- The closure of items that fit the grammar is found without a fault, and it is the least set that
has the items and all that its items open. Whichever item is expanded first each time, it is found
after as many steps as it has items, and before that every item that waits fits the
grammar and can be expanded. Closing it again adds nothing, and the closure of a union is the union
of the closures. -/
theorem Grammar.Defined.close_least {g : Grammar} (hg : g.Defined) {items : ItemSet}
    (hitems : ∀ i ∈ items, g.Fitting i) :
    g.closure g.firstSets items = .ok (g.close g.firstSets items) ∧
    ((∀ i ∈ items, i ∈ g.close g.firstSets items) ∧
      g.ClosedUnderOpening (· ∈ g.close g.firstSets items) ∧
      ∀ P : Item → Prop, (∀ i ∈ items, P i) → g.ClosedUnderOpening P →
        ∀ i ∈ g.close g.firstSets items, P i) ∧
    (∀ n e, Expansion.Run g (.start items) n e → n ≤ (g.close g.firstSets items).size ∧
      (∀ i ∈ e.waiting, g.Fitting i) ∧ (e.waiting ≠ [] → ∃ e', Expansion.Step g e e') ∧
      (e.waiting = [] →
        e.found = g.close g.firstSets items ∧ n = (g.close g.firstSets items).size)) ∧
    g.close g.firstSets (g.close g.firstSets items) = g.close g.firstSets items ∧
    ∀ items', g.close g.firstSets (items.union items') =
      (g.close g.firstSets items).union (g.close g.firstSets items') := by
  have h := hg.lawful
  refine ⟨Construction.closure_eq_ok hitems, ⟨h.subset_close items,
    h.close_closedUnderOpening items, fun P hP hclosed i => h.of_mem_close hP hclosed⟩,
    fun n e hrun => ?_, h.close_close items, h.close_union items⟩
  have hs := hrun.sound h
  refine ⟨hs.le_size, fun i hi => ?_, Expansion.exists_step, fun hdone => ?_⟩
  · exact h.fitting_close hitems i (hs.within i (hs.found i hi))
  · have hcount := hs.count
    have hfound := hs.found_eq h hdone
    rw [hdone, List.length_nil, hfound] at hcount
    exact ⟨hfound, hcount.symm⟩

namespace Samples

/-- The item of a start, and that of the rule `S → M S b` with `M` before its marker. -/
def headlessItems : ItemSet := .ofList [.start, ⟨1, 1, .endOfInput⟩]

/-- `S` is opened on the end of the input and on `b`, `M` on `a`, and `N` on nothing at all, since
no terminal can come first behind it: seven items, found in seven steps. -/
theorem headless_close_least : ∃ g, Grammar.define headless = .ok g ∧
    (∀ i ∈ headlessItems, g.Fitting i) ∧
    ∀ n e, Expansion.Run g (.start headlessItems) n e → n ≤ 7 ∧
      (e.waiting = [] → n = 7 ∧ e.found.toList =
        [⟨0, 0, 0⟩, ⟨1, 0, 0⟩, ⟨1, 0, 3⟩, ⟨1, 1, 0⟩, ⟨2, 0, 0⟩, ⟨2, 0, 3⟩, ⟨3, 0, 2⟩]) := by
  have hok : ((Grammar.define headless).toOption.map fun g =>
      (headlessItems.toList.all fun i => i.fits g && g.isTerminal i.lookahead,
        (g.close g.firstSets headlessItems).toList)) =
      some (true,
        [⟨0, 0, 0⟩, ⟨1, 0, 0⟩, ⟨1, 0, 3⟩, ⟨1, 1, 0⟩, ⟨2, 0, 0⟩, ⟨2, 0, 3⟩, ⟨3, 0, 2⟩]) := by
    decide +kernel
  obtain ⟨g, hg, hok⟩ := Option.map_eq_some_iff.1 hok
  have hg := toOption_eq_some.1 hg
  obtain ⟨hall, hclose⟩ := Prod.mk.inj hok
  have hitems : ∀ i ∈ headlessItems, g.Fitting i := by
    intro i hi
    have hi := List.all_eq_true.1 hall i hi
    rw [Bool.and_eq_true] at hi
    exact ⟨hi.1, hi.2⟩
  obtain ⟨-, -, hrun, -⟩ := Grammar.Defined.close_least ⟨headless, headless_built, hg⟩ hitems
  refine ⟨g, hg, hitems, fun n e he => ?_⟩
  obtain ⟨hle, -, -, hdone⟩ := hrun n e he
  rw [OrdSet.size, hclose] at hle hdone
  refine ⟨hle, fun hnil => ?_⟩
  obtain ⟨hfound, hn⟩ := hdone hnil
  exact ⟨hn, hfound ▸ hclose⟩

end Samples

end BottomUp
