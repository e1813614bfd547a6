/-
# What a string of symbols begins with

A string of symbols is rewritten when the right-hand side of a rule takes the place of
its head, virtual symbols left out. A symbol is nullable if and only if it is rewritten to the empty
string, and its first terminals are those that some string it is rewritten to begins with. Each
of these facts has a tree behind it: a rule whose symbols all vanish, or a path of
rules down to the terminal with vanishing symbols to its left. The rounds that find the sets would
come to an end without a bound on them.

Key definitions: `Grammar.Rewrites`, `Grammar.Vanishes`, `Grammar.Begins`, `Grammar.Opens`.
Key theorems: `Grammar.mem_nullable_iff_rewrites`, `Grammar.Lawful.mem_before_iff_rewrites`,
`Grammar.Lawful.opens_iff`, `Grammar.Defined.firstSets_exact`.
-/
import BottomUp.Proofs.First
import BottomUp.Samples
import Mathlib.Logic.Relation

namespace BottomUp

open Relation

namespace FirstSets

variable {f : FirstSets} {a : SymbolId}

theorem before_append (xs ys : List SymbolId) (rest : TerminalSet) :
    f.before (xs ++ ys) rest = f.before xs (f.before ys rest) := by
  induction xs with
  | nil => rfl
  | cons x xs ih => simp [before, ih]

/-- What a string of its own begins with, a symbol of it does, behind nullable symbols only. -/
theorem exists_front {xs : List SymbolId} (h : a ∈ f.before xs ∅) : ∃ front x rest,
    xs = front ++ x :: rest ∧ (∀ y ∈ front, y ∈ f.nullable) ∧ a ∈ f.ofSymbol x := by
  induction xs with
  | nil => exact absurd h (OrdSet.not_mem_empty a)
  | cons x xs ih =>
    rcases mem_before_cons.1 h with h | ⟨hx, h⟩
    · exact ⟨[], x, xs, rfl, by simp, h⟩
    · obtain ⟨front, y, rest, rfl, hfront, hy⟩ := ih h
      exact ⟨x :: front, y, rest, rfl, List.forall_mem_cons.2 ⟨hx, hfront⟩, hy⟩

/-- The symbol behind a front counts as one more symbol of the string. -/
theorem mem_ofWord_iff {front : List SymbolId} {x : SymbolId} :
    a ∈ f.ofWord front x ↔ a ∈ f.before (front ++ [x]) ∅ := by
  have hlast : a ∈ f.before [x] ∅ ↔ a ∈ f.ofSymbol x := by
    rw [mem_before_cons]
    simp [before, OrdSet.not_mem_empty]
  unfold ofWord
  rw [before_append]
  calc a ∈ f.before front (f.ofSymbol x)
      ↔ a ∈ f.before front ∅ ∨ ((∀ y ∈ front, y ∈ f.nullable) ∧ a ∈ f.ofSymbol x) := mem_before
    _ ↔ a ∈ f.before front ∅ ∨ ((∀ y ∈ front, y ∈ f.nullable) ∧ a ∈ f.before [x] ∅) := by
      rw [hlast]
    _ ↔ a ∈ f.before front (f.before [x] ∅) := mem_before.symm

end FirstSets

namespace Grammar

variable {g : Grammar} {a x : SymbolId} {xs ys front rest : List SymbolId}

theorem mem_visible {nullable : OrdSet SymbolId} (hx : x ∈ visible nullable xs) :
    ∃ front rest, xs = front ++ x :: rest ∧ ∀ y ∈ front, y ∈ nullable := by
  induction xs with
  | nil => cases hx
  | cons y xs ih =>
    unfold visible at hx
    split at hx
    · next hy =>
      rcases List.mem_cons.1 hx with rfl | hx
      · exact ⟨[], xs, rfl, by simp⟩
      · obtain ⟨front, rest, rfl, hfront⟩ := ih hx
        exact ⟨y :: front, rest, rfl, List.forall_mem_cons.2 ⟨hy, hfront⟩⟩
    · obtain rfl := List.mem_singleton.1 hx
      exact ⟨[], xs, rfl, by simp⟩

/-! ### Rewriting -/

/-- The right-hand side of a rule takes the place of its head. -/
inductive Rewrites (g : Grammar) : List SymbolId → List SymbolId → Prop
  | rule {id : RuleId} {r : Rule} (front rest : List SymbolId) : g.rule? id = some r →
      Rewrites g (front ++ r.head.id :: rest) (front ++ (r.right ++ rest))

theorem Rewrites.within (h : g.Rewrites xs ys) (front rest : List SymbolId) :
    g.Rewrites (front ++ (xs ++ rest)) (front ++ (ys ++ rest)) := by
  obtain @⟨id, r, front', rest', hr⟩ := h
  simpa using Rewrites.rule (front ++ front') (rest' ++ rest) hr

theorem rewrites_within (h : ReflTransGen g.Rewrites xs ys) (front rest : List SymbolId) :
    ReflTransGen g.Rewrites (front ++ (xs ++ rest)) (front ++ (ys ++ rest)) :=
  h.lift (fun zs => front ++ (zs ++ rest)) fun _ _ hstep => hstep.within front rest

theorem rewrites_rule {id : RuleId} {r : Rule} (hr : g.rule? id = some r) :
    g.Rewrites [r.head.id] r.right := by
  simpa using Rewrites.rule [] [] hr

/-! ### Nullable symbols -/

/-- A symbol that has a rule whose symbols all vanish. -/
inductive Vanishes (g : Grammar) : SymbolId → Prop
  | rule {id : RuleId} {r : Rule} : g.rule? id = some r → (∀ x ∈ r.right, Vanishes g x) →
      Vanishes g r.head.id

theorem vanishes_addNullable {s : OrdSet SymbolId} (h : ∀ x ∈ s, g.Vanishes x) :
    ∀ x ∈ g.addNullable s, g.Vanishes x := by
  unfold addNullable
  rw [← Array.foldl_toList]
  refine List.foldlRecOn (motive := fun s => ∀ x ∈ s, g.Vanishes x) _ _ h
    fun s hs r hr x hx => ?_
  split at hx
  · next hall =>
    rcases OrdSet.mem_insert.1 hx with rfl | hx
    · obtain ⟨id, hid⟩ := Array.mem_iff_getElem?.1 (Array.mem_toList_iff.1 hr)
      have hright : ∀ y ∈ r.right, y ∈ s := by simpa using hall
      exact .rule hid fun y hy => hs y (hright y hy)
    · exact hs x hx
  · exact hs x hx

/-- The nullable symbols are those that vanish. -/
theorem mem_nullable_iff_vanishes : x ∈ g.nullable ↔ g.Vanishes x := by
  constructor
  · exact saturate_induction (P := fun s => ∀ x ∈ s, g.Vanishes x)
      (fun _ => vanishes_addNullable) (fun x hx => absurd hx (OrdSet.not_mem_empty x)) x
  · intro hx
    induction hx with
    | rule hr _ ih => exact head_mem_nullable hr ih

theorem rewrites_nil_of_forall (h : ∀ x ∈ xs, ReflTransGen g.Rewrites [x] []) :
    ReflTransGen g.Rewrites xs [] := by
  induction xs with
  | nil => exact .refl
  | cons x xs ih =>
    have htail := ih fun y hy => h y (List.mem_cons_of_mem x hy)
    have hhead := rewrites_within (h x List.mem_cons_self) [] xs
    exact hhead.trans htail

theorem Vanishes.rewrites (h : g.Vanishes x) : ReflTransGen g.Rewrites [x] [] := by
  induction h with
  | rule hr _ ih => exact .head (rewrites_rule hr) (rewrites_nil_of_forall ih)

theorem Rewrites.nullable (h : g.Rewrites xs ys) (hys : ∀ y ∈ ys, y ∈ g.nullable) :
    ∀ x ∈ xs, x ∈ g.nullable := by
  obtain @⟨id, r, front, rest, hr⟩ := h
  simp only [List.forall_mem_append] at hys
  obtain ⟨hfront, hright, hrest⟩ := hys
  exact List.forall_mem_append.2
    ⟨hfront, List.forall_mem_cons.2 ⟨head_mem_nullable hr hright, hrest⟩⟩

theorem nullable_of_rewrites (h : ReflTransGen g.Rewrites xs []) : ∀ x ∈ xs, x ∈ g.nullable := by
  induction h using ReflTransGen.head_induction_on with
  | refl => exact fun x hx => absurd hx List.not_mem_nil
  | head hstep _ ih => exact hstep.nullable ih

/-- The nullable symbols are those that are rewritten to nothing. -/
theorem mem_nullable_iff_rewrites : x ∈ g.nullable ↔ ReflTransGen g.Rewrites [x] [] :=
  ⟨fun hx => (mem_nullable_iff_vanishes.1 hx).rewrites,
    fun h => nullable_of_rewrites h x List.mem_cons_self⟩

/-! ### First terminals -/

/-- A terminal begins with itself. The head of a rule begins with what a symbol on the right begins
with, if the symbols to the left of that one vanish. -/
inductive Begins (g : Grammar) (a : SymbolId) : SymbolId → Prop
  | terminal : g.isTerminal a = true → Begins g a a
  | rule {id : RuleId} {r : Rule} {front rest : List SymbolId} {x : SymbolId} :
      g.rule? id = some r → r.right = front ++ x :: rest → (∀ y ∈ front, g.Vanishes y) →
      Begins g a x → Begins g a r.head.id

theorem Begins.rewrites (h : g.Begins a x) :
    g.isTerminal a = true ∧ ∃ rest, ReflTransGen g.Rewrites [x] (a :: rest) := by
  induction h with
  | terminal ha => exact ⟨ha, [], .refl⟩
  | @rule id r front rest x hr hright hfront _ ih =>
    obtain ⟨ha, rest', hx⟩ := ih
    refine ⟨ha, rest' ++ rest, .head (rewrites_rule hr) ?_⟩
    have hvanish := rewrites_within (rewrites_nil_of_forall fun y hy => (hfront y hy).rewrites)
      [] (x :: rest)
    rw [hright]
    exact hvanish.trans (rewrites_within hx [] rest)

namespace Lawful

variable (h : g.Lawful)
include h

/-- The first terminals of a symbol are those that it begins with. -/
theorem begins_of_mem_ofSymbol (ha : a ∈ g.firstSets.ofSymbol x) : g.Begins a x := by
  refine saturate_induction (P := fun s : Array TerminalSet => ∀ x a, a ∈ s.getD x ∅ → g.Begins a x)
    (fun s hs => ?_) (fun x a ha => ?_) x a ha
  · unfold passFirst
    refine List.foldlRecOn (motive := fun s : Array TerminalSet => ∀ x a, a ∈ s.getD x ∅ →
      g.Begins a x) g.firstEdges _ hs fun s hs ⟨head, y⟩ hedge x a ha => ?_
    obtain ⟨id, r, hr, rfl, hy⟩ := mem_firstEdges.1 hedge
    rcases Family.mem_modify_union.1 ha with ha | ⟨rfl, -, ha⟩
    · exact hs x a ha
    · obtain ⟨front, rest, hright, hfront⟩ := mem_visible hy
      exact .rule hr hright (fun z hz => mem_nullable_iff_vanishes.1 (hfront z hz)) (hs y a ha)
  · obtain ⟨rfl, hterm⟩ := h.mem_firstStart ha
    exact .terminal hterm

/-- Before a string is rewritten it begins with all that it begins with afterwards. -/
theorem mem_before_of_rewrites (hstep : g.Rewrites xs ys) {s : TerminalSet}
    (ha : a ∈ g.firstSets.before ys s) : a ∈ g.firstSets.before xs s := by
  obtain @⟨id, r, front, rest, hr⟩ := hstep
  rw [FirstSets.before_append, FirstSets.mem_before] at ha ⊢
  rcases ha with ha | ⟨hfront, ha⟩
  · exact .inl ha
  · refine .inr ⟨hfront, FirstSets.mem_before_cons.2 ?_⟩
    rw [FirstSets.before_append, FirstSets.mem_before] at ha
    rcases ha with ha | ⟨hright, ha⟩
    · exact .inl (h.ofSymbol_head hr ha)
    · exact .inr ⟨head_mem_nullable hr hright, ha⟩

/-- The first terminals of a string are those that a string it is rewritten to begins with. -/
theorem mem_before_iff_rewrites : a ∈ g.firstSets.before xs ∅ ↔
    g.isTerminal a = true ∧ ∃ rest, ReflTransGen g.Rewrites xs (a :: rest) := by
  constructor
  · intro ha
    obtain ⟨front, x, rest, rfl, hfront, hx⟩ := FirstSets.exists_front ha
    obtain ⟨hterm, rest', hrewrites⟩ := (h.begins_of_mem_ofSymbol hx).rewrites
    have hvanish := rewrites_within
      (rewrites_nil_of_forall fun y hy => mem_nullable_iff_rewrites.1 (hfront y hy)) [] (x :: rest)
    exact ⟨hterm, rest' ++ rest, hvanish.trans (rewrites_within hrewrites [] rest)⟩
  · rintro ⟨hterm, rest, hrewrites⟩
    induction hrewrites using ReflTransGen.head_induction_on with
    | refl => exact FirstSets.mem_before_cons.2 (.inl ((h.mem_ofSymbol_terminal hterm).2 rfl))
    | head hstep _ ih => exact h.mem_before_of_rewrites hstep ih

theorem mem_ofSymbol_iff_rewrites : a ∈ g.firstSets.ofSymbol x ↔
    g.isTerminal a = true ∧ ∃ rest, ReflTransGen g.Rewrites [x] (a :: rest) := by
  rw [← h.mem_before_iff_rewrites, FirstSets.mem_before_cons]
  exact ⟨.inl, fun ha => ha.elim id fun ha => absurd ha.2 (OrdSet.not_mem_empty a)⟩

end Lawful

/-! ### Strings that can be followed up to a terminal -/

/-- A string that is rewritten to nothing or to some string that begins with a terminal. -/
def Opens (g : Grammar) (xs : List SymbolId) : Prop :=
  ∃ ys, ReflTransGen g.Rewrites xs ys ∧ ∀ y ∈ ys.head?, g.isTerminal y = true

theorem opens_nil : g.Opens [] := ⟨[], .refl, by simp⟩

theorem opens_of_forall (h : ∀ x ∈ xs, g.Opens [x]) : g.Opens xs := by
  induction xs with
  | nil => exact opens_nil
  | cons x xs ih =>
    obtain ⟨ys, hx, hhead⟩ := h x List.mem_cons_self
    have hstart := rewrites_within hx [] xs
    cases ys with
    | nil =>
      obtain ⟨zs, hxs, hzs⟩ := ih fun y hy => h y (List.mem_cons_of_mem x hy)
      exact ⟨zs, hstart.trans hxs, hzs⟩
    | cons y ys => exact ⟨_, hstart, hhead⟩

namespace Lawful

variable (h : g.Lawful)
include h

theorem opens_iff : g.Opens xs ↔
    (∀ x ∈ xs, x ∈ g.nullable) ∨ ∃ a, a ∈ g.firstSets.before xs ∅ := by
  constructor
  · rintro ⟨ys, hrewrites, hhead⟩
    cases ys with
    | nil => exact .inl (nullable_of_rewrites hrewrites)
    | cons a rest => exact .inr ⟨a, h.mem_before_iff_rewrites.2 ⟨hhead a rfl, rest, hrewrites⟩⟩
  · rintro (hxs | ⟨a, ha⟩)
    · exact ⟨[], rewrites_nil_of_forall fun x hx => mem_nullable_iff_rewrites.1 (hxs x hx),
        by simp⟩
    · obtain ⟨hterm, rest, hrewrites⟩ := h.mem_before_iff_rewrites.1 ha
      exact ⟨a :: rest, hrewrites, by simpa using hterm⟩

/-- If a string opens, some terminal may come first in it and the terminal behind it. -/
theorem exists_mem_ofWord {l : SymbolId} (hl : g.isTerminal l = true) (hxs : g.Opens xs) :
    ∃ a, a ∈ g.firstSets.ofWord xs l := by
  rcases h.opens_iff.1 hxs with hnull | ⟨a, ha⟩
  · exact ⟨l, FirstSets.mem_before.2 (.inr ⟨hnull, (h.mem_ofSymbol_terminal hl).2 rfl⟩)⟩
  · exact ⟨a, FirstSets.mem_before.2 (.inl ha)⟩

end Lawful

/-! ### The sets are exact -/

/-- The first terminals of a string with a symbol behind it. -/
theorem Lawful.mem_ofWord_iff_rewrites (h : g.Lawful) : a ∈ g.firstSets.ofWord front x ↔
    g.isTerminal a = true ∧ ∃ rest, ReflTransGen g.Rewrites (front ++ [x]) (a :: rest) := by
  rw [FirstSets.mem_ofWord_iff, h.mem_before_iff_rewrites]

/-- The first terminals before any rule has passed some on: a terminal has itself. -/
def firstStart (g : Grammar) : Array TerminalSet :=
  g.symbols.map fun s => if s.isTerminal then OrdSet.singleton s.id else ∅

/-- The rounds that find the nullable symbols and the first terminals of a defined grammar come to
an end. What they find is exact: a symbol is nullable if and only if it is rewritten to nothing, and
a terminal is one of the first of a string if and only if the string is rewritten to
one that begins with it, which may hold nonterminals that lead to no terminal string. -/
theorem Defined.firstSets_exact (hg : g.Defined) :
    Settles g.addNullable ∅ g.firstSets.nullable ∧
    Settles (passFirst g.firstEdges) g.firstStart g.firstSets.first ∧
    (∀ x, g.firstSets.isNullable x = true ↔ ReflTransGen g.Rewrites [x] []) ∧
    ∀ front x a, a ∈ g.firstSets.ofWord front x ↔
      g.isTerminal a = true ∧ ∃ rest, ReflTransGen g.Rewrites (front ++ [x]) (a :: rest) := by
  have h := hg.lawful
  refine ⟨?_, ?_, fun x => ?_, fun front x a => h.mem_ofWord_iff_rewrites⟩
  · exact settles_saturate g.addNullable_nullable
  · exact settles_saturate h.passFirst_first
  · rw [FirstSets.isNullable, decide_eq_true_iff]
    exact mem_nullable_iff_rewrites

end Grammar

namespace Samples

/-- Left recursion behind a symbol that only a virtual symbol stands for, and a nonterminal `U`
that leads to no terminal string and to no first terminal. -/
def headless : Define Unit := do
  let a ← Define.terminal "a"
  let b ← Define.terminal "b"
  let mark ← Define.virtual "MARK"
  let s ← Define.nonterminal "S"
  let m ← Define.nonterminal "M"
  let n ← Define.nonterminal "N"
  let u ← Define.nonterminal "U"
  let _ ← Define.rule s (kept [m, s, b])
  let _ ← Define.rule s (kept [n, u])
  let _ ← Define.rule m (kept [mark])
  let _ ← Define.rule n (kept [a])
  let _ ← Define.rule u (kept [u, b])

theorem headless_built : Define.Built headless := by
  unfold headless
  repeat' first | intro _ | constructor

/-- `M` is rewritten to nothing and `S` is not; `M S` is rewritten to a string that begins with
`a`, though to no string of terminals, and `M U` to none that begins with a terminal. -/
theorem headless_firstSets_exact : ∃ g, Grammar.define headless = .ok g ∧
    ReflTransGen g.Rewrites [6] [] ∧ ¬ ReflTransGen g.Rewrites [5] [] ∧
    (∃ rest, ReflTransGen g.Rewrites ([6] ++ [5]) (2 :: rest)) ∧
    ∀ a, ¬ ∃ rest, g.isTerminal a = true ∧ ReflTransGen g.Rewrites ([6] ++ [8]) (a :: rest) := by
  have hok : ((Grammar.define headless).toOption.map fun g =>
      (g.firstSets.isNullable 6, g.firstSets.isNullable 5,
        (g.firstSets.ofWord [6] 5).toList, (g.firstSets.ofWord [6] 8).toList)) =
      some (true, false, [2], []) := by decide +kernel
  obtain ⟨g, hg, hok⟩ := Option.map_eq_some_iff.1 hok
  have hg := toOption_eq_some.1 hg
  obtain ⟨-, -, hnullable, hfirst⟩ :=
    Grammar.Defined.firstSets_exact ⟨headless, headless_built, hg⟩
  simp only [Prod.mk.injEq] at hok
  obtain ⟨hm, hs, hms, hmu⟩ := hok
  refine ⟨g, hg, (hnullable 6).1 hm, fun hnil => ?_, ((hfirst [6] 5 2).1 ?_).2, ?_⟩
  · rw [(hnullable 5).2 hnil] at hs
    cases hs
  · rw [← OrdSet.mem_toList, hms]
    exact List.mem_cons_self
  · rintro a ⟨rest, hterm, hrewrites⟩
    have hmem := (hfirst [6] 8 a).2 ⟨hterm, rest, hrewrites⟩
    rw [← OrdSet.mem_toList, hmu] at hmem
    cases hmem

end Samples

end BottomUp
