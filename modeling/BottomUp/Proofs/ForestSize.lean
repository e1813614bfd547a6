/-
# The size of a forest

A parse makes nodes for few symbols and spans, whatever the number of derivations: a declared
nonterminal over a span of what has been read, a virtual symbol at a position, a token where it
stands. This holds of each session that a parse may go through, of nodes on abandoned
stacks as of others, and does not depend on the order of the reductions. As no two nodes have the
same symbol and span, the forest is no larger than the list of these cells, which is
quadratic in the length of the input.

Key definitions: `Forest.spans`, `Grammar.cells`.
Key theorems: `Session.Reached.mem_cells`, `Grammar.length_cells_le`,
`Grammar.Defined.forest_size_le`.
-/
import BottomUp.Proofs.Coherence

namespace BottomUp

/-! ### Cells -/

/-- The spans of the first `k` tokens. -/
def Forest.spans (k : Nat) : List (Nat × Nat) :=
  (List.range (k + 1)).flatMap fun stop => (List.range (stop + 1)).map fun start => (start, stop)

theorem Forest.mem_spans {k : Nat} {p : Nat × Nat} :
    p ∈ Forest.spans k ↔ p.1 ≤ p.2 ∧ p.2 ≤ k := by
  obtain ⟨start, stop⟩ := p
  simp only [Forest.spans, List.mem_flatMap, List.mem_map, List.mem_range, Nat.lt_succ_iff]
  constructor
  · rintro ⟨j, hj, i, hi, heq⟩
    cases heq
    exact ⟨hi, hj⟩
  · rintro ⟨hle, hk⟩
    exact ⟨stop, hk, start, hle, rfl⟩

theorem Forest.length_spans (k : Nat) : (Forest.spans k).length = (k + 1) * (k + 2) / 2 := by
  have htwice : 2 * (Forest.spans k).length = (k + 1) * (k + 2) := by
    induction k with
    | zero => rfl
    | succ k ih =>
      have hlast : (Forest.spans (k + 1)).length = (Forest.spans k).length + (k + 2) := by
        simp [Forest.spans, List.range_succ (n := k + 1)]
      rw [hlast, Nat.mul_add, ih]
      ring
  omega

namespace Grammar

/-- The nonterminals that were declared: all but the goal. -/
def declaredNonterminals (g : Grammar) : List Symbol :=
  (g.ofKind .nonterminal).filter (·.id ≠ SymbolId.goal)

/-- The symbols and spans that there may be nodes for after `k` tokens. -/
def cells (g : Grammar) (ts : List Token) (k : Nat) : List PackingKey :=
  (g.declaredNonterminals.flatMap fun s => (Forest.spans k).map fun p => ⟨s.id, p.1, p.2⟩) ++
    ((g.ofKind .virtual).flatMap fun s => (List.range (k + 1)).map fun p => ⟨s.id, p, p⟩) ++
      (ts.take k).zipIdx.map fun t => ⟨t.1.symbol, t.2, t.2 + 1⟩

variable {g : Grammar} {ts : List Token} {k : Nat} {key : PackingKey}

theorem mem_ofKind {kind : Kind} {s : Symbol} (hs : g.symbol? s.id = some s)
    (hkind : s.kind = kind) : s ∈ g.ofKind kind :=
  List.mem_filter.2 ⟨Array.mem_toList_iff.2 (Array.mem_of_getElem? hs), decide_eq_true hkind⟩

theorem mem_cells : key ∈ g.cells ts k ↔
    (key.start ≤ key.stop ∧ key.stop ≤ k ∧ ∃ s ∈ g.declaredNonterminals, s.id = key.symbol) ∨
      (key.stop = key.start ∧ key.stop ≤ k ∧ ∃ s ∈ g.ofKind .virtual, s.id = key.symbol) ∨
      (key.stop = key.start + 1 ∧ key.stop ≤ k ∧
        ∃ token, ts[key.start]? = some token ∧ token.symbol = key.symbol) := by
  obtain ⟨x, start, stop⟩ := key
  simp only [cells, List.mem_append, List.mem_flatMap, List.mem_map, Forest.mem_spans,
    List.mem_range, Nat.lt_succ_iff, Prod.exists, PackingKey.mk.injEq, or_assoc,
    List.mem_zipIdx_iff_getElem?, List.getElem?_take]
  refine or_congr ?_ (or_congr ?_ ?_) <;> constructor
  · rintro ⟨s, hs, _, _, ⟨hle, hk⟩, rfl, rfl, rfl⟩
    exact ⟨hle, hk, s, hs, rfl⟩
  · rintro ⟨hle, hk, s, hs, rfl⟩
    exact ⟨s, hs, start, stop, ⟨hle, hk⟩, rfl, rfl, rfl⟩
  · rintro ⟨s, hs, p, hk, rfl, rfl, rfl⟩
    exact ⟨rfl, hk, s, hs, rfl⟩
  · rintro ⟨rfl, hk, s, hs, rfl⟩
    exact ⟨s, hs, stop, hk, rfl, rfl, rfl⟩
  · rintro ⟨token, p, htoken, rfl, rfl, rfl⟩
    split at htoken
    · next hlt => exact ⟨rfl, hlt, token, htoken, rfl⟩
    · cases htoken
  · rintro ⟨rfl, hk, token, htoken, rfl⟩
    exact ⟨token, start, by rw [if_pos (Nat.lt_of_succ_le hk), htoken], rfl, rfl, rfl⟩

/-- There are as many cells as symbols have spans. -/
theorem length_cells_le : (g.cells ts k).length ≤
    g.declaredNonterminals.length * ((k + 1) * (k + 2) / 2) +
      (g.ofKind .virtual).length * (k + 1) + k := by
  simp only [cells, List.length_append, List.length_flatMap, List.length_map, Forest.length_spans,
    List.length_range, List.map_const', List.sum_replicate_nat, List.length_zipIdx,
    List.length_take]
  omega

end Grammar

/-! ### Nodes -/

/-- No more nodes than keys that there may be nodes for. -/
theorem Forest.Only.size_le {f : Forest} {keys : List PackingKey} (hf : f.Distinct)
    (hkeys : f.Only (· ∈ keys)) : f.size ≤ keys.length := by
  have hnode : ∀ {i : Nat} {key : PackingKey},
      (f.nodes.toList.map (·.key))[i]? = some key → ∃ n, f.node? i = some n ∧ n.key = key := by
    intro i key hi
    rw [List.getElem?_map, Array.getElem?_toList] at hi
    exact Option.map_eq_some_iff.1 hi
  have hnodup : (f.nodes.toList.map (·.key)).Nodup := by
    rw [List.nodup_iff_getElem?_ne_getElem?]
    intro i j hlt hj heq
    obtain ⟨n, hn, hkey⟩ := hnode (List.getElem?_eq_getElem hj)
    obtain ⟨n', hn', hkey'⟩ := hnode (heq.trans (List.getElem?_eq_getElem hj))
    exact Nat.ne_of_lt hlt (hf hn' hn (hkey'.trans hkey.symm))
  have hsubset : f.nodes.toList.map (·.key) ⊆ keys := by
    intro key hmem
    obtain ⟨n, hn, rfl⟩ := List.mem_map.1 hmem
    obtain ⟨i, hi⟩ := Array.mem_iff_getElem?.1 (Array.mem_toList_iff.1 hn)
    exact hkeys hi
  calc f.size = (f.nodes.toList.map (·.key)).length := by rw [List.length_map]; rfl
    _ ≤ keys.length := hnodup.length_le_of_subset hsubset

namespace Session

variable {g : Grammar} {m : Method} {a : Automaton} {c : Control} {ts : List Token} {k : Nat}
  {s : Session}

/-- Whatever a parse goes through, its nodes are for declared nonterminals over spans of what has
been read, virtual symbols at positions, and tokens. -/
theorem Reached.mem_cells (hc : c.Projected g m a) (h : Reached c ts k s) :
    s.forest.Only (· ∈ g.cells ts k) := by
  refine h.only hc (P := fun k key => key ∈ g.cells ts k) (fun k key hmem => ?_)
    (fun k key hmem => ?_) (fun hr e he hparsed k p hp => ?_) (fun {id r} hr hid k p hp => ?_)
    fun {k token symbol} htoken hsymbol => ?_
  -- what has been read grows, and no node reaches beyond it
  · rw [Grammar.mem_cells] at hmem ⊢
    have hle : key.stop ≤ k → key.stop ≤ k + 1 := Nat.le_succ_of_le
    exact hmem.imp (And.imp_right (And.imp_left hle))
      (Or.imp (And.imp_right (And.imp_left hle)) (And.imp_right (And.imp_left hle)))
  · rcases Grammar.mem_cells.1 hmem with ⟨-, hle, -⟩ | ⟨-, hle, -⟩ | ⟨-, hle, -⟩ <;> exact hle
  -- the nodes that are made: for virtual symbols, for heads of rules, for tokens
  · have hkind : e.symbol.kind = .virtual := by simpa [Symbol.isParsed] using hparsed
    have hvirtual := Grammar.mem_ofKind (hc.lawful.body hr he).found hkind
    exact Grammar.mem_cells.2 (.inr (.inl ⟨rfl, hp, e.symbol, hvirtual, rfl⟩))
  · have hhead := hc.lawful.rules hr hid
    have hdeclared : r.head ∈ g.declaredNonterminals := List.mem_filter.2
      ⟨Grammar.mem_ofKind hhead.head.found hhead.nonterminal, decide_eq_true hhead.head.ne_goal⟩
    exact Grammar.mem_cells.2 (.inl ⟨hp, Nat.le_refl k, r.head, hdeclared, rfl⟩)
  · have hid := hc.lawful.symbol_id hsymbol
    exact Grammar.mem_cells.2 (.inr (.inr ⟨rfl, Nat.le_refl _, token, htoken, hid.symm⟩))

theorem Reached.size_le (hc : c.Projected g m a) (h : Reached c ts k s) : s.forest.size ≤
    g.declaredNonterminals.length * ((k + 1) * (k + 2) / 2) +
      (g.ofKind .virtual).length * (k + 1) + k :=
  ((h.mem_cells hc).size_le (h.lawful hc).forest.distinct).trans Grammar.length_cells_le

end Session

/-- The forest of a parse, and of each session that the parse may go through, is of a size that is
quadratic in the number of tokens read, with the numbers of declared nonterminals and of virtual
symbols for factors. -/
theorem Grammar.Defined.forest_size_le {g : Grammar} (hg : g.Defined) {m : Method}
    {a : Automaton} (ha : Automaton.build g m = .ok a) {mode : Mode} {t : Table}
    (ht : Table.generate g a mode = .ok t) (ts : List Token) :
    (∀ k s, Session.Reached t.control ts k s → s.forest.size ≤
      g.declaredNonterminals.length * ((k + 1) * (k + 2) / 2) +
        (g.ofKind .virtual).length * (k + 1) + k) ∧
    ∀ steps p, parseForest t.control steps ts = .ok p → p.forest.size ≤
      g.declaredNonterminals.length * ((ts.length + 1) * (ts.length + 2) / 2) +
        (g.ofKind .virtual).length * (ts.length + 1) + ts.length := by
  have hc := hg.projected ha ht
  refine ⟨fun k s hs => hs.size_le hc, fun steps p hok => ?_⟩
  obtain ⟨s, hs, hforest⟩ := (Session.Reached.run hc List.drop_zero .start).1 p hok
  exact hforest ▸ hs.size_le hc

namespace Samples

/-- The cyclic sample has infinitely many derivations, and the bound for its two tokens is eight. -/
theorem cyclic_forest_size_le : ∃ g a t p, Grammar.define cyclic = .ok g ∧
    Automaton.build g .lalr = .ok a ∧ Table.generate g a .generalized = .ok t ∧
    parseForest t.control 20 cyclicTokens = .ok p ∧ p.forest.Leads p.root p.root ∧
    p.forest.size ≤ 8 := by
  obtain ⟨g, a, t, p, hg, hdefined, ha, ht, hp, -, -, hleads⟩ := cyclic_parses
  have hsize := (Grammar.Defined.forest_size_le hdefined ha ht cyclicTokens).2 20 p hp
  have hcounts : (Grammar.define cyclic).toOption.map (fun g =>
      (g.declaredNonterminals.length, (g.ofKind .virtual).length)) = some (1, 0) := by
    decide +kernel
  rw [hg] at hcounts
  obtain ⟨hnonterminals, hvirtuals⟩ := Prod.mk.inj (Option.some.inj hcounts)
  rw [hnonterminals, hvirtuals] at hsize
  exact ⟨g, a, t, p, hg, ha, ht, hp, hleads, hsize⟩

end Samples

end BottomUp
