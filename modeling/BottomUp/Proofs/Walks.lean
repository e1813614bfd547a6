/-
# Walks down a graph of stacks

A walk follows edges from a node to nodes further down; the paths that a reduction
is made along are the walks of its length. As a parse goes on, the graph gets nodes, and
nodes get edges, but only those of the latest generation do: an older
node keeps the walks that it had.

A graph of so many nodes has so many edges at most, and whatever grows counts more of
them: a parse cannot add edges forever.

Key definitions: `StackGraph.Walk`, `StackGraph.Extends`, `StackGraph.edgeCount`.
Key theorems: `StackGraph.mem_paths`, `StackGraph.Walk.back`, `StackGraph.edgeCount_lt`,
`StackGraph.edgeCount_le`.
-/
import BottomUp.Parse.StackGraph
import Mathlib.Algebra.Order.BigOperators.Group.Finset
import Mathlib.Data.List.Perm.Subperm

namespace BottomUp

/-- A node that has become another by further edges, unless it is of a generation before `b`:
such nodes stay as they are. -/
structure StackNode.Within (b : Nat) (n n' : StackNode) : Prop where
  state : n'.state = n.state
  generation : n'.generation = n.generation
  edges : n.edges <+: n'.edges
  old : n.generation < b → n'.edges = n.edges

theorem StackNode.Within.refl (b : Nat) (n : StackNode) : n.Within b n :=
  ⟨rfl, rfl, List.prefix_refl _, fun _ => rfl⟩

theorem StackNode.Within.trans {b : Nat} {n n' n'' : StackNode} (h : n.Within b n')
    (h' : n'.Within b n'') : n.Within b n'' where
  state := h'.state.trans h.state
  generation := h'.generation.trans h.generation
  edges := h.edges.trans h'.edges
  old hlt := (h'.old (h.generation.symm ▸ hlt)).trans (h.old hlt)

/-- A list of different numbers below a bound is no longer than the bound. -/
theorem length_le_of_nodup {l : List Nat} (hl : l.Nodup) {bound : Nat}
    (hlt : ∀ x ∈ l, x < bound) : l.length ≤ bound := by
  have hsub : l ⊆ List.range bound := fun x hx => List.mem_range.2 (hlt x hx)
  calc l.length ≤ (List.range bound).length := (hl.subperm hsub).length_le
    _ = bound := List.length_range

namespace StackGraph

variable {G G' G'' : StackGraph} {u v : Nat} {n : StackNode}

/-- The node at a place, if there is one. -/
def node? (G : StackGraph) (id : Nat) : Option StackNode := G.nodes[id]?

theorem node_eq (h : G.node? u = some n) : G.node u = n := by
  have h : G.nodes[u]? = some n := h
  unfold node
  rw [Array.getD_eq_getD_getElem?, h, Option.getD_some]

theorem lt_size (h : G.node? u = some n) : u < G.nodes.size :=
  (Array.getElem?_eq_some_iff.1 h).1

theorem exists_node (h : u < G.nodes.size) : ∃ n, G.node? u = some n :=
  ⟨_, Array.getElem?_eq_getElem h⟩

/-- Only nodes that are there have edges. -/
theorem node?_of_mem_edges {e : StackEdge} (he : e ∈ (G.node u).edges) :
    ∃ n, G.node? u = some n ∧ e ∈ n.edges := by
  cases hu : G.node? u with
  | some n =>
    rw [node_eq hu] at he
    exact ⟨n, rfl, he⟩
  | none =>
    have hu : G.nodes[u]? = none := hu
    unfold node at he
    rw [Array.getD_eq_getD_getElem?, hu] at he
    cases he

/-! ### Walks -/

/-- A walk from a node down to another, with the labels of its edges from the far end to the
near one. -/
inductive Walk (G : StackGraph) : Nat → List ForestId → Nat → Prop
  | nil {u : Nat} : Walk G u [] u
  | cons {u v : Nat} {n : StackNode} {e : StackEdge} {labels : List ForestId} :
      G.node? u = some n → e ∈ n.edges → Walk G e.target labels v →
      Walk G u (labels ++ [e.label]) v

theorem Walk.trans {w : Nat} {labels labels' : List ForestId} (h : G.Walk u labels v)
    (h' : G.Walk v labels' w) : G.Walk u (labels' ++ labels) w := by
  induction h with
  | nil => rwa [List.append_nil]
  | cons hn he _ ih =>
    rw [← List.append_assoc]
    exact .cons hn he (ih h')

/-- The paths from a node are the walks of their length. -/
theorem mem_paths : ∀ {length u : Nat} {labels : List ForestId} {v : Nat},
    (labels, v) ∈ G.paths length u ↔ G.Walk u labels v ∧ labels.length = length
  | 0, u, labels, v => by
    have hpaths : (labels, v) ∈ G.paths 0 u ↔ labels = [] ∧ v = u := by
      simp [paths, Prod.ext_iff]
    rw [hpaths]
    constructor
    · rintro ⟨rfl, rfl⟩
      exact ⟨.nil, rfl⟩
    · rintro ⟨hwalk, hlen⟩
      cases hwalk with
      | nil => exact ⟨rfl, rfl⟩
      | cons _ _ _ => simp at hlen
  | length + 1, u, labels, v => by
    have hpaths : (labels, v) ∈ G.paths (length + 1) u ↔ ∃ e ∈ (G.node u).edges, ∃ labels',
        (labels', v) ∈ G.paths length e.target ∧ labels = labels' ++ [e.label] := by
      simp only [paths, List.mem_flatMap, List.mem_reverse, List.mem_map, Prod.exists,
        Prod.mk.injEq]
      constructor
      · rintro ⟨e, he, labels', v', hmem, rfl, rfl⟩
        exact ⟨e, he, labels', hmem, rfl⟩
      · rintro ⟨e, he, labels', hmem, rfl⟩
        exact ⟨e, he, labels', v, hmem, rfl, rfl⟩
    rw [hpaths]
    constructor
    · rintro ⟨e, he, labels', hmem, rfl⟩
      obtain ⟨hwalk, hlen⟩ := mem_paths.1 hmem
      obtain ⟨n, hn, he⟩ := node?_of_mem_edges he
      exact ⟨.cons hn he hwalk, by rw [List.length_append, hlen, List.length_singleton]⟩
    · rintro ⟨hwalk, hlen⟩
      cases hwalk with
      | nil => simp at hlen
      | @cons _ _ n e labels' hn he hwalk =>
        rw [List.length_append, List.length_singleton] at hlen
        refine ⟨e, ?_, labels', mem_paths.2 ⟨hwalk, Nat.succ.inj hlen⟩, rfl⟩
        rwa [node_eq hn]

/-! ### Growing -/

/-- Nodes stay where they are and only get more edges, those before generation `b` none. -/
structure Extends (b : Nat) (G G' : StackGraph) : Prop where
  node : ∀ {u : Nat} {n : StackNode}, G.node? u = some n →
    ∃ n', G'.node? u = some n' ∧ n.Within b n'

/-- Edges lead to nodes that are there, of no later generation. -/
def Descends (G : StackGraph) : Prop :=
  ∀ {u : Nat} {n : StackNode}, G.node? u = some n → ∀ e ∈ n.edges,
    ∃ n', G.node? e.target = some n' ∧ n'.generation ≤ n.generation

theorem Extends.refl (b : Nat) (G : StackGraph) : G.Extends b G :=
  ⟨fun {_ n} hn => ⟨n, hn, .refl b n⟩⟩

theorem Extends.trans {b : Nat} (h : G.Extends b G') (h' : G'.Extends b G'') :
    G.Extends b G'' where
  node hn := by
    obtain ⟨n', hn', hwithin⟩ := h.node hn
    obtain ⟨n'', hn'', hwithin'⟩ := h'.node hn'
    exact ⟨n'', hn'', hwithin.trans hwithin'⟩

/-- Walks stay. -/
theorem Walk.mono {b : Nat} (h : G.Extends b G') {labels : List ForestId}
    (hwalk : G.Walk u labels v) : G'.Walk u labels v := by
  induction hwalk with
  | nil => exact .nil
  | cons hn he _ ih =>
    obtain ⟨n', hn', hwithin⟩ := h.node hn
    exact .cons hn' (hwithin.edges.subset he) ih

/-- From a node of a generation before `b` there are no new walks. -/
theorem Walk.back {b : Nat} (hG : G.Descends) (h : G.Extends b G') {labels : List ForestId}
    (hwalk : G'.Walk u labels v) :
    ∀ {n : StackNode}, G.node? u = some n → n.generation < b → G.Walk u labels v := by
  induction hwalk with
  | nil => exact fun _ _ => .nil
  | cons hn' he _ ih =>
    intro n hn hlt
    obtain ⟨n₁, hn₁, hwithin⟩ := h.node hn
    rw [hn'] at hn₁
    cases hn₁
    rw [hwithin.old hlt] at he
    obtain ⟨below, hbelow, hle⟩ := hG hn _ he
    exact .cons hn he (ih hbelow (Nat.lt_of_le_of_lt hle hlt))

/-! ### Nodes and edges added -/

theorem node?_addNode (G : StackGraph) (state : StateId) (generation : Nat) :
    (G.addNode state generation).2.node? u =
      if u = G.nodes.size then some ⟨state, generation, []⟩ else G.node? u := by
  unfold addNode node?
  rw [Array.getElem?_push]

theorem linked_iff (hn : G.node? u = some n) :
    G.linked u v = true ↔ ∃ e ∈ n.edges, e.target = v := by
  unfold linked
  rw [node_eq hn]
  simp

theorem addEdge_linked {label : ForestId} (h : G.linked u v = true) :
    G.addEdge u v label = (false, G) := by
  unfold addEdge
  rw [if_pos h]

theorem addEdge_fst {label : ForestId} (h : G.linked u v = false) :
    (G.addEdge u v label).1 = true := by
  simp [addEdge, h]

theorem node?_addEdge {label : ForestId} (hn : G.node? u = some n) (h : G.linked u v = false)
    (w : Nat) : (G.addEdge u v label).2.node? w =
      if w = u then some { n with edges := n.edges ++ [⟨v, label⟩] } else G.node? w := by
  have hn : G.nodes[u]? = some n := hn
  simp only [addEdge, h, Bool.false_eq_true, if_false, node?, Array.getElem?_modify]
  by_cases hw : w = u
  · subst hw
    rw [if_pos rfl, if_pos rfl, hn]
    rfl
  · rw [if_neg hw, if_neg (Ne.symm hw)]

/-- A node with one edge is put behind the others. -/
theorem node?_addTop (G : StackGraph) (state : StateId) (generation v : Nat) (label : ForestId)
    (w : Nat) : ((G.addNode state generation).2.addEdge G.nodes.size v label).2.node? w =
      if w = G.nodes.size then some ⟨state, generation, [⟨v, label⟩]⟩ else G.node? w := by
  have hfresh : (G.addNode state generation).2.node? G.nodes.size =
      some ⟨state, generation, []⟩ := by
    rw [node?_addNode, if_pos rfl]
  have hlinked : (G.addNode state generation).2.linked G.nodes.size v = false := by
    refine Bool.eq_false_iff.2 fun hl => ?_
    obtain ⟨e, he, -⟩ := (linked_iff hfresh).1 hl
    cases he
  rw [node?_addEdge hfresh hlinked, node?_addNode]
  by_cases hw : w = G.nodes.size
  · rw [if_pos hw, if_pos hw]
    rfl
  · rw [if_neg hw, if_neg hw, if_neg hw]

theorem node?_size (G : StackGraph) : G.node? G.nodes.size = none :=
  Array.getElem?_size

/-! ### Counting edges -/

/-- How many edges there are. -/
def edgeCount (G : StackGraph) : Nat :=
  ∑ u ∈ Finset.range G.nodes.size, (G.node u).edges.length

theorem Extends.size_le {b : Nat} (h : G.Extends b G') : G.nodes.size ≤ G'.nodes.size := by
  by_contra hlt
  obtain ⟨n, hn⟩ := exists_node (Nat.lt_of_not_le hlt)
  obtain ⟨n', hn', -⟩ := h.node hn
  exact Nat.lt_irrefl _ (lt_size hn')

theorem Extends.length_edges_le {b : Nat} (h : G.Extends b G') (hu : u < G.nodes.size) :
    (G.node u).edges.length ≤ (G'.node u).edges.length := by
  obtain ⟨n, hn⟩ := exists_node hu
  obtain ⟨n', hn', hwithin⟩ := h.node hn
  rw [node_eq hn, node_eq hn']
  exact hwithin.edges.length_le

theorem Extends.edgeCount_le {b : Nat} (h : G.Extends b G') : G.edgeCount ≤ G'.edgeCount :=
  calc G.edgeCount
      ≤ ∑ u ∈ Finset.range G.nodes.size, (G'.node u).edges.length :=
        Finset.sum_le_sum fun _ hu => h.length_edges_le (Finset.mem_range.1 hu)
    _ ≤ G'.edgeCount :=
        Finset.sum_le_sum_of_subset (Finset.range_subset_range.2 h.size_le)

/-- If a node that was there has got an edge, there are more edges. -/
theorem edgeCount_lt {b : Nat} (h : G.Extends b G') {n n' : StackNode} (hn : G.node? u = some n)
    (hn' : G'.node? u = some n') (hlt : n.edges.length < n'.edges.length) :
    G.edgeCount < G'.edgeCount :=
  calc G.edgeCount
      < ∑ u ∈ Finset.range G.nodes.size, (G'.node u).edges.length := by
        refine Finset.sum_lt_sum (fun _ hu => h.length_edges_le (Finset.mem_range.1 hu))
          ⟨u, Finset.mem_range.2 (lt_size hn), ?_⟩
        rwa [node_eq hn, node_eq hn']
    _ ≤ G'.edgeCount :=
        Finset.sum_le_sum_of_subset (Finset.range_subset_range.2 h.size_le)

/-- With one edge at most from a node to another, there are no more edges than pairs of nodes. -/
theorem edgeCount_le (hG : G.Descends)
    (hnodup : ∀ {u n}, G.node? u = some n → (n.edges.map (·.target)).Nodup) :
    G.edgeCount ≤ G.nodes.size * G.nodes.size := by
  have hle : ∀ u ∈ Finset.range G.nodes.size, (G.node u).edges.length ≤ G.nodes.size := by
    intro u hu
    obtain ⟨n, hn⟩ := exists_node (Finset.mem_range.1 hu)
    rw [node_eq hn, ← List.length_map (·.target)]
    refine length_le_of_nodup (hnodup hn) fun v hv => ?_
    obtain ⟨e, he, rfl⟩ := List.mem_map.1 hv
    obtain ⟨n', hn', -⟩ := hG hn e he
    exact lt_size hn'
  calc G.edgeCount ≤ (Finset.range G.nodes.size).card • G.nodes.size :=
        Finset.sum_le_card_nsmul _ _ _ hle
    _ = G.nodes.size * G.nodes.size := by
        rw [Finset.card_range]
        rfl

end StackGraph

end BottomUp
