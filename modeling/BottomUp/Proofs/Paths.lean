/-
# Every walk once

The paths of a reduction are searched for with a stack of walks that are still to be gone on with: a
walk that is long enough is one of those found, and from the end of a shorter one each edge is
followed. The graph may lead in circles, but no walk gets longer than was asked for, so the steps of
the search are the walks of at most so many edges. What it finds are the walks of that length, told
apart by their edges: each of them once, although different walks may bear the same labels to the
same end.

Key definitions: `StackGraph.Built`, `StackGraph.Follows`, `StackGraph.search`,
`StackGraph.walkCount`, `StackGraph.routes`, `StackGraph.Proper`.
Key theorems: `StackGraph.search_paths`, `StackGraph.mem_routes`,
`StackGraph.Built.nodup_routes`, `StackGraph.Built.paths_exact`.
-/
import BottomUp.Proofs.Walks

namespace BottomUp
namespace StackGraph

/-- The graphs that come of adding nodes, and edges between nodes that are there. -/
inductive Built : StackGraph → Prop
  | empty : Built .empty
  | node {G : StackGraph} (state : StateId) (generation : Nat) :
      Built G → Built (G.addNode state generation).2
  | edge {G : StackGraph} {source target : Nat} (label : ForestId) :
      Built G → source < G.nodes.size → target < G.nodes.size →
      Built (G.addEdge source target label).2

/-- Some edges lead from a node to another, the near one first. -/
inductive Follows (G : StackGraph) : Nat → List StackEdge → Nat → Prop
  | nil {u : Nat} : Follows G u [] u
  | cons {u v : Nat} {n : StackNode} {e : StackEdge} {es : List StackEdge} :
      G.node? u = some n → e ∈ n.edges → Follows G e.target es v → Follows G u (e :: es) v

/-- The search for the walks of a length with a stack of walks begun. The topmost one is taken: if
it is long enough it is one of those looked for, or else it is continued along each edge of
its end. -/
def search (G : StackGraph) (length : Nat) :
    (steps : Nat) → (begun : List (List ForestId × Nat)) → Option (List (List ForestId × Nat))
  | _, [] => some []
  | 0, _ :: _ => none
  | steps + 1, (labels, u) :: begun =>
    if labels.length = length then (G.search length steps begun).map ((labels, u) :: ·)
    else G.search length steps
      (((G.node u).edges.reverse.map fun e => (e.label :: labels, e.target)) ++ begun)

/-- The number of walks of at most so many edges from a node. -/
def walkCount (G : StackGraph) : (length : Nat) → (source : Nat) → Nat
  | 0, _ => 1
  | length + 1, source =>
    ((G.node source).edges.reverse.map fun e => G.walkCount length e.target).sum + 1

/-- The walks of `length` edges from a node, those along later edges first: the edges from the near
end to the far one, and the node at the far end. -/
def routes (G : StackGraph) : (length : Nat) → (source : Nat) → List (List StackEdge × Nat)
  | 0, source => [([], source)]
  | length + 1, source =>
    (G.node source).edges.reverse.flatMap fun e =>
      (G.routes length e.target).map fun (es, far) => (e :: es, far)

variable {G : StackGraph} {u v length : Nat} {n : StackNode}

/-! ### What additions keep -/

/-- One edge at most leads from a node to another, and it leads to a node that is there. -/
structure Proper (G : StackGraph) : Prop where
  nodup : ∀ {u : Nat} {n : StackNode}, G.node? u = some n → (n.edges.map (·.target)).Nodup
  target_lt : ∀ {u : Nat} {n : StackNode}, G.node? u = some n → ∀ e ∈ n.edges,
    e.target < G.nodes.size

theorem Proper.empty : Proper .empty where
  nodup hn := nomatch hn
  target_lt hn := nomatch hn

theorem Proper.addNode (hG : G.Proper) (state : StateId) (generation : Nat) :
    (G.addNode state generation).2.Proper := by
  have hsize : (G.addNode state generation).2.nodes.size = G.nodes.size + 1 := Array.size_push ..
  refine ⟨fun {u n} hn => ?_, fun {u n} hn e he => ?_⟩ <;> rw [node?_addNode] at hn <;>
    split at hn
  · cases hn
    exact List.nodup_nil
  · exact hG.nodup hn
  · cases hn
    cases he
  · rw [hsize]
    exact Nat.lt_succ_of_lt (hG.target_lt hn e he)

theorem Proper.addEdge (hG : G.Proper) {source target : Nat} (hsource : source < G.nodes.size)
    (htarget : target < G.nodes.size) (label : ForestId) :
    (G.addEdge source target label).2.Proper := by
  cases hlinked : G.linked source target with
  | true => rwa [addEdge_linked hlinked]
  | false =>
    obtain ⟨m, hm⟩ := exists_node hsource
    have hsize : (G.addEdge source target label).2.nodes.size = G.nodes.size := by
      simp [StackGraph.addEdge, hlinked]
    refine ⟨fun {u n} hn => ?_, fun {u n} hn e he => ?_⟩ <;>
      rw [node?_addEdge hm hlinked] at hn <;> split at hn
    · cases hn
      -- a target that is linked already would have kept the edge from being added
      have hout : target ∉ m.edges.map (·.target) := fun hmem => by
        obtain ⟨e, he, htarget⟩ := List.mem_map.1 hmem
        exact Bool.eq_false_iff.1 hlinked ((linked_iff hm).2 ⟨e, he, htarget⟩)
      rw [List.map_append, List.map_singleton, ← List.concat_eq_append]
      exact (hG.nodup hm).concat hout
    · exact hG.nodup hn
    · cases hn
      rw [hsize]
      rcases List.mem_append.1 he with he | he
      · exact hG.target_lt hm e he
      · rwa [List.mem_singleton.1 he]
    · rw [hsize]
      exact hG.target_lt hn e he

theorem Built.proper (hG : G.Built) : G.Proper := by
  induction hG with
  | empty => exact .empty
  | node state generation _ ih => exact ih.addNode state generation
  | edge label _ hsource htarget ih => exact ih.addEdge hsource htarget label

/-- No edge is listed twice. -/
theorem Built.nodup_edges (hG : G.Built) (u : Nat) : (G.node u).edges.Nodup := by
  cases hn : G.node? u with
  | some n =>
    rw [node_eq hn]
    exact (hG.proper.nodup hn).of_map _
  | none =>
    have hempty : (G.node u).edges = [] := List.eq_nil_iff_forall_not_mem.2 fun e he => by
      obtain ⟨n, hn', -⟩ := node?_of_mem_edges he
      cases hn.symm.trans hn'
    rw [hempty]
    exact List.nodup_nil

/-! ### The search -/

/-- A walk begun takes a step for each of its continuations up to the length, and gives those of
that length. -/
theorem search_cons : ∀ (rest : Nat) {labels : List ForestId} {u steps : Nat}
    {begun : List (List ForestId × Nat)}, labels.length + rest = length →
    G.search length (G.walkCount rest u + steps) ((labels, u) :: begun) =
      (G.search length steps begun).map
        ((G.paths rest u).map (fun p => (p.1 ++ labels, p.2)) ++ ·)
  | 0, labels, u, steps, begun, hlen => by
    have hlen : labels.length = length := hlen
    rw [show G.walkCount 0 u + steps = steps + 1 from Nat.add_comm _ _, search, if_pos hlen]
    rfl
  | rest + 1, labels, u, steps, begun, hlen => by
    -- all continuations along one edge are searched before those along the next
    have hedges : ∀ (es : List StackEdge),
        G.search length ((es.map fun e => G.walkCount rest e.target).sum + steps)
          ((es.map fun e => (e.label :: labels, e.target)) ++ begun) =
        (G.search length steps begun).map ((es.flatMap fun e => (G.paths rest e.target).map
          fun p => (p.1 ++ e.label :: labels, p.2)) ++ ·) := by
      intro es
      induction es with
      | nil => simp
      | cons e es ih =>
        have hlen' : (e.label :: labels).length + rest = length := by
          rw [List.length_cons]
          omega
        rw [List.map_cons, List.sum_cons, Nat.add_assoc, List.map_cons, List.cons_append,
          search_cons rest hlen', ih, Option.map_map]
        simp [Function.comp_def, List.flatMap_cons]
    have hne : labels.length ≠ length := by omega
    rw [show G.walkCount (rest + 1) u + steps =
      ((G.node u).edges.reverse.map fun e => G.walkCount rest e.target).sum + steps + 1 from
        Nat.add_right_comm _ _ _, search, if_neg hne, hedges]
    simp [paths, List.map_flatMap, Function.comp_def]

/-- The search finds the paths, with a step for each walk that is no longer than they are. -/
theorem search_paths {source steps : Nat} (h : G.walkCount length source ≤ steps) :
    G.search length steps [([], source)] = some (G.paths length source) := by
  obtain ⟨more, rfl⟩ := Nat.exists_eq_add_of_le h
  have hnil : G.search length more [] = some [] := by cases more <;> rfl
  have hlen : ([] : List ForestId).length + length = length := Nat.zero_add length
  rw [search_cons length hlen, hnil]
  simp

/-! ### The walks by their edges -/

/-- The routes from a node are the walks of their length. -/
theorem mem_routes : ∀ {length u : Nat} {es : List StackEdge} {v : Nat},
    (es, v) ∈ G.routes length u ↔ G.Follows u es v ∧ es.length = length
  | 0, u, es, v => by
    simp only [routes, List.mem_singleton, Prod.mk.injEq, List.length_eq_zero_iff]
    constructor
    · rintro ⟨rfl, rfl⟩
      exact ⟨.nil, rfl⟩
    · rintro ⟨hfollows, rfl⟩
      cases hfollows
      exact ⟨rfl, rfl⟩
  | length + 1, u, es, v => by
    simp only [routes, List.mem_flatMap, List.mem_reverse, List.mem_map, Prod.exists,
      Prod.mk.injEq]
    constructor
    · rintro ⟨e, he, es, v', hmem, rfl, rfl⟩
      obtain ⟨hfollows, hlength⟩ := mem_routes.1 hmem
      obtain ⟨n, hn, he⟩ := node?_of_mem_edges he
      exact ⟨.cons hn he hfollows, by rw [List.length_cons, hlength]⟩
    · rintro ⟨hfollows, hlength⟩
      cases hfollows with
      | nil => cases hlength
      | @cons _ _ n e es hn he hfollows =>
        refine ⟨e, ?_, es, v, mem_routes.2 ⟨hfollows, Nat.succ.inj hlength⟩, rfl, rfl⟩
        rwa [node_eq hn]

/-- No walk is a route twice, for its first edge is listed once. -/
theorem Built.nodup_routes (hG : G.Built) : ∀ length u, (G.routes length u).Nodup
  | 0, _ => List.nodup_singleton _
  | length + 1, u => by
    refine List.nodup_flatMap.2 ⟨fun e _ => ?_, ?_⟩
    · refine (hG.nodup_routes length e.target).map fun p q h => ?_
      simp only [Prod.mk.injEq, List.cons.injEq, true_and] at h
      exact Prod.ext h.1 h.2
    · refine (List.nodup_reverse.2 (hG.nodup_edges u)).imp fun {e e'} hne => ?_
      intro p hp hp'
      obtain ⟨q, -, rfl⟩ := List.mem_map.1 hp
      obtain ⟨q', -, h⟩ := List.mem_map.1 hp'
      exact hne (List.cons.inj (Prod.mk.inj h).1).1.symm

/-- A path has the labels of a route in reverse, and its end. -/
theorem paths_eq_map_routes : ∀ length u,
    G.paths length u = (G.routes length u).map fun p => ((p.1.map (·.label)).reverse, p.2)
  | 0, _ => rfl
  | length + 1, u => by
    simp only [paths, routes, paths_eq_map_routes length, List.map_flatMap, List.map_map]
    congr 1
    funext e
    simp

/-- A walk from a node that is there comes only to nodes that are there. -/
theorem Proper.lt_of_follows (hG : G.Proper) (hu : u < G.nodes.size) {es : List StackEdge}
    (h : G.Follows u es v) : v < G.nodes.size := by
  induction h with
  | nil => exact hu
  | cons hn he _ ih => exact ih (hG.target_lt hn _ he)

/-- From each node of a graph of stacks the search for the walks of a length ends, whatever circles
the graph has, and it gives each of them once: its labels from the far end to the near one, and its
end. No walk that it begins leaves the graph. -/
theorem Built.paths_exact (hG : G.Built) (hu : u < G.nodes.size) (length : Nat) :
    (∃ bound, ∀ steps ≥ bound, G.search length steps [([], u)] = some (G.paths length u)) ∧
    (∀ es far, G.Follows u es far → far < G.nodes.size) ∧
    ∃ walks : List (List StackEdge × Nat), walks.Nodup ∧
      (∀ es far, (es, far) ∈ walks ↔ G.Follows u es far ∧ es.length = length) ∧
      G.paths length u = walks.map fun (es, far) => ((es.map (·.label)).reverse, far) :=
  ⟨⟨G.walkCount length u, fun _ => search_paths⟩, fun _ _ => hG.proper.lt_of_follows hu,
    G.routes length u, hG.nodup_routes length u, fun _ _ => mem_routes,
    paths_eq_map_routes length u⟩

end StackGraph

namespace Samples

/-- Two ways down to the same node, with the same labels, and from there back to it. -/
def diamond : StackGraph :=
  let g := (StackGraph.empty.addNode 0 0).2.addNode 1 1
  let g := (g.2.addNode 2 1).2.addNode 3 2
  let g := ((g.2.addEdge 3 1 5).2.addEdge 3 2 5).2.addEdge 1 0 6
  ((g.2.addEdge 2 0 6).2.addEdge 0 0 7).2

theorem diamond_built : diamond.Built := by
  have hnodes := (((StackGraph.Built.empty.node 0 0).node 1 1).node 2 1).node 3 2
  have hleft := @StackGraph.Built.edge _ 3 1 5 hnodes (by decide) (by decide)
  have hright := @StackGraph.Built.edge _ 3 2 5 hleft (by decide) (by decide)
  have hleft := @StackGraph.Built.edge _ 1 0 6 hright (by decide) (by decide)
  have hright := @StackGraph.Built.edge _ 2 0 6 hleft (by decide) (by decide)
  exact @StackGraph.Built.edge _ 0 0 7 hright (by decide) (by decide)

/-- Two walks of three edges lead down and once around the circle; both are found. -/
theorem diamond_paths_exact : diamond.Built ∧ 3 < diamond.nodes.size ∧
    (∃ bound, ∀ steps ≥ bound, diamond.search 3 steps [([], 3)] =
      some [([7, 6, 5], 0), ([7, 6, 5], 0)]) ∧
    ∃ walks : List (List StackEdge × Nat), walks.Nodup ∧
      (([⟨1, 5⟩, ⟨0, 6⟩, ⟨0, 7⟩], 0) : List StackEdge × Nat) ∈ walks ∧
      (([⟨2, 5⟩, ⟨0, 6⟩, ⟨0, 7⟩], 0) : List StackEdge × Nat) ∈ walks ∧ walks.length = 2 := by
  obtain ⟨hsearch, -, walks, hnodup, hmem, hpaths⟩ :=
    StackGraph.Built.paths_exact (u := 3) diamond_built (by decide) 3
  refine ⟨diamond_built, by decide, hsearch, walks, hnodup, (hmem _ _).2 ⟨?_, rfl⟩,
    (hmem _ _).2 ⟨?_, rfl⟩, ?_⟩
  · exact .cons rfl (by decide) (.cons rfl (by decide) (.cons rfl (by decide) .nil))
  · exact .cons rfl (by decide) (.cons rfl (by decide) (.cons rfl (by decide) .nil))
  · have hlength := congrArg List.length hpaths
    rw [List.length_map] at hlength
    exact hlength.symm

end Samples

end BottomUp
