/-
# A reduced tree is in normal form

What a reduction gives is laid out in the order of a walk: a walk from the root enters
the places one after the other and leaves none out, the links agree, nothing is left to be done to
a node and none carries a tree. Each node comes from the tree that was reduced or from
the trees that it carries. An outline to which nothing is left to be done is put into
the slots as it stands, so a tree in normal form is reduced to itself.

Key definitions: `Tree.Normal`.
Key theorems: `Tree.ReadsAt.walkWithin_eq`, `RawTree.toTree_normal`, `RawTree.reduce_toTree`,
`Tree.WellFormed.reduce_normal`.
-/
import BottomUp.Proofs.Origins
import BottomUp.Proofs.Tours

namespace BottomUp

/-! ### Nothing left to be done -/

/-- Nothing is left to be done to the node that holds this. -/
def Content.Finished (c : Content) : Prop := c.action = .keep ∧ c.sub = none

theorem Content.finished_final (c : Content) : c.final.Finished := ⟨rfl, rfl⟩

theorem Content.Finished.final_eq {c : Content} (h : c.Finished) : c.final = c := by
  obtain ⟨symbol, action, properties, text, span, sub⟩ := c
  obtain ⟨rfl, rfl⟩ : action = .keep ∧ sub = none := h
  rfl

theorem Content.Finished.plain {c : Content} (h : c.Finished) : c.Plain := .inl h.2

namespace RawTree

section

variable {P : Content → Prop}

mutual

theorem every_of_mem {tree : RawTree} (h : ∀ c ∈ tree.contents, P c) : tree.Every P := by
  match tree with
  | .node content children =>
    rw [contents] at h
    exact ⟨h content List.mem_cons_self,
      everyAll_of_mem fun c hc => h c (List.mem_cons_of_mem _ hc)⟩

theorem everyAll_of_mem {trees : List RawTree} (h : ∀ c ∈ contentsAll trees, P c) :
    EveryAll P trees := by
  match trees with
  | [] => trivial
  | tree :: trees =>
    rw [contentsAll] at h
    exact ⟨every_of_mem fun c hc => h c (List.mem_append_left _ hc),
      everyAll_of_mem fun c hc => h c (List.mem_append_right _ hc)⟩

end

end

end RawTree

/-- Nothing is left to be done to what a reduction puts in. -/
theorem Outline.finished_of_mem_build {o : Outline} {c : Content} (hc : c ∈ o.build.contents) :
    c.Finished := by
  obtain ⟨c', -, rfl⟩ := List.mem_map.1 (o.contents_build_subperm.subset hc)
  exact c'.finished_final

/-! ### The order of a walk -/

namespace Tree

section

variable {t : Tree}

/-- A walk below a node takes two steps for each node and enters its places in order. -/
theorem ReadsAt.walkWithin_eq {parent : Option NodeId} {tree : RawTree} {id : NodeId}
    {places : List NodeId} (h : t.ReadsAt parent tree id places) :
    ∃ visits : List Visit, visits.filterMap Visit.entered? = places ∧
      ∀ steps stack done, t.walkWithin (2 * tree.size + steps) (.enter id :: stack) done =
        t.walkWithin steps stack (visits.reverse ++ done) := by
  obtain ⟨visits, htours, hentered, hlength⟩ := h.exists_tours
  exact ⟨visits, hentered, hlength ▸ htours.walkWithin_eq⟩

mutual

/-- A tree that is laid out from a place on takes up the places from there on, in order. -/
theorem Lays.readsAt (tree : RawTree) {start : NodeId} {parent : Option NodeId}
    (h : t.Lays start (tree.layout start parent)) :
    t.ReadsAt parent tree start (List.range' start tree.size) := by
  match tree with
  | .node content children =>
    rw [RawTree.layout] at h
    obtain ⟨hn, hrest⟩ := h.cons
    exact .node hn rfl (hrest.readsAllAt children)

theorem Lays.readsAllAt (trees : List RawTree) {start parent : NodeId}
    (h : t.Lays start (RawTree.layoutAll start parent trees)) :
    t.ReadsAllAt parent trees (RawTree.rootPlaces start trees)
      (List.range' start (RawTree.sizeAll trees)) := by
  match trees with
  | [] => exact .nil
  | tree :: trees =>
    rw [RawTree.layoutAll] at h
    obtain ⟨hhead, htail⟩ := h.append
    rw [RawTree.length_layout] at htail
    rw [RawTree.sizeAll, ← List.range'_append_1]
    exact .cons (hhead.readsAt tree) (htail.readsAllAt trees)

end

end

/-! ### Normal form -/

/-- A tree of the nodes below its root and no others, in the order of a walk, with links that agree
and nothing left to be done. -/
structure Normal (a : Tree) : Prop where
  root : a.root = 0
  /-- A walk enters the places in order and leaves none out. -/
  preorder : ∃ visits, a.walk? = some visits ∧
    visits.filterMap Visit.entered? = List.range a.size
  linked : a.Linked
  parent?_root : a.parent? a.root = none
  parent?_below : ∀ i, i < a.size → i ≠ a.root → ∃ p, p < a.size ∧ a.parent? i = some p
  finished : ∀ {i : NodeId} {n : Node}, a.node? i = some n → n.action = .keep ∧ n.sub = none

end Tree

namespace RawTree

/-- The nodes that are laid out hold what those of the tree do. -/
theorem content_mem_of_node? {tree : RawTree} {i : NodeId} {n : Node}
    (hn : tree.toTree.node? i = some n) : n.content ∈ tree.contents := by
  have hget : (tree.layout 0 none)[i]? = some n := by simpa [Tree.node?, toTree] using hn
  rw [← contents_layout 0 none tree]
  exact List.mem_map_of_mem (List.mem_of_getElem? hget)

theorem toTree_normal {tree : RawTree} (h : ∀ c ∈ tree.contents, c.Finished) :
    tree.toTree.Normal where
  root := rfl
  preorder := by
    obtain ⟨visits, hentered, hwalk⟩ := (tree.toTree_lays.readsAt tree).walkWithin_eq
    refine ⟨visits, ?_, ?_⟩
    · have hdone := hwalk 0 [] []
      rw [← size_toTree] at hdone
      exact hdone.trans (by simp [Tree.walkWithin])
    · rw [hentered, size_toTree, List.range_eq_range']
  linked := tree.toTree_linked
  parent?_root := (tree.toTree_lays.rooted tree fun _ hp => by cases hp).1.root
  parent?_below i hi hroot := by
    rw [size_toTree] at hi ⊢
    have hrooted := (tree.toTree_lays.rooted tree fun _ hp => by cases hp).1
    rw [Nat.zero_add] at hrooted
    obtain ⟨p, -, hp, hip⟩ := hrooted.below i (Nat.pos_of_ne_zero hroot) hi
    exact ⟨p, hp, hip⟩
  finished hn := h _ (content_mem_of_node? hn)

mutual

/-- A tree to which nothing is left to be done goes into a slot as it stands. -/
theorem fill_outline {tree : RawTree} (h : tree.Every Content.Finished) (under astray : Bool)
    (s : Slot) : tree.outline.fill under astray s = s.append tree := by
  match tree with
  | .node content children =>
    -- its own slot, which is filled first, holds the tree again
    have hown : (Outline.fillAll false false (outlineAll children) (.ofContent content)).tree =
        .node content children := by
      rw [fillAll_outlineAll h.2]
      simp [Slot.tree, Slot.ofContent, h.1.final_eq]
    rw [outline, Outline.fill, h.1.1]
    exact congrArg s.append hown

theorem fillAll_outlineAll {trees : List RawTree} (h : EveryAll Content.Finished trees)
    (under astray : Bool) (s : Slot) : Outline.fillAll under astray (outlineAll trees) s =
      { s with children := s.children ++ trees } := by
  match trees with
  | [] => simp [outlineAll, Outline.fillAll]
  | tree :: trees =>
    rw [outlineAll, Outline.fillAll, fill_outline h.1, fillAll_outlineAll h.2]
    simp [Slot.append]

end

theorem build_outline {tree : RawTree} (h : tree.Every Content.Finished) :
    tree.outline.build = tree := by
  obtain ⟨content, children⟩ := tree
  rw [outline, Outline.build, Outline.slot, fillAll_outlineAll h.2]
  simp [Slot.tree, Slot.ofContent, h.1.final_eq]

/-- What is laid out and finished is reduced to itself. -/
theorem reduce_toTree {tree : RawTree} (h : tree.Every Content.Finished) :
    tree.toTree.reduce = .ok tree.toTree := by
  have hplain : tree.Below Content.Plain := h.below.imp fun _ hc => hc.plain
  have hwf : tree.toTree.WellFormed := tree.toTree_reads.wellFormed tree.toTree_linked
    (hplain.imp fun _ hc => hc.sound)
  have hkeep : tree.outline.content.action = .keep := by
    cases tree
    exact h.1.1
  rw [hwf.reduce_eq (tree.toTree_reads.unfolds hplain) hkeep tree.carries_outline, build_outline h]

end RawTree

namespace Tree

/-- The root of a tree that can be reduced is kept. -/
theorem action_root_of_reduce {t a : Tree} (hok : t.reduce = .ok a) : t.action t.root = .keep := by
  unfold reduce at hok
  cases haction : t.action t.root with
  | keep => rfl
  | promote => rw [haction] at hok; cases hok
  | drop => rw [haction] at hok; cases hok
  | replace => rw [haction] at hok; cases hok

/-- What a reduction gives is in normal form, its nodes come from the tree that was reduced or the
trees that it carries, and it is reduced to itself. -/
theorem WellFormed.reduce_normal {t a : Tree} (ht : t.WellFormed) (hok : t.reduce = .ok a) :
    a.Normal ∧ a.ComesFrom t ∧ a.reduce = .ok a := by
  obtain ⟨o, ho⟩ := ht.exists_unfolds
  obtain ⟨places, hlaid, hnodup⟩ := ht.exists_laid ho
  have hkeep : o.content.action = .keep := ho.action_eq.symm.trans (action_root_of_reduce hok)
  obtain rfl : a = o.build.toTree := (hlaid.reduce_gives hnodup hkeep).of_ok hok
  have hfinished : ∀ c ∈ o.build.contents, c.Finished := fun _ => Outline.finished_of_mem_build
  exact ⟨RawTree.toTree_normal hfinished, hlaid.comesFrom hnodup,
    RawTree.reduce_toTree (RawTree.every_of_mem hfinished)⟩

end Tree

namespace Samples

/-- The carried tree takes the slot of the root below a node that is replaced, and leaves the root
behind with what was put in before: four nodes, in normal form. -/
theorem carrying_reduce_normal : ∃ a, (carrying .replace).toTree.reduce = .ok a ∧ a.size = 4 ∧
    a.Normal ∧ a.ComesFrom (carrying .replace).toTree ∧ a.reduce = .ok a := by
  have hok := carrying_reduce_eq .replace
  exact ⟨_, hok, rfl, (carrying_wellFormed .replace).reduce_normal hok⟩

end Samples

end BottomUp
