/-
# A reduction as a recursion over the tree

Where no node carries a tree, what a reduction makes of a tree can be said by a recursion over it,
without frames and links. The effective children of a node are its children in order, but those
that are dropped are left out with all below them, and those that are replaced give way to their
own effective children. A node is built from what its effective children are built to: these are
put into its slot from left to right, and one that is promoted takes the slot.

Key definitions: `RawTree.effective`, `Slot.put`, `RawTree.build`.
Key theorems: `RawTree.build_outline_eq`, `Tree.Linked.exists_reads`,
`Tree.Linked.reduce_eq_build`.
-/
import BottomUp.Proofs.NormalForm

namespace BottomUp

/-! ### The recursion -/

/-- Puts into a slot what an effective child was built to, by the action of the child. A child that
is promoted takes the slot: the first to take it gets what was put in so far, a later one gets all
that the slot holds as its first child. -/
def Slot.put (s : Slot) : NodeAction → RawTree → Slot
  | .promote, .node content children =>
    ⟨content, (if s.taken then [s.tree] else s.children) ++ children, true⟩
  | _, tree => s.append tree

theorem Slot.put_keep (s : Slot) (tree : RawTree) : s.put .keep tree = s.append tree := rfl

theorem Slot.put_promote (s own : Slot) : s.put .promote own.tree = s.promote own false := by
  simp only [put, tree, promote, Bool.or_false]

namespace RawTree

/-- The action of the root. -/
def action : RawTree → NodeAction
  | node content _ => content.action

mutual

/-- The effective children that a child gives to its parent. -/
def effective : RawTree → List RawTree
  | node content children =>
    match content.action with
    | .drop => []
    | .replace => effectiveAll children
    | .keep | .promote => [node content children]

/-- The effective children of a node with these children. -/
def effectiveAll : List RawTree → List RawTree
  | [] => []
  | t :: ts => t.effective ++ effectiveAll ts

end

mutual

theorem size_le_of_mem_effective {e tree : RawTree} (he : e ∈ tree.effective) :
    e.size ≤ tree.size := by
  match tree with
  | node content children =>
    rw [effective] at he
    cases haction : content.action with
    | drop => simp [haction] at he
    | replace =>
      rw [haction] at he
      exact (size_le_of_mem_effectiveAll he).trans (Nat.le_succ _)
    | keep | promote =>
      simp only [haction, List.mem_singleton] at he
      exact he ▸ Nat.le_refl _

theorem size_le_of_mem_effectiveAll {e : RawTree} {trees : List RawTree}
    (he : e ∈ effectiveAll trees) : e.size ≤ sizeAll trees := by
  match trees with
  | [] => exact absurd he List.not_mem_nil
  | t :: ts =>
    rw [effectiveAll, List.mem_append] at he
    rw [sizeAll]
    rcases he with he | he
    · exact (size_le_of_mem_effective he).trans (Nat.le_add_right _ _)
    · exact (size_le_of_mem_effectiveAll he).trans (Nat.le_add_left _ _)

end

/-- What a node is built to: what its slot holds when its effective children have been put in. -/
def build : RawTree → RawTree
  | node content children =>
    ((effectiveAll children).attach.foldl (fun s e => s.put e.1.action e.1.build)
      (Slot.ofContent content)).tree
termination_by tree => tree.size
decreasing_by
  have hle := size_le_of_mem_effectiveAll e.2
  rw [size]
  omega

theorem build_node (content : Content) (children : List RawTree) : (node content children).build =
    ((effectiveAll children).foldl (fun s e => s.put e.action e.build)
      (Slot.ofContent content)).tree := by
  rw [build, List.foldl_subtype (g := fun s e => s.put e.action e.build) (fun _ _ _ => rfl),
    List.unattach_attach]

mutual

/-- To put the outline of a tree into a slot is to put in its effective part. -/
theorem fill_outline_eq (under : Bool) (tree : RawTree) (s : Slot) :
    tree.outline.fill under false s =
      tree.effective.foldl (fun s e => s.put e.action e.build) s := by
  match tree with
  | node content children =>
    -- the slot of a node that stays is filled before the node is put in
    have hown : (Outline.fillAll false false (outlineAll children) (.ofContent content)).tree =
        (node content children).build := by
      rw [fillAll_outlineAll_eq, build_node]
    rw [outline, Outline.fill, effective]
    cases haction : content.action with
    | drop => rfl
    | replace => simpa using fillAll_outlineAll_eq true children s
    | keep =>
      show s.append _ = s.put content.action _
      rw [hown, haction, Slot.put_keep]
    | promote =>
      show s.promote _ _ = s.put content.action _
      rw [← hown, haction, Slot.put_promote, Bool.and_false, Bool.or_false]

theorem fillAll_outlineAll_eq (under : Bool) (trees : List RawTree) (s : Slot) :
    Outline.fillAll under false (outlineAll trees) s =
      (effectiveAll trees).foldl (fun s e => s.put e.action e.build) s := by
  match trees with
  | [] => rfl
  | t :: ts =>
    rw [outlineAll, Outline.fillAll, fill_outline_eq under t, fillAll_outlineAll_eq under ts,
      effectiveAll, List.foldl_append]

end

/-- What the slots of an outline without carried trees hold is what the recursion builds. -/
theorem build_outline_eq (tree : RawTree) : tree.outline.build = tree.build := by
  obtain ⟨content, children⟩ := tree
  rw [outline, Outline.build, Outline.slot, fillAll_outlineAll_eq, build_node]

mutual

theorem raw_outline (tree : RawTree) : tree.outline.raw = tree := by
  match tree with
  | node content children => rw [outline, Outline.raw, rawAll_outlineAll]

theorem rawAll_outlineAll (trees : List RawTree) : Outline.rawAll (outlineAll trees) = trees := by
  match trees with
  | [] => rfl
  | t :: ts => rw [outlineAll, Outline.rawAll, raw_outline, rawAll_outlineAll]

end

/-- What is built holds what nodes of the tree held, each once, with nothing left to be done. -/
theorem contents_build_subperm (tree : RawTree) :
    tree.build.contents.Subperm (tree.contents.map Content.final) := by
  have hsubperm := tree.outline.contents_build_subperm
  rwa [build_outline_eq, raw_outline] at hsubperm

end RawTree

namespace Tree

/-! ### What is read from a node -/

section

variable {t : Tree}

theorem exists_readsAll {parent : NodeId} {ids : List NodeId}
    (h : ∀ c ∈ ids, ∃ tree, t.Reads (some parent) tree c) :
    ∃ trees, t.ReadsAll parent trees ids := by
  induction ids with
  | nil => exact ⟨[], .nil⟩
  | cons c ids ih =>
    obtain ⟨tree, hhead⟩ := h c List.mem_cons_self
    obtain ⟨trees, htail⟩ := ih fun c' hc' => h c' (List.mem_cons_of_mem _ hc')
    exact ⟨tree :: trees, .cons hhead htail⟩

/-- From a node of a linked tree a tree is read, if going down from the node ends. -/
theorem Linked.exists_reads (ht : t.Linked) {id : NodeId} (hends : Acc t.ChildOf id)
    (hid : id < t.size) : ∃ tree, t.Reads (t.parent? id) tree id := by
  induction hends with
  | intro id _ ih =>
    obtain ⟨n, hn⟩ : ∃ n : Node, t.node? id = some n := ⟨_, Array.getElem?_eq_getElem hid⟩
    obtain ⟨trees, hall⟩ : ∃ trees, t.ReadsAll id trees n.children.toList := by
      refine exists_readsAll fun c hc => ?_
      have hchild : c ∈ t.children id := by
        rw [children_eq hn]
        exact hc
      obtain ⟨tree, hreads⟩ := ih c hchild (ht.lt_of_mem hchild)
      rw [ht.parent?_of_mem hchild] at hreads
      exact ⟨tree, hreads⟩
    exact ⟨_, .node hn (parent?_eq hn).symm hall⟩

mutual

/-- What is read is held by nodes of the tree. -/
theorem Reads.exists_node {parent : Option NodeId} {tree : RawTree} {id : NodeId}
    (h : t.Reads parent tree id) {c : Content} (hc : c ∈ tree.contents) :
    ∃ i n, t.node? i = some n ∧ n.content = c := by
  match h with
  | .node hn _ hall =>
    rw [RawTree.contents] at hc
    rcases List.mem_cons.1 hc with rfl | hc
    · exact ⟨id, _, hn, rfl⟩
    · exact hall.exists_node hc

theorem ReadsAll.exists_node {parent : NodeId} {trees : List RawTree} {ids : List NodeId}
    (h : t.ReadsAll parent trees ids) {c : Content} (hc : c ∈ RawTree.contentsAll trees) :
    ∃ i n, t.node? i = some n ∧ n.content = c := by
  match h with
  | .nil => exact absurd hc List.not_mem_nil
  | .cons hhead htail =>
    rw [RawTree.contentsAll, List.mem_append] at hc
    rcases hc with hc | hc
    · exact hhead.exists_node hc
    · exact htail.exists_node hc

end

/-- From the root of a linked tree in which going down ends, a tree is read. If the root is kept and
no node carries a tree, the reduction gives what this tree is built to, in the order of a walk. Each
node of it comes from one of its own, and holds what that one held besides its action. -/
theorem Linked.reduce_eq_build (ht : t.Linked) (hroot : t.root < t.size)
    (hends : Acc t.ChildOf t.root) (hkeep : t.action t.root = .keep)
    (hbare : ∀ i n, t.node? i = some n → n.sub = none) :
    (∃ tree, t.Reads (t.parent? t.root) tree t.root) ∧
    ∀ parent tree, t.Reads parent tree t.root → t.reduce = .ok tree.build.toTree ∧
      tree.build.contents.Subperm (tree.contents.map Content.final) := by
  refine ⟨ht.exists_reads hends hroot, fun parent tree hreads => ?_⟩
  have hplain : tree.Below Content.Plain := by
    refine (RawTree.every_of_mem fun c hc => .inl ?_).below
    obtain ⟨i, n, hn, rfl⟩ := hreads.exists_node hc
    exact hbare i n hn
  have hunfolds := hreads.unfolds hplain
  have hwf : t.WellFormed := hreads.wellFormed ht (hplain.imp fun _ hc => hc.sound)
  have haction : tree.outline.content.action = .keep := hunfolds.action_eq.symm.trans hkeep
  have hreduce := hwf.reduce_eq hunfolds haction tree.carries_outline
  rw [RawTree.build_outline_eq] at hreduce
  exact ⟨hreduce, tree.contents_build_subperm⟩

end

end Tree

namespace Samples

/-- Below the root two nodes are promoted, each out of a node that is replaced, and one of them is
taken over by a promoted child first. -/
def nested : RawTree :=
  plainNode "R" .keep [plainNode "a" .keep [],
    plainNode "N" .replace [plainNode "b" .keep [],
      plainNode "P" .promote [plainNode "x" .drop [plainNode "y" .promote []],
        plainNode "Q" .promote [plainNode "c" .keep []]],
      plainNode "M" .replace [
        plainNode "S" .promote [plainNode "d" .keep []], plainNode "e" .keep []]],
    plainNode "f" .keep []]

/-- `Q` takes the place of `P` and then that of `R` with all that was put in before; `S` takes it
from `Q`, which becomes its first child. -/
theorem nested_reduce_eq_build : ∃ tree, nested.toTree.Reads none tree nested.toTree.root ∧
    nested.toTree.reduce = .ok tree.build.toTree ∧
    tree.build = plainNode "S" .keep [
      plainNode "Q" .keep [plainNode "a" .keep [], plainNode "b" .keep [], plainNode "c" .keep []],
      plainNode "d" .keep [], plainNode "e" .keep [], plainNode "f" .keep []] := by
  have hreads := nested.toTree_reads
  have hbare : ∀ i n, nested.toTree.node? i = some n → n.sub = none := by
    intro i n hn
    have hall : ∀ c ∈ nested.contents, c.sub = none := by decide
    exact hall n.content (RawTree.content_mem_of_node? hn)
  obtain ⟨-, hreduce⟩ :=
    Tree.Linked.reduce_eq_build nested.toTree_linked hreads.lt hreads.acc rfl hbare
  refine ⟨nested, hreads, (hreduce _ _ hreads).1, ?_⟩
  rw [← RawTree.build_outline_eq]
  rfl

end Samples

end BottomUp
