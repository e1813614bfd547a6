/-
# Compaction arranges a tree anew

What hangs on the root of a tree is copied in the order of a walk. The copies of a tree with `n`
nodes take up `n` places one after the other, each subtree its own stretch of them. So the
compact form depends only on the tree that is read from the root, not on the places where its nodes
stood before.

Key definitions: `Tree.Holds`, `RawTree.layout`, `RawTree.toTree`.
Key theorem: `Tree.Holds.compact_eq`.
-/
import BottomUp.Proofs.Slots
import BottomUp.Tree.Reduction

namespace BottomUp

/-! ### Trees whose nodes are one after the other -/

/-- A node with this content and these links. -/
def Content.node (c : Content) (parent : Option NodeId) (children : List NodeId) : Node :=
  ⟨c.symbol, c.action, parent, children.toArray, c.properties, c.text, c.span, c.sub⟩

namespace RawTree

/-- The places of the roots of some trees, the nodes of which are one after the other. -/
def rootPlaces (start : NodeId) : List RawTree → List NodeId
  | [] => []
  | t :: ts => start :: rootPlaces (start + t.size) ts

mutual

/-- The nodes of a tree in the order of a walk, from a place on. -/
def layout (start : NodeId) (parent : Option NodeId) : RawTree → List Node
  | node content children =>
    content.node parent (rootPlaces (start + 1) children) :: layoutAll (start + 1) start children

/-- The nodes of some trees below one parent, from a place on. -/
def layoutAll (start parent : NodeId) : List RawTree → List Node
  | [] => []
  | t :: ts => t.layout start (some parent) ++ layoutAll (start + t.size) parent ts

end

/-- The tree of nodes that are in the order of a walk. -/
def toTree (t : RawTree) : Tree := ⟨(t.layout 0 none).toArray, 0⟩

mutual

theorem length_layout (start : NodeId) (parent : Option NodeId) (t : RawTree) :
    (t.layout start parent).length = t.size := by
  match t with
  | node content children =>
    rw [layout, List.length_cons, length_layoutAll, size]

theorem length_layoutAll (start parent : NodeId) (ts : List RawTree) :
    (layoutAll start parent ts).length = sizeAll ts := by
  match ts with
  | [] => rfl
  | t :: ts => rw [layoutAll, List.length_append, length_layout, length_layoutAll, sizeAll]

end

end RawTree

namespace Tree

/-! ### What a tree holds when nothing is left to be done -/

mutual

/-- The tree that hangs on a node, with nothing left to be done to it, and its places. -/
inductive Holds (t : Tree) : RawTree → NodeId → List NodeId → Prop
  | node {id : NodeId} {n : Node} {trees : List RawTree} {places : List NodeId} :
      t.node? id = some n → HoldsAll t trees n.children.toList places →
      Holds t (.node n.content.final trees) id (id :: places)

/-- The trees that hang on the children of a node. -/
inductive HoldsAll (t : Tree) : List RawTree → List NodeId → List NodeId → Prop
  | nil : HoldsAll t [] [] []
  | cons {id : NodeId} {ids : List NodeId} {tree : RawTree} {trees : List RawTree}
      {places rest : List NodeId} :
      Holds t tree id places → HoldsAll t trees ids rest →
      HoldsAll t (tree :: trees) (id :: ids) (places ++ rest)

end

/-- What counts of the node at a place when nothing is left to be done: neither its action and
what it carries nor its parent. -/
def held? (t : Tree) (id : NodeId) : Option (Content × Array NodeId) :=
  (t.node? id).map fun n => (n.content.final, n.children)

section

variable {t t' : Tree}

theorem held?_congr {j : NodeId} (h : t'.node? j = t.node? j) : t'.held? j = t.held? j :=
  congrArg (Option.map _) h

mutual

theorem Holds.congr {tree : RawTree} {id : NodeId} {places : List NodeId}
    (h : t.Holds tree id places) (hkeep : ∀ j ∈ places, t'.held? j = t.held? j) :
    t'.Holds tree id places := by
  match h with
  | @Holds.node _ _ n trees places hn hall =>
    have hid := hkeep id List.mem_cons_self
    rw [held?, held?, hn, Option.map_some, Option.map_eq_some_iff] at hid
    obtain ⟨n', hn', heq⟩ := hid
    obtain ⟨hcontent, hchildren⟩ := Prod.mk.inj heq
    rw [← hcontent]
    refine .node hn' ?_
    rw [hchildren]
    exact hall.congr fun j hj => hkeep j (List.mem_cons_of_mem _ hj)

theorem HoldsAll.congr {trees : List RawTree} {ids places : List NodeId}
    (h : t.HoldsAll trees ids places) (hkeep : ∀ j ∈ places, t'.held? j = t.held? j) :
    t'.HoldsAll trees ids places := by
  match h with
  | .nil => exact .nil
  | .cons hhead htail =>
    exact .cons (hhead.congr fun j hj => hkeep j (List.mem_append_left _ hj))
      (htail.congr fun j hj => hkeep j (List.mem_append_right _ hj))

end

theorem HoldsAll.append {trees trees' : List RawTree} {ids ids' places places' : List NodeId}
    (h : t.HoldsAll trees ids places) (h' : t.HoldsAll trees' ids' places') :
    t.HoldsAll (trees ++ trees') (ids ++ ids') (places ++ places') := by
  match h with
  | .nil => exact h'
  | .cons hhead htail =>
    rw [List.append_assoc]
    exact .cons hhead (htail.append h')

mutual

theorem Holds.lt {tree : RawTree} {id : NodeId} {places : List NodeId}
    (h : t.Holds tree id places) : ∀ j ∈ places, j < t.size := by
  match h with
  | .node hn hall =>
    intro j hj
    rcases List.mem_cons.1 hj with rfl | hj
    · exact (Array.getElem?_eq_some_iff.1 hn).1
    · exact hall.lt j hj

theorem HoldsAll.lt {trees : List RawTree} {ids places : List NodeId}
    (h : t.HoldsAll trees ids places) : ∀ j ∈ places, j < t.size := by
  match h with
  | .nil => exact fun j hj => absurd hj List.not_mem_nil
  | .cons hhead htail =>
    intro j hj
    rcases List.mem_append.1 hj with hj | hj
    · exact hhead.lt j hj
    · exact htail.lt j hj

end

theorem HoldsAll.mem_places {trees : List RawTree} {ids places : List NodeId}
    (h : t.HoldsAll trees ids places) : ∀ j ∈ ids, j ∈ places := by
  match h with
  | .nil => exact fun j hj => absurd hj List.not_mem_nil
  | .cons hhead htail =>
    intro j hj
    rcases List.mem_cons.1 hj with rfl | hj
    · cases hhead with
      | node _ _ => exact List.mem_append_left _ List.mem_cons_self
    · exact List.mem_append_right _ (htail.mem_places j hj)

mutual

/-- A tree has a node for its root, and for each child that is listed at one of its places. -/
theorem Holds.size_eq {tree : RawTree} {id : NodeId} {places : List NodeId}
    (h : t.Holds tree id places) :
    tree.size = 1 + (places.map fun j => (t.children j).length).sum := by
  match h with
  | .node hn hall =>
    have hrest := hall.sizeAll_eq
    rw [List.map_cons, List.sum_cons, children_eq hn, RawTree.size, hrest]
    omega

theorem HoldsAll.sizeAll_eq {trees : List RawTree} {ids places : List NodeId}
    (h : t.HoldsAll trees ids places) :
    RawTree.sizeAll trees = ids.length + (places.map fun j => (t.children j).length).sum := by
  match h with
  | .nil => rfl
  | .cons hhead htail =>
    rw [RawTree.sizeAll, hhead.size_eq, htail.sizeAll_eq, List.map_append, List.sum_append,
      List.length_cons]
    omega

end

end

/-! ### Copying -/

theorem modify_append {α : Type} {a b : Array α} {i : Nat} (hi : i < a.size) (f : α → α) :
    (a ++ b).modify i f = a.modify i f ++ b := by
  refine Array.ext_getElem? fun j => ?_
  simp only [Array.getElem?_modify, Array.getElem?_append, Array.size_modify]
  split <;> split <;> first | rfl | omega

theorem modify_push_size {α : Type} (a : Array α) (x : α) (f : α → α) :
    (a.push x).modify a.size f = a.push (f x) := by
  refine Array.ext_getElem? fun j => ?_
  simp only [Array.getElem?_modify, Array.getElem?_push]
  by_cases hj : a.size = j
  · simp [hj]
  · simp [hj, Ne.symm hj]

/-- Lists one more child below a parent, if there is a parent. -/
def listUnder (copies : Array Node) (parent : Option NodeId) (child : NodeId) : Array Node :=
  match parent with
  | none => copies
  | some p => copies.modify p fun n => { n with children := n.children.push child }

/-- Lists some children behind those of a parent. -/
def listAllUnder (copies : Array Node) (parent : NodeId) (children : List NodeId) : Array Node :=
  copies.modify parent fun n => { n with children := n.children ++ children.toArray }

theorem size_listUnder (copies : Array Node) (parent : Option NodeId) (child : NodeId) :
    (listUnder copies parent child).size = copies.size := by
  cases parent <;> simp [listUnder]

theorem listUnder_push {copies : Array Node} {parent : Option NodeId}
    (hparent : ∀ p ∈ parent, p < copies.size) (n : Node) (child : NodeId) :
    listUnder (copies.push n) parent child = (listUnder copies parent child).push n := by
  cases parent with
  | none => rfl
  | some p => simp only [listUnder, Array.push_eq_append, modify_append (hparent p rfl)]

theorem listAllUnder_cons {copies rest : Array Node} {p : NodeId} (hp : p < copies.size)
    (child : NodeId) (children : List NodeId) :
    listAllUnder (listUnder copies (some p) child ++ rest) p children =
      listAllUnder copies p (child :: children) ++ rest := by
  have hlist : listAllUnder (listUnder copies (some p) child) p children =
      listAllUnder copies p (child :: children) := by
    refine Array.ext_getElem? fun j => ?_
    simp only [listAllUnder, listUnder, Array.getElem?_modify]
    split
    · cases copies[j]? <;> simp
    · rfl
  rw [← hlist]
  exact modify_append (by rwa [size_listUnder]) _

theorem copyWithin_nil : ∀ (steps : Nat) (old copies : Array Node),
    copyWithin steps old [] copies = copies
  | 0, _, _ => rfl
  | _ + 1, _, _ => rfl

mutual

/-- Copying a tree puts its nodes behind those copied before, and lists its root under the
parent. -/
theorem Holds.copyWithin_eq {t : Tree} {tree : RawTree} {id : NodeId} {places : List NodeId}
    (h : t.Holds tree id places) (hnodup : places.Nodup) (copies : Array Node)
    (parent : Option NodeId) (hparent : ∀ p ∈ parent, p < copies.size)
    (stack : List (NodeId × Option NodeId)) :
    ∃ old : Array Node, (∀ j, j ∉ places → old[j]? = t.nodes[j]?) ∧ ∀ steps,
      copyWithin (tree.size + steps) t.nodes ((id, parent) :: stack) copies =
        copyWithin steps old stack
          (listUnder copies parent copies.size ++ (tree.layout copies.size parent).toArray) := by
  match h with
  | @Holds.node _ _ n trees places hn hall =>
    rw [List.nodup_cons] at hnodup
    let copy := n.content.final.node parent []
    let blanked : Tree := ⟨t.nodes.setIfInBounds id blank, t.root⟩
    have hkeep : ∀ j, j ≠ id → blanked.node? j = t.node? j := fun j hj => by
      simp [blanked, node?, Ne.symm hj]
    have hall' : blanked.HoldsAll trees n.children.toList places :=
      hall.congr fun j hj => held?_congr (hkeep j fun heq => hnodup.1 (heq ▸ hj))
    have hplace : copies.size < ((listUnder copies parent copies.size).push copy).size := by
      simp [size_listUnder]
    obtain ⟨old, hold, hcopy⟩ := hall'.copyWithin_eq hnodup.2 _ _ hplace stack
    refine ⟨old, fun j hj => ?_, fun steps => ?_⟩
    · rw [List.mem_cons, not_or] at hj
      exact (hold j hj.2).trans (hkeep j hj.1)
    · have hget : t.nodes.getD id blank = n := by
        rw [Array.getD_eq_getD_getElem?, show t.nodes[id]? = some n from hn]
        rfl
      have hlisted : listUnder (copies.push copy) parent copies.size =
          (listUnder copies parent copies.size).push copy := listUnder_push hparent _ _
      have hsteps : (RawTree.node n.content.final trees).size + steps =
          RawTree.sizeAll trees + steps + 1 := by
        rw [RawTree.size]
        omega
      have hstep : copyWithin (RawTree.sizeAll trees + steps + 1) t.nodes ((id, parent) :: stack)
          copies = copyWithin (RawTree.sizeAll trees + steps) blanked.nodes
            (n.children.toList.map (fun c => (c, some copies.size)) ++ stack)
            (listUnder (copies.push copy) parent copies.size) := by
        cases parent <;> simp only [copyWithin, hget] <;> rfl
      have hown : listAllUnder ((listUnder copies parent copies.size).push copy) copies.size
          (RawTree.rootPlaces (copies.size + 1) trees) =
          (listUnder copies parent copies.size).push
            (n.content.final.node parent (RawTree.rootPlaces (copies.size + 1) trees)) := by
        have hpush := modify_push_size (listUnder copies parent copies.size) copy fun n' =>
          { n' with
            children := n'.children ++ (RawTree.rootPlaces (copies.size + 1) trees).toArray }
        rw [size_listUnder] at hpush
        rw [listAllUnder, hpush]
        simp [copy, Content.node]
      have hsize : ((listUnder copies parent copies.size).push copy).size = copies.size + 1 := by
        simp [size_listUnder]
      rw [hsteps, hstep, hlisted, hcopy steps, hsize, hown, RawTree.layout, Array.push_eq_append,
        Array.append_assoc]
      simp

theorem HoldsAll.copyWithin_eq {t : Tree} {trees : List RawTree} {ids places : List NodeId}
    (h : t.HoldsAll trees ids places) (hnodup : places.Nodup) (copies : Array Node) (p : NodeId)
    (hp : p < copies.size) (stack : List (NodeId × Option NodeId)) :
    ∃ old : Array Node, (∀ j, j ∉ places → old[j]? = t.nodes[j]?) ∧ ∀ steps,
      copyWithin (RawTree.sizeAll trees + steps) t.nodes
        (ids.map (fun c => (c, some p)) ++ stack) copies =
        copyWithin steps old stack (listAllUnder copies p (RawTree.rootPlaces copies.size trees) ++
          (RawTree.layoutAll copies.size p trees).toArray) := by
  match h with
  | .nil =>
    refine ⟨t.nodes, fun _ _ => rfl, fun steps => ?_⟩
    have hnone : listAllUnder copies p [] = copies := by
      refine Array.ext_getElem? fun j => ?_
      simp only [listAllUnder, Array.getElem?_modify]
      split
      · cases copies[j]? <;> simp
      · rfl
    simp [RawTree.sizeAll, RawTree.rootPlaces, RawTree.layoutAll, hnone]
  | @HoldsAll.cons _ id ids tree trees places rest hhead htail =>
    rw [List.nodup_append] at hnodup
    obtain ⟨hnodup, hnodup', hdisjoint⟩ := hnodup
    obtain ⟨old, hold, hcopy⟩ := hhead.copyWithin_eq hnodup copies (some p)
      (fun q hq => Option.mem_some_iff.1 hq ▸ hp) (ids.map (fun c => (c, some p)) ++ stack)
    let after : Tree := ⟨old, t.root⟩
    have htail' : after.HoldsAll trees ids rest :=
      htail.congr fun j hj => held?_congr (hold j fun hj' => hdisjoint j hj' j hj rfl)
    let copies' := listUnder copies (some p) copies.size ++
      (tree.layout copies.size (some p)).toArray
    have hsize : copies'.size = copies.size + tree.size := by
      simp [copies', size_listUnder, RawTree.length_layout]
    obtain ⟨old', hold', hcopy'⟩ := htail'.copyWithin_eq hnodup' copies' p
      (hp.trans_le (hsize ▸ Nat.le_add_right _ _)) stack
    refine ⟨old', fun j hj => ?_, fun steps => ?_⟩
    · rw [List.mem_append, not_or] at hj
      exact (hold' j hj.2).trans (hold j hj.1)
    · rw [RawTree.sizeAll, Nat.add_assoc, List.map_cons, List.cons_append, hcopy, hcopy', hsize,
        RawTree.rootPlaces, RawTree.layoutAll, listAllUnder_cons hp]
      simp

end

/-- The places of a tree list no more children than all nodes do. -/
theorem sum_length_children_le (t : Tree) {places : List NodeId} (hnodup : places.Nodup)
    (hlt : ∀ j ∈ places, j < t.size) :
    1 + (places.map fun j => (t.children j).length).sum ≤
      t.nodes.foldl (fun n node => n + node.children.size) 1 := by
  have hfold : ∀ (nodes : List Node) (k : Nat),
      nodes.foldl (fun n node => n + node.children.size) k =
        k + (nodes.map fun n => n.children.size).sum := by
    intro nodes
    induction nodes with
    | nil => simp
    | cons n nodes ih =>
      intro k
      rw [List.foldl_cons, ih, List.map_cons, List.sum_cons, Nat.add_assoc]
  have hlength : ∀ j, (t.children j).length =
      (t.nodes.toList[j]?.map fun n => n.children.size).getD 0 := by
    intro j
    unfold children node?
    rw [Array.getElem?_toList]
    cases t.nodes[j]? <;> simp
  rw [← Array.foldl_toList, hfold, funext hlength]
  exact Nat.add_le_add_left (sum_map_getElem?_le _ t.nodes.toList hnodup hlt) 1

/-- The compact form of a tree is that of what hangs on its root. -/
theorem Holds.compact_eq {t : Tree} {tree : RawTree} {places : List NodeId}
    (h : t.Holds tree t.root places) (hnodup : places.Nodup) : t.compact = tree.toTree := by
  obtain ⟨old, -, hcopy⟩ := h.copyWithin_eq hnodup #[] none (fun p hp => by cases hp) []
  have hsteps : tree.size ≤ t.nodes.foldl (fun n node => n + node.children.size) 1 := by
    rw [h.size_eq]
    exact t.sum_length_children_le hnodup h.lt
  obtain ⟨extra, hextra⟩ := Nat.exists_eq_add_of_le hsteps
  simp only [compact, hextra, hcopy extra, copyWithin_nil]
  simp [listUnder, RawTree.toTree]

end Tree
end BottomUp
