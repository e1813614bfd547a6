/-
# Reading a tree off an arena

A tree of nodes is read off an arena from a root: the root holds what it should,
and its children, which name it as their parent, read as the trees below. While
a parse builds an arena, the roots of its trees are linked to no parent, and whatever is
linked is finished: a step changes unlinked nodes only, so what has been read stays
read.

A node that is added one at a time always finds a place: `Tree.push`, like `Tree.addNode`, leaves out
that the places may be used up.

Key definitions: `Node.content`, `Tree.Reads`, `Tree.push`, `Tree.KeepsLinked`.
Key theorems: `Tree.Reads.unique`, `Tree.ReadsAll.keep`, `Parser.attach_spec`.
-/
import BottomUp.Parse.Deterministic
import BottomUp.Proofs.Derivation
import BottomUp.Proofs.Outcome

namespace BottomUp

/-- What a node holds besides its links. -/
def Node.content (n : Node) : Content :=
  ⟨n.symbol, n.action, n.properties, n.text, n.span, n.sub⟩

namespace Tree

mutual

/-- The tree that is read from a node, whose parent is given. -/
inductive Reads (t : Tree) : Option NodeId → RawTree → NodeId → Prop
  | node {parent : Option NodeId} {id : NodeId} {n : Node} {children : List RawTree} :
      t.node? id = some n → n.parent = parent → ReadsAll t id children n.children.toList →
      Reads t parent (.node n.content children) id

/-- The trees that are read from the children of a node. -/
inductive ReadsAll (t : Tree) : NodeId → List RawTree → List NodeId → Prop
  | nil {parent : NodeId} : ReadsAll t parent [] []
  | cons {parent id : NodeId} {tree : RawTree} {trees : List RawTree} {ids : List NodeId} :
      Reads t (some parent) tree id → ReadsAll t parent trees ids →
      ReadsAll t parent (tree :: trees) (id :: ids)

end

mutual

/-- From a node one tree only is read. -/
theorem Reads.unique {t : Tree} {parent parent' : Option NodeId} {id : NodeId}
    {tree tree' : RawTree} (h : t.Reads parent tree id) (h' : t.Reads parent' tree' id) :
    tree = tree' := by
  match h, h' with
  | .node hn _ hc, .node hn' _ hc' =>
    rw [hn] at hn'
    cases hn'
    rw [ReadsAll.unique hc hc']

theorem ReadsAll.unique {t : Tree} {parent parent' : NodeId} {ids : List NodeId}
    {trees trees' : List RawTree} (h : t.ReadsAll parent trees ids)
    (h' : t.ReadsAll parent' trees' ids) : trees = trees' := by
  match h, h' with
  | .nil, .nil => rfl
  | .cons hhead htail, .cons hhead' htail' =>
    rw [Reads.unique hhead hhead', ReadsAll.unique htail htail']

end

/-! ### Changes that leave what is read -/

/-- Nodes that are linked to a parent stay as they are. -/
structure KeepsLinked (t t' : Tree) : Prop where
  node? : ∀ {id : NodeId} {n : Node}, t.node? id = some n → n.parent ≠ none → t'.node? id = some n

theorem KeepsLinked.refl (t : Tree) : t.KeepsLinked t := ⟨fun hn _ => hn⟩

theorem KeepsLinked.trans {t t' t'' : Tree} (h : t.KeepsLinked t') (h' : t'.KeepsLinked t'') :
    t.KeepsLinked t'' :=
  ⟨fun hn hlinked => h'.node? (h.node? hn hlinked) hlinked⟩

mutual

theorem Reads.keep_linked {t t' : Tree} (hkeep : t.KeepsLinked t') {parent id : NodeId}
    {tree : RawTree} (h : t.Reads (some parent) tree id) : t'.Reads (some parent) tree id := by
  match h with
  | .node hn hp hc => exact .node (hkeep.node? hn (by simp [hp])) hp (ReadsAll.keep hkeep hc)

theorem ReadsAll.keep {t t' : Tree} (hkeep : t.KeepsLinked t') {parent : NodeId}
    {ids : List NodeId} {trees : List RawTree} (h : t.ReadsAll parent trees ids) :
    t'.ReadsAll parent trees ids := by
  match h with
  | .nil => exact .nil
  | .cons hhead htail => exact .cons (Reads.keep_linked hkeep hhead) (ReadsAll.keep hkeep htail)

end

/-- What is read from a node that stays as it is, is read from it still. -/
theorem Reads.keep {t t' : Tree} (hkeep : t.KeepsLinked t') {parent : Option NodeId} {id : NodeId}
    {tree : RawTree} (hid : t'.node? id = t.node? id) (h : t.Reads parent tree id) :
    t'.Reads parent tree id := by
  cases h with
  | node hn hp hc => exact .node (hid.trans hn) hp (hc.keep hkeep)

/-- Which node is the root does not change what is read. -/
theorem Reads.withRoot {t : Tree} {parent : Option NodeId} {id : NodeId} {tree : RawTree}
    (h : t.Reads parent tree id) (root : NodeId) :
    ({ t with root } : Tree).Reads parent tree id := by
  have hkeep : t.KeepsLinked { t with root } := ⟨fun hn _ => hn⟩
  exact h.keep hkeep rfl

theorem Reads.lt {t : Tree} {parent : Option NodeId} {id : NodeId} {tree : RawTree}
    (h : t.Reads parent tree id) : id < t.size := by
  cases h with
  | node hn _ _ => exact (Array.getElem?_eq_some_iff.1 hn).1

/-- The trees that are read from some roots. -/
def ReadsRoots (t : Tree) (trees : List RawTree) (ids : List NodeId) : Prop :=
  List.Forall₂ (t.Reads none) trees ids

theorem ReadsRoots.keep {t t' : Tree} (hkeep : t.KeepsLinked t') {trees : List RawTree}
    {ids : List NodeId} (h : t.ReadsRoots trees ids) (hids : ∀ i ∈ ids, t'.node? i = t.node? i) :
    t'.ReadsRoots trees ids := by
  induction h with
  | nil => exact .nil
  | cons hr _ ih =>
    have hrest := ih fun i hi => hids i (List.mem_cons_of_mem _ hi)
    exact .cons (hr.keep hkeep (hids _ List.mem_cons_self)) hrest

theorem ReadsRoots.lt {t : Tree} {trees : List RawTree} {ids : List NodeId}
    (h : t.ReadsRoots trees ids) : ∀ i ∈ ids, i < t.size := by
  induction h with
  | nil => exact fun i hi => absurd hi List.not_mem_nil
  | cons hr _ ih =>
    intro i hi
    rcases List.mem_cons.1 hi with rfl | hi
    · exact hr.lt
    · exact ih i hi

/-! ### Adding nodes -/

section Add

variable {t : Tree} {n : Node}

/-- The tree with a node behind the others. -/
def push (t : Tree) (n : Node) : Tree := { t with nodes := t.nodes.push n }

theorem node?_push_of_lt {id : NodeId} (hid : id < t.size) : (t.push n).node? id = t.node? id := by
  have hne : id ≠ t.nodes.size := Nat.ne_of_lt hid
  simp [push, node?, Array.getElem?_push, hne]

theorem node?_push_size : (t.push n).node? t.size = some n := by
  simp [push, node?, size]

theorem size_push : (t.push n).size = t.size + 1 := by simp [push, size]

theorem keepsLinked_push : t.KeepsLinked (t.push n) where
  node? {id n'} hn _ := by
    rw [node?_push_of_lt (Array.getElem?_eq_some_iff.1 hn).1]
    exact hn

end Add

/-! ### Linking a root below another -/

section Adopt

variable {t : Tree} {head node : NodeId} {h n : Node} {action : NodeAction}

/-- A root that is given an action and a parent. -/
def adopt (t : Tree) (head node : NodeId) (action : NodeAction) : Tree :=
  (t.setAction node action).appendChild head node

theorem node?_modify (t : Tree) (id i : NodeId) (f : Node → Node) :
    (t.modify id f).node? i = if id = i then (t.node? i).map f else t.node? i := by
  simp [Tree.modify, node?, Array.getElem?_modify]

theorem size_adopt (hnode : t.node? node = some n) (hroot : n.parent = none) :
    (t.adopt head node action).size = t.size := by
  have hparent : (t.setAction node action).parent? node = none := by
    simp [parent?, setAction, node?_modify, hnode, hroot]
  unfold adopt appendChild detach
  rw [hparent]
  simp [size, Tree.modify, setAction]

variable (hhead : t.node? head = some h) (hnode : t.node? node = some n) (hroot : n.parent = none)
  (hne : node ≠ head)
include hhead hnode hroot hne

theorem node?_adopt (action : NodeAction) (i : NodeId) : (t.adopt head node action).node? i =
    if i = head then some { h with children := h.children.push node }
    else if i = node then some { n with action, parent := some head }
    else t.node? i := by
  have hparent : (t.setAction node action).parent? node = none := by
    simp [parent?, setAction, node?_modify, hnode, hroot]
  have hdetach : (t.setAction node action).detach node = t.setAction node action := by
    unfold detach
    rw [hparent]
  unfold adopt appendChild
  rw [hdetach]
  simp only [setAction, node?_modify]
  by_cases hi : i = head
  · subst hi
    simp [hne, hhead]
  · by_cases hi' : i = node
    · subst hi'
      simp [hi, Ne.symm hi, hnode]
    · simp [hi, hi', Ne.symm hi, Ne.symm hi']

theorem keepsLinked_adopt (hhroot : h.parent = none) (action : NodeAction) :
    t.KeepsLinked (t.adopt head node action) := by
  refine ⟨fun {id n'} hn hlinked => ?_⟩
  rw [node?_adopt hhead hnode hroot hne action]
  have hid : id ≠ head := by
    rintro rfl
    rw [hhead] at hn
    cases hn
    exact hlinked hhroot
  have hid' : id ≠ node := by
    rintro rfl
    rw [hnode] at hn
    cases hn
    exact hlinked hroot
  rw [if_neg hid, if_neg hid', hn]

theorem node?_adopt_head (action : NodeAction) : (t.adopt head node action).node? head =
    some { h with children := h.children.push node } := by
  rw [node?_adopt hhead hnode hroot hne, if_pos rfl]

/-- The other roots read as before. -/
theorem ReadsRoots.adopt (hhroot : h.parent = none) {trees : List RawTree} {nodes : List NodeId}
    (hrs : t.ReadsRoots trees nodes) (hout : head ∉ nodes) (hin : node ∉ nodes)
    (action : NodeAction) : (t.adopt head node action).ReadsRoots trees nodes := by
  have hkeep := keepsLinked_adopt hhead hnode hroot hne hhroot action
  apply hrs.keep hkeep
  intro i hi
  have hih : i ≠ head := fun heq => hout (heq ▸ hi)
  have hin : i ≠ node := fun heq => hin (heq ▸ hi)
  rw [node?_adopt hhead hnode hroot hne, if_neg hih, if_neg hin]

/-- The root that is linked reads as before, but for its action. -/
theorem Reads.adopt (hhroot : h.parent = none) {tree : RawTree} (hr : t.Reads none tree node) :
    (t.adopt head node action).Reads (some head) (tree.withAction action) node := by
  cases hr with
  | node hn _ hc =>
    rw [hnode] at hn
    cases hn
    have hget := node?_adopt hhead hnode hroot hne action node
    rw [if_neg hne, if_pos rfl] at hget
    exact .node hget rfl (hc.keep (keepsLinked_adopt hhead hnode hroot hne hhroot action))

end Adopt

end Tree

/-! ### Attaching the children of a rule -/

/-- What attaching children to a head leaves: new children behind those that were there,
reading as the given trees, and all other nodes as they were. -/
structure Attached (t t' : Tree) (head : NodeId) (h : Node) (nodes : List NodeId)
    (trees : List RawTree) : Prop where
  root : ∃ n new, t'.node? head = some n ∧ n.content = h.content ∧ n.parent = none ∧
    n.children.toList = h.children.toList ++ new ∧ t'.ReadsAll head trees new
  linked : t.KeepsLinked t'
  others : ∀ i < t.size, i ≠ head → i ∉ nodes → t'.node? i = t.node? i
  /-- Each child is one of the given nodes or a new one. -/
  size : t'.size + nodes.length = t.size + trees.length

/-- Linking one more root in front of the others. -/
theorem Attached.adopt {t t' : Tree} {head node : NodeId} {h n : Node} {nodes : List NodeId}
    {tree : RawTree} {trees : List RawTree} {action : NodeAction}
    (hhead : t.node? head = some h) (hhroot : h.parent = none) (hnode : t.node? node = some n)
    (hroot : n.parent = none) (hne : node ≠ head) (hr : t.Reads none tree node)
    (hrest : Attached (t.adopt head node action) t' head { h with children := h.children.push node }
      nodes trees) : Attached t t' head h (node :: nodes) (tree.withAction action :: trees) where
  root := by
    obtain ⟨n', new, hn', hcontent, hparent, hchildren, hreads⟩ := hrest.root
    refine ⟨n', node :: new, hn', hcontent, hparent, by simpa using hchildren, .cons ?_ hreads⟩
    exact (hr.adopt hhead hnode hroot hne hhroot).keep_linked hrest.linked
  linked := (Tree.keepsLinked_adopt hhead hnode hroot hne hhroot action).trans hrest.linked
  others i hi hih hin := by
    have hi' : i < (t.adopt head node action).size := by
      rwa [Tree.size_adopt hnode hroot]
    have hin' : i ≠ node ∧ i ∉ nodes := by simpa using hin
    rw [hrest.others i hi' hih hin'.2, Tree.node?_adopt hhead hnode hroot hne action, if_neg hih,
      if_neg hin'.1]
  size := by
    have hsize := hrest.size
    rw [Tree.size_adopt hnode hroot] at hsize
    simp only [List.length_cons]
    omega

/-- Attaching that began with a new root, the first to be linked. -/
theorem Attached.push {t t' : Tree} {head : NodeId} {h leaf : Node} {nodes : List NodeId}
    {trees : List RawTree} (hrest : Attached (t.push leaf) t' head h (t.size :: nodes) trees) :
    Attached t t' head h nodes trees where
  root := hrest.root
  linked := Tree.keepsLinked_push.trans hrest.linked
  others i hi hih hin := by
    have hi' : i < (t.push leaf).size := by
      rw [Tree.size_push]
      omega
    have hin' : i ∉ t.size :: nodes := by
      simpa [hin] using Nat.ne_of_lt hi
    rw [hrest.others i hi' hih hin', Tree.node?_push_of_lt hi]
  size := by
    have hsize := hrest.size
    rw [Tree.size_push, List.length_cons] at hsize
    omega

namespace Parser

/-- With a root for each parsed element of the body, attaching gives the head the children of
the rule. -/
theorem attach_spec {head : NodeId} : ∀ {body : List Element} {nodes : List NodeId}
    {trees : List RawTree} {t : Tree} {h : Node}, t.node? head = some h → h.parent = none →
    t.ReadsRoots trees nodes → nodes.Nodup → head ∉ nodes →
    nodes.length = (rightOf body).length →
    ∃ t', attach head body nodes t = .ok t' ∧ Attached t t' head h nodes (fill body trees)
  | [], nodes, trees, t, h, hhead, hhroot, _, _, _, hlen =>
    ⟨t, rfl, ⟨h, [], hhead, rfl, hhroot, by simp, .nil⟩, .refl t, fun _ _ _ _ => rfl,
      congrArg (t.size + ·) hlen⟩
  | e :: body, nodes, trees, t, h, hhead, hhroot, hreads, hnodup, hout, hlen => by
    by_cases he : e.symbol.isParsed = true
    · rw [rightOf_cons_parsed he] at hlen
      cases hreads with
      | nil => simp at hlen
      | @cons tree node trees nodes hr hrs =>
        have hne : node ≠ head := fun heq => hout (heq ▸ List.mem_cons_self)
        obtain ⟨n, hnode, hroot⟩ : ∃ n, t.node? node = some n ∧ n.parent = none := by
          cases hr with
          | node hn hp _ => exact ⟨_, hn, hp⟩
        rw [List.nodup_cons] at hnodup
        have hhead' := Tree.node?_adopt_head hhead hnode hroot hne e.action
        have hout' : head ∉ nodes := fun hmem => hout (List.mem_cons_of_mem _ hmem)
        have hreads' :=
          Tree.ReadsRoots.adopt hhead hnode hroot hne hhroot hrs hout' hnodup.1 e.action
        obtain ⟨t', hattach, hrest⟩ := attach_spec hhead' hhroot hreads' hnodup.2 hout'
          (by simpa using hlen)
        refine ⟨t', ?_, ?_⟩
        · simp only [attach, he, if_true]
          exact hattach
        · simp only [fill, he, if_true]
          exact Attached.adopt hhead hhroot hnode hroot hne hr hrest
    · have he : e.symbol.isParsed = false := by simpa using he
      rw [rightOf_cons_virtual he] at hlen
      -- the leaf for the virtual symbol is a new node, so it is none of the roots
      let leaf := Node.fresh e.symbol .keep
      have hlt : head < t.size := (Array.getElem?_eq_some_iff.1 hhead).1
      have hhead₁ : (t.push leaf).node? head = some h := (Tree.node?_push_of_lt hlt).trans hhead
      have hne : t.size ≠ head := (Nat.ne_of_lt hlt).symm
      have hroots : (t.push leaf).ReadsRoots trees nodes :=
        hreads.keep Tree.keepsLinked_push fun i hi => Tree.node?_push_of_lt (hreads.lt i hi)
      have hleaf : (t.push leaf).Reads none (.node leaf.content []) t.size :=
        .node Tree.node?_push_size rfl .nil
      have hin : t.size ∉ nodes := fun hmem => Nat.lt_irrefl _ (hreads.lt _ hmem)
      have hhead' := Tree.node?_adopt_head hhead₁ Tree.node?_push_size rfl hne e.action
      have hreads' := hroots.adopt hhead₁ Tree.node?_push_size rfl hne hhroot hout
        hin e.action
      obtain ⟨t', hattach, hrest⟩ := attach_spec hhead' hhroot hreads' hnodup hout hlen
      refine ⟨t', ?_, ?_⟩
      · simp only [attach, he, Bool.false_eq_true, if_false]
        exact hattach
      · have hadopted := Attached.adopt hhead₁ hhroot Tree.node?_push_size rfl hne hleaf hrest
        simp only [fill, he, Bool.false_eq_true, if_false]
        exact hadopted.push

end Parser

end BottomUp
